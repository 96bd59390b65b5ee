import RegisterColoring.Proofs.Narrowing

/-! # Separation refines the joined sets

Separation divides sets, splits the linkages between parts and joins the uses anew. Where every active linkage
joins two uses in play, these three steps agree: what is joined at the end lies inside one part, an active linkage
inside a part keeps its ends joined, and so exactly the linkages between different sets are split. No conflict is
left, so that another separation has nothing to do.

* `Partition.Joins.unique`: joined uses have one normal form.
* `Program.ActiveInPlay`: active linkages join uses in play.
* `Program.partition_separate`: separation leaves the joined sets of the program that it leaves.
* `Program.keptTogether_iff`: linkages inside a part are those inside a set.
* `Program.program_separate`: what separation does to a program.
* `Separation.Resolves`, `Program.ActiveInPlay.resolves`: what a separation of conflicts comes to.
* `resolves_separate`: separation comes to that, and to nothing more when it is repeated. -/

namespace RegisterColoring

/-- The joined uses of a program have one normal form. -/
theorem Partition.Joins.unique {part part' : Partition} {p : Program} (h : part.Joins p) (h' : part'.Joins p) :
    part = part' := by
  have included : ∀ {s t : Partition}, s.Joins p → t.Joins p → ∀ set ∈ s.sets, set ∈ t.sets := by
    intro s t hs ht set hset
    obtain ⟨u, hu, hiff⟩ := hs.sorted.mem_iff set hset
    obtain ⟨set', hset', hmem⟩ := ht.sorted.covered u hu
    obtain ⟨v, -, hiff'⟩ := ht.sorted.mem_iff set' hset'
    -- both sets have the uses with the root of this one
    have same : set = set' := by
      refine (hs.normal.ascending set hset).eq_of_mem_iff (ht.normal.ascending set' hset') fun w => ?_
      rw [hiff, hiff', ((hiff' u).mp hmem).2]
    exact same ▸ hset'
  exact h.normal.eq_of_mem_iff h'.normal fun set => ⟨included h h' set, included h' h set⟩

namespace Program

variable {m : Machine} {p : Program} {u v : UseId}

/-! ## Active linkages in play -/

/-- Whether every active linkage joins two uses of the program that do not live in memory. -/
def ActiveInPlay (p : Program) : Prop :=
  ∀ k ∈ p.linkages, k.state = .active → k.first ∈ p.usesInPlay ∧ k.second ∈ p.usesInPlay

instance (p : Program) : Decidable p.ActiveInPlay :=
  inferInstanceAs (Decidable (∀ k ∈ p.linkages, _))

/-- No active linkage misses an end. -/
theorem ActiveInPlay.missingEnd? (h : p.ActiveInPlay) : p.missingEnd? = none := by
  refine List.find?_eq_none.mpr fun u hu => ?_
  obtain ⟨⟨k, l⟩, hk, hu⟩ := List.mem_flatMap.mp hu
  obtain ⟨hk, hactive⟩ := exists_mem_activeLinkages.mp ⟨l, hk⟩
  obtain ⟨hfirst, hsecond⟩ := h k hk hactive
  have hlt : u < p.uses.size := by
    simp only [List.mem_cons, List.not_mem_nil, or_false] at hu
    rcases hu with rfl | rfl
    · exact (mem_usesInPlay.mp hfirst).1
    · exact (mem_usesInPlay.mp hsecond).1
  simp [use?, hlt]

/-- Both ends of an active linkage are outside memory. -/
theorem ActiveInPlay.isInMemory_ends (h : p.ActiveInPlay) (k : Linkage) (hk : k ∈ p.linkages)
    (hactive : k.state = .active) : p.isInMemory k.first = p.isInMemory k.second := by
  obtain ⟨hfirst, hsecond⟩ := h k hk hactive
  rw [(mem_usesInPlay.mp hfirst).2, (mem_usesInPlay.mp hsecond).2]

/-- Separation moves no use to memory. -/
theorem usesInPlay_separate (m : Machine) (p : Program) (part : Partition) :
    (p.separate m part).program.usesInPlay = p.usesInPlay := by
  unfold usesInPlay useIds isInMemory use?
  rw [uses_separate]

/-- Separation makes no linkage active. -/
theorem ActiveInPlay.separate (h : p.ActiveInPlay) (m : Machine) (part : Partition) :
    (p.separate m part).program.ActiveInPlay := by
  intro k hk hactive
  rw [usesInPlay_separate]
  obtain ⟨l, hl⟩ := exists_mem_activeLinkages.mpr ⟨hk, hactive⟩
  have before : (k, l) ∈ p.activeLinkages := by
    rw [Program.separate] at hl
    split at hl
    · exact hl
    · exact (mem_activeLinkages_splitAll.mp hl).1
  obtain ⟨hk, hactive⟩ := exists_mem_activeLinkages.mp ⟨l, before⟩
  exact h k hk hactive

/-- Separation changes no conflict. -/
theorem conflict_separate_eq (part : Partition) :
    (p.separate m part).program.conflict m u v = p.conflict m u v := by
  unfold conflict use?
  rw [uses_separate]

/-- Uses of which no two conflict have no conflicting pairs. -/
theorem conflictPairs_eq_nil {members : List UseId} (h : members.Pairwise fun u v => p.conflict m u v = false) :
    p.conflictPairs m members = [] := by
  induction members with
  | nil => rfl
  | cons a rest ih =>
    obtain ⟨first, later⟩ := List.pairwise_cons.mp h
    rw [conflictPairs, ih later, List.append_nil, List.map_eq_nil_iff, List.filter_eq_nil_iff]
    simpa using first

/-! ## Sets and linkages after separation -/

/-- Separation leaves the joined sets of the program that it leaves. -/
theorem partition_separate (m : Machine) (p : Program) :
    (p.separate m p.joinedSets).partition = (p.separate m p.joinedSets).program.joinedSets :=
  (joins_separate m p).unique (joins_joinedSets _)

/-- A part lies inside a joined set. -/
theorem exists_joinedSet_of_part {part : List UseId} (h : part ∈ p.partsOf m) :
    ∃ set ∈ p.joinedSets.sets, ∀ u ∈ part, u ∈ set := by
  obtain ⟨d, hd, hpart⟩ := List.mem_flatMap.mp h
  obtain ⟨set, hset, rfl⟩ := List.mem_map.mp hd
  exact ⟨set, hset, fun u hu =>
    (perm_flatten_divideSet hset).mem_iff.mp (List.mem_flatten.mpr ⟨part, hpart, hu⟩)⟩

/-- A set that separation leaves lies inside a joined set. -/
theorem exists_joinedSet_of_separate (hends : p.missingEnd? = none) {set : List UseId}
    (hset : set ∈ (p.separate m p.joinedSets).partition.sets) :
    ∃ t ∈ p.joinedSets.sets, ∀ u ∈ set, u ∈ t := by
  obtain ⟨u, hu⟩ := List.exists_mem_of_ne_nil set ((joins_separate m p).ne_nil hset)
  obtain ⟨part, hpart, hupart, -⟩ := exists_part_of_separate hends hset hu hu
  obtain ⟨t, ht, hinside⟩ := exists_joinedSet_of_part hpart
  refine ⟨t, ht, fun v hv => ?_⟩
  -- a part that has both uses lies inside the joined set of the first
  obtain ⟨part', hpart', hu', hv'⟩ := exists_part_of_separate hends hset hu hv
  obtain ⟨t', ht', hinside'⟩ := exists_joinedSet_of_part hpart'
  rw [(joins_joinedSets p).eq_of_mem ht ht' (hinside u hupart) (hinside' u hu')]
  exact hinside' v hv'

/-- The sets that separation leaves together are the uses in play. -/
theorem perm_flatten_separate (m : Machine) (p : Program) :
    (p.separate m p.joinedSets).partition.sets.flatten.Perm p.usesInPlay := by
  rw [partition_separate]
  refine (List.perm_ext_iff_of_nodup (nodup_flatten_joinedSets _) (List.nodup_range.filter _)).mpr fun u => ?_
  rw [mem_flatten_joinedSets, usesInPlay_separate]
  rfl

/-- An active linkage inside a part stays active. -/
theorem getElem?_separate_of_keptTogether (hp : p.ActiveInPlay) {k : Linkage} {l : LinkageId}
    (hk : p.linkages[l]? = some k) (h : p.KeptTogether m k) :
    (p.separate m p.joinedSets).program.linkages[l]? = some k := by
  rw [getElem?_linkages_separate hp.missingEnd? hp.isInMemory_ends, hk, Option.map_some,
    if_neg fun hapart => hapart.2.2 h]

/-- Active linkages inside a part are those inside a set that separation leaves. -/
theorem keptTogether_iff (hp : p.ActiveInPlay) {k : Linkage} (hk : k ∈ p.linkages)
    (hactive : k.state = .active) : p.KeptTogether m k ↔
      ∃ set ∈ (p.separate m p.joinedSets).partition.sets, k.first ∈ set ∧ k.second ∈ set := by
  constructor
  · intro h
    obtain ⟨l, hl⟩ := Array.mem_iff_getElem?.mp hk
    obtain ⟨hfirst, hsecond⟩ := hp k hk hactive
    have stays := getElem?_separate_of_keptTogether hp hl h
    rw [partition_separate]
    refine exists_joinedSet_of_active (hp.separate m _).missingEnd? (l := l) ?_ ?_ ?_
    · exact mem_activeLinkages.mpr ⟨stays, Linkage.isActive_iff.mpr hactive⟩
    · rwa [usesInPlay_separate]
    · rwa [usesInPlay_separate]
  · rintro ⟨set, hset, hfirst, hsecond⟩
    exact exists_part_of_separate hp.missingEnd? hset hfirst hsecond

/-- Separation splits the active linkages between different sets and changes nothing else. -/
theorem program_separate (hp : p.ActiveInPlay) :
    (p.separate m p.joinedSets).program = p.mapStates fun k _ =>
      if k.state = .active ∧ ¬ ∃ set ∈ (p.separate m p.joinedSets).partition.sets,
        k.first ∈ set ∧ k.second ∈ set then .split else k.state := by
  refine ext_getElem? (SameShape.separate m p _).functions_eq (fun u => ?_) fun l => ?_
  · exact congrArg (·[u]?) (uses_separate m _)
  · rw [getElem?_linkages_separate hp.missingEnd? hp.isInMemory_ends, getElem?_mapStates]
    cases hk : p.linkages[l]? with
    | none => rfl
    | some k =>
      have hmem := Array.mem_of_getElem? hk
      have apart : k.state = .active ∧ p.isInMemory k.first = false ∧ ¬ p.KeptTogether m k ↔
          k.state = .active ∧ ¬ ∃ set ∈ (p.separate m p.joinedSets).partition.sets,
            k.first ∈ set ∧ k.second ∈ set := by
        refine and_congr_right fun hactive => ?_
        rw [keptTogether_iff hp hmem hactive]
        exact and_iff_right (mem_usesInPlay.mp (hp k hmem hactive).1).2
      simp only [Option.map_some, apart]

/-- After separation no two joined uses conflict. -/
theorem conflictPairs_separate (hends : p.missingEnd? = none) {set : List UseId}
    (hset : set ∈ (p.separate m p.joinedSets).program.joinedSets.sets) :
    (p.separate m p.joinedSets).program.conflictPairs m set = [] := by
  have ascending := (normal_joinedSets _).ascending set hset
  rw [← partition_separate] at hset
  refine conflictPairs_eq_nil (ascending.imp_of_mem fun {u v} hu hv hlt => ?_)
  rw [conflict_separate_eq]
  obtain ⟨part, hpart, hu, hv⟩ := exists_part_of_separate hends hset hu hv
  exact conflict_of_mem_partsOf hpart hu hv (Nat.ne_of_lt hlt)

/-- Where no joined uses conflict, no set is divided. -/
theorem splits_of_peace (h : ∀ set ∈ p.joinedSets.sets, p.conflictPairs m set = []) :
    (p.separate m p.joinedSets).splits = [] := by
  rw [Separation.splits, divided_separate, List.filter_eq_nil_iff]
  intro d hd
  obtain ⟨set, hset, rfl⟩ := List.mem_map.mp hd
  simp [divideSet, h set hset]

end Program

/-! ## What separation comes to -/

/-- Whether a separation resolves the conflicts of a program, and does nothing else. -/
structure Separation.Resolves (m : Machine) (p : Program) (s : Separation) : Prop where
  /-- The sets are what the program that is left joins. -/
  joined : s.partition = s.program.joinedSets
  /-- Every set lies inside a set that the program joined before. -/
  refines : ∀ set ∈ s.partition.sets, ∃ t ∈ p.joinedSets.sets, ∀ u ∈ set, u ∈ t
  /-- The sets have every use outside memory once, and no other. -/
  covers : s.partition.sets.flatten.Perm p.usesInPlay
  /-- Two uses of a set name different slots, and some class lies inside the classes they ask for. -/
  apart : ∀ set ∈ s.partition.sets, ∀ u ∈ set, ∀ v ∈ set, u ≠ v →
    ∀ x y, p.use? u = some x → p.use? v = some y → x.sharesSlot y = false ∧
      ∀ c e, x.class? = some c → y.class? = some e → ∃ b < m.classCount, m.Within b c ∧ m.Within b e
  /-- An active linkage is split if and only if no set has both its ends. Nothing else is changed. -/
  states : s.program = p.mapStates fun k _ =>
    if k.state = .active ∧ ¬ ∃ set ∈ s.partition.sets, k.first ∈ set ∧ k.second ∈ set then .split else k.state

/-- Where every active linkage joins two uses in play, separation resolves the conflicts of the joined uses. -/
theorem Program.ActiveInPlay.resolves (m : Machine) {p : Program} (hp : p.ActiveInPlay) :
    (p.separate m p.joinedSets).Resolves m p where
  joined := partition_separate m p
  refines set hset := exists_joinedSet_of_separate hp.missingEnd? hset
  covers := perm_flatten_separate m p
  apart := by
    intro set hset u hu v hv hne x y hx hy
    obtain ⟨part, hpart, hu, hv⟩ := exists_part_of_separate hp.missingEnd? hset hu hv
    obtain ⟨slots, classes⟩ := conflict_eq_false_iff.mp (conflict_of_mem_partsOf hpart hu hv hne) x y hx hy
    exact ⟨slots, fun c e hc he => Machine.compatible_iff.mp (classes c e hc he)⟩
  states := program_separate hp

/-- Where every active linkage joins two uses in play, separation resolves the conflicts of the joined uses and
does nothing else. Repeated on what it leaves, it divides no set and changes nothing. There is no fault either
time, if the linkages can be counted in 32 bits. -/
theorem resolves_separate (m : Machine) {p : Program} (hp : p.ActiveInPlay) :
    let s := p.separate m p.joinedSets
    let again := s.program.separate m s.partition
    s.Resolves m p ∧ again.splits = [] ∧ again.partition = s.partition ∧ again.program = s.program ∧
      p.joinFault? = none ∧ (p.linkages.size < 2 ^ 32 → s.fault? p = none ∧ again.fault? s.program = none) := by
  dsimp only
  rw [Program.partition_separate m p]
  have peace : ∀ set ∈ (p.separate m p.joinedSets).program.joinedSets.sets,
      (p.separate m p.joinedSets).program.conflictPairs m set = [] := fun set hset =>
    Program.conflictPairs_separate hp.missingEnd? hset
  have same := (Program.separate_of_peace peace).1
  refine ⟨hp.resolves m, Program.splits_of_peace peace, ?_, same, ?_, fun hsize => ⟨?_, ?_⟩⟩
  · rw [Program.partition_separate, same]
  · exact Program.joinFault?_eq_none hp.missingEnd?
  · exact Program.fault?_separate hp.missingEnd? hsize
  · refine Program.fault?_separate (hp.separate m _).missingEnd? ?_
    rwa [(Program.SameShape.separate m p _).size_linkages]

/-- Four uses that are linked in a square, of which two linked ones name the same slot, and one in memory. -/
def square : Program where
  functions := #["f"]
  uses := #[⟨0, .operand, 0, some 0, 1, none, false⟩, ⟨0, .operand, 0, some 0, 1, none, false⟩,
    ⟨0, .operand, 1, some 0, 1, none, false⟩, ⟨0, .operand, 2, some 0, 1, none, false⟩,
    ⟨0, .temp, 0, some 0, 1, none, true⟩]
  linkages := #[⟨0, 1, .active⟩, ⟨0, 2, .active⟩, ⟨1, 3, .active⟩, ⟨2, 3, .active⟩, ⟨3, 4, .broken 1⟩]

/-- The square is split into two halves. -/
theorem resolves_separate_square :
    let s := square.separate bytePairMachine square.joinedSets
    square.ActiveInPlay ∧ square.joinedSets.sets = [[0, 1, 2, 3]] ∧ s.partition.sets = [[0, 2], [1, 3]] ∧
      s.program.linkages.map Linkage.state = #[.split, .active, .active, .split, .broken 1] ∧
      s.Resolves bytePairMachine square ∧
      (s.program.separate bytePairMachine s.partition).program = s.program := by
  have inPlay : square.ActiveInPlay := by decide +kernel
  obtain ⟨resolves, -, -, same, -⟩ := resolves_separate bytePairMachine inPlay
  exact ⟨inPlay, by decide +kernel, by decide +kernel, by decide +kernel, resolves, same⟩

end RegisterColoring
