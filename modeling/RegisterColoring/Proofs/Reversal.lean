import RegisterColoring.Proofs.Coexistence
import RegisterColoring.Proofs.Separation

/-! # Linkages have no direction

A linkage names its ends in an order, and every stage of an allocation reads them in its own way: to join
uses, to weigh links, to find the group that a span belongs to, to break what is at a use that moves. None of
this depends on the order, except that the span of a linkage belongs to the group of its first end. The ends
of an active linkage are in one group, unless one of them is in memory and the other is not.

* `Program.reverse`: the program with the linkages at chosen places reversed.
* `Program.joinedSets_reverse`, `Program.separate_reverse`, `Interference.ofGroups_reverse`: what the stages
  make of it.
* `Attempt.ofProgram_reverse`, `Program.revise_reverse`: one attempt.
* `allocateFrom_reverse`: a whole run.
* `allocate_reverse`: allocation does not see the direction of linkages whose ends are both in memory or both
  in play.
* `location_ne_of_reversed`: it may see it where one end is in memory. -/

namespace RegisterColoring

/-! ## Reversed linkages -/

namespace Linkage

/-- The linkage with its ends in the other order. -/
def reversed (l : Linkage) : Linkage :=
  ⟨l.second, l.first, l.state⟩

/-- The linkage, reversed or not. -/
def reversedIf (reverse : Bool) (l : Linkage) : Linkage :=
  if reverse then l.reversed else l

/-- What does not change when a linkage is reversed does not change when it may be. -/
theorem apply_reversedIf {α : Type} {f : Linkage → α} {l : Linkage} (h : f l.reversed = f l)
    (reverse : Bool) : f (l.reversedIf reverse) = f l := by
  cases reverse with
  | false => rfl
  | true => exact h

/-- Turning a linkage round keeps its state. -/
@[simp] theorem state_reversedIf (l : Linkage) (reverse : Bool) :
    (l.reversedIf reverse).state = l.state :=
  apply_reversedIf (f := Linkage.state) rfl reverse

/-- A linkage that is turned round is active if it was. -/
@[simp] theorem isActive_reversedIf (l : Linkage) (reverse : Bool) :
    (l.reversedIf reverse).isActive = l.isActive :=
  apply_reversedIf (f := Linkage.isActive) rfl reverse

/-- A linkage that is turned round ends at the same uses. -/
@[simp] theorem endsAt_reversedIf (l : Linkage) (reverse : Bool) :
    (l.reversedIf reverse).endsAt = l.endsAt := by
  refine apply_reversedIf ?_ reverse
  funext u
  exact Bool.or_comm _ _

/-- Turned round twice, a linkage is as it was. -/
@[simp] theorem reversedIf_reversedIf (l : Linkage) (reverse : Bool) :
    (l.reversedIf reverse).reversedIf reverse = l := by
  cases reverse <;> rfl

/-- It does not matter whether the state changes before or after the turn. -/
theorem reversedIf_with_state (l : Linkage) (reverse : Bool) (state : LinkState) :
    { l with state }.reversedIf reverse = { l.reversedIf reverse with state } := by
  cases reverse <;> rfl

end Linkage

namespace Program

variable {p : Program} {chosen : LinkageId → Bool}

/-- The program with the linkages at the chosen places reversed. -/
def reverse (p : Program) (chosen : LinkageId → Bool) : Program :=
  { p with linkages := p.linkages.mapIdx fun i l => l.reversedIf (chosen i) }

/-- The linkages keep their places, turned round or not. -/
theorem getElem?_linkages_reverse (l : LinkageId) :
    (p.reverse chosen).linkages[l]? = p.linkages[l]?.map (Linkage.reversedIf (chosen l)) :=
  Array.getElem?_mapIdx

/-- Reversing twice changes nothing. -/
theorem reverse_reverse : (p.reverse chosen).reverse chosen = p := by
  refine ext_getElem? rfl (fun _ => rfl) fun l => ?_
  rw [getElem?_linkages_reverse, getElem?_linkages_reverse, Option.map_map]
  simp [Function.comp_def]

/-- The active linkages of the reversed program are those of the program, reversed at their places. -/
theorem activeLinkages_reverse : (p.reverse chosen).activeLinkages =
    p.activeLinkages.map fun x => (x.1.reversedIf (chosen x.2), x.2) := by
  have numbered : (p.reverse chosen).numberedLinkages =
      p.numberedLinkages.map fun x => (x.1.reversedIf (chosen x.2), x.2) := by
    refine List.ext_getElem? fun l => ?_
    simp only [numberedLinkages, List.getElem?_map, List.getElem?_zipIdx, Array.getElem?_toList,
      getElem?_linkages_reverse, Option.map_map, Nat.zero_add]
    rfl
  rw [activeLinkages, numbered, List.filter_map, activeLinkages]
  simp [Function.comp_def]

/-- The ends of reversed linkages are uses of the program too. -/
theorem EndsInRange.reverse (h : p.EndsInRange) : (p.reverse chosen).EndsInRange := by
  intro k' hk'
  obtain ⟨l, hl⟩ := Array.mem_iff_getElem?.mp hk'
  rw [getElem?_linkages_reverse] at hl
  obtain ⟨k, hk, rfl⟩ := Option.map_eq_some_iff.mp hl
  obtain ⟨hfirst, hsecond⟩ := h k (Array.mem_of_getElem? hk)
  cases chosen l with
  | false => exact ⟨hfirst, hsecond⟩
  | true => exact ⟨hsecond, hfirst⟩

/-! ## Changes of states -/

/-- A change of states that does not look at the order of ends does the same to the reversed program. -/
theorem mapStates_reverse {f : Linkage → LinkageId → LinkState} (h : ∀ l i, f l.reversed i = f l i) :
    (p.reverse chosen).mapStates f = (p.mapStates f).reverse chosen := by
  refine ext_getElem? rfl (fun _ => rfl) fun l => ?_
  rw [getElem?_mapStates, getElem?_linkages_reverse, getElem?_linkages_reverse, getElem?_mapStates,
    Option.map_map, Option.map_map]
  congr 1
  funext k
  have same : f (k.reversedIf (chosen l)) l = f k l :=
    Linkage.apply_reversedIf (f := fun k => f k l) (h k l) _
  rw [Function.comp, Function.comp, same]
  exact (Linkage.reversedIf_with_state k _ _).symm

/-- Splits are reset in a reversed program as in the program. -/
theorem resetSplits_reverse : (p.reverse chosen).resetSplits = p.resetSplits.reverse chosen :=
  mapStates_reverse fun _ _ => rfl

/-- Linkages are split in a reversed program as in the program. -/
theorem splitAll_reverse (ids : List LinkageId) :
    (p.reverse chosen).splitAll ids = (p.splitAll ids).reverse chosen :=
  mapStates_reverse fun _ _ => rfl

/-- A revision does the same to the reversed program. -/
theorem revise_reverse (t : Trial) (r : Revision) :
    (p.reverse chosen).revise t r = (p.revise t r).reverse chosen := by
  refine ext_getElem? rfl (fun u => ?_) fun l => ?_
  · show ((p.reverse chosen).revise t r).uses[u]? = (p.revise t r).uses[u]?
    rw [getElem?_uses_revise, getElem?_uses_revise]
    rfl
  · rw [getElem?_linkages_revise, getElem?_linkages_reverse, getElem?_linkages_reverse,
      getElem?_linkages_revise, Option.map_map, Option.map_map]
    congr 1
    funext k
    simp only [Function.comp, Linkage.reversedIf_with_state, Linkage.state_reversedIf,
      Linkage.endsAt_reversedIf]

/-! ## Joined uses -/

/-- Every linkage of the reversed program that joins is one of the program, perhaps reversed. -/
theorem exists_of_mem_joiningLinkages_reverse {k : Linkage}
    (hk : k ∈ (p.reverse chosen).joiningLinkages) :
    ∃ l ∈ p.joiningLinkages, ∃ reverse, k = l.reversedIf reverse := by
  rw [joiningLinkages, activeLinkages_reverse, List.map_map, List.mem_filter, List.mem_map] at hk
  obtain ⟨⟨⟨l, i⟩, hl, rfl⟩, hjoins⟩ := hk
  refine ⟨l, List.mem_filter.mpr ⟨List.mem_map.mpr ⟨(l, i), hl, rfl⟩, ?_⟩, chosen i, rfl⟩
  have same : p.joins (l.reversedIf (chosen i)) = p.joins l :=
    Linkage.apply_reversedIf (Bool.and_comm _ _) _
  exact same.symm.trans hjoins

/-- What a chain of linkages joins in the reversed program one joins in the program. -/
theorem eqvGen_of_reverse {x y : UseId}
    (h : Relation.EqvGen (Linked (p.reverse chosen).joiningLinkages) x y) :
    Relation.EqvGen (Linked p.joiningLinkages) x y := by
  induction h with
  | rel x y h =>
    obtain ⟨k, hk, rfl, rfl⟩ := h
    obtain ⟨l, hl, reverse, rfl⟩ := exists_of_mem_joiningLinkages_reverse hk
    have joined : Relation.EqvGen (Linked p.joiningLinkages) l.first l.second :=
      .rel _ _ ⟨l, hl, rfl, rfl⟩
    cases reverse with
    | false => exact joined
    | true => exact joined.symm
  | refl x => exact .refl x
  | symm x y _ ih => exact ih.symm
  | trans x y z _ _ ih ih' => exact ih.trans _ _ _ ih'

/-- The first class holds the uses with the root of the first use, the others are those of the rest. -/
theorem classesOf_cons (s : UnionFind) (u : UseId) (uses : List UseId) :
    classesOf s (u :: uses) = (u :: uses.filter fun v => s.root v == s.root u) ::
      classesOf s (uses.filter fun v => !s.root v == s.root u) := by
  have classes : ∀ us, classesOf s us =
      (us.map s.root).eraseDups.map fun r => us.filter fun v => s.root v == r := by
    intro us
    simp only [classesOf, List.map_map, List.filter_map, Function.comp_def, List.map_id']
  rw [classes, classes, List.map_cons, List.eraseDups_cons, List.map_cons, List.filter_cons_of_pos (by simp),
    List.filter_map]
  refine congrArg _ (List.map_congr_left fun r hr => ?_)
  -- the other roots are not that of the first use
  obtain ⟨v, hv, rfl⟩ := List.mem_map.mp (List.mem_eraseDups.mp hr)
  have hne : s.root v ≠ s.root u := by simpa using (List.mem_filter.mp hv).2
  rw [List.filter_cons_of_neg (by simpa using hne.symm), List.filter_filter]
  refine List.filter_congr fun w _ => ?_
  by_cases hw : s.root w = s.root v
  · simp [hw, hne]
  · simp [hw]

/-- Classes depend on roots only as far as uses have the same one. -/
theorem classesOf_congr {s t : UnionFind} {uses : List UseId}
    (h : ∀ u ∈ uses, ∀ v ∈ uses, s.root u = s.root v ↔ t.root u = t.root v) :
    classesOf s uses = classesOf t uses := by
  -- the rest of the uses after the first class is shorter
  induction hlength : uses.length using Nat.strongRecOn generalizing uses with
  | ind n ih =>
    cases uses with
    | nil => rfl
    | cons u uses =>
      have same : ∀ v ∈ uses, (s.root v == s.root u) = (t.root v == t.root u) := by
        intro v hv
        rw [Bool.eq_iff_iff, beq_iff_eq, beq_iff_eq]
        exact h v (List.mem_cons_of_mem u hv) u List.mem_cons_self
      have rest : (uses.filter fun v => !s.root v == s.root u) =
          uses.filter fun v => !t.root v == t.root u :=
        List.filter_congr fun v hv => by rw [same v hv]
      have shorter : (uses.filter fun v => !t.root v == t.root u).length < n :=
        hlength ▸ Nat.lt_succ_of_le (List.length_filter_le _ _)
      rw [classesOf_cons, classesOf_cons, List.filter_congr same, rest, ih _ shorter ?_ rfl]
      intro v hv w hw
      exact h v (List.mem_cons_of_mem u (List.mem_of_mem_filter hv)) w
        (List.mem_cons_of_mem u (List.mem_of_mem_filter hw))

/-- The sets of joined uses are the same in the reversed program. -/
theorem joinedSets_reverse (h : p.EndsInRange) :
    (p.reverse chosen).joinedSets = p.joinedSets := by
  have below := endsBelow_joiningLinkages (missingEnd?_eq_none h)
  have below' : EndsBelow p.uses.size (p.reverse chosen).joiningLinkages :=
    endsBelow_joiningLinkages (missingEnd?_eq_none h.reverse)
  show Partition.ofSets (classesOf (unite p.uses.size (p.reverse chosen).joiningLinkages) p.usesInPlay) =
    Partition.ofSets _
  rw [classesOf_congr fun u hu v hv => ?_]
  have hu := (mem_usesInPlay.mp hu).1
  have hv := (mem_usesInPlay.mp hv).1
  rw [root_unite_eq_iff below' hu hv, root_unite_eq_iff below hu hv]
  refine ⟨eqvGen_of_reverse, fun hjoined => ?_⟩
  apply @eqvGen_of_reverse _ chosen
  rwa [reverse_reverse]

/-! ## Separation -/

/-- The other ends at each use are the same in the reversed program. -/
theorem linkedUses_reverse : (p.reverse chosen).linkedUses = p.linkedUses := by
  show ((p.useIds.map fun u => (p.reverse chosen).activeLinkages.filterMap _).toArray) = _
  rw [activeLinkages_reverse, linkedUses]
  congr 2
  funext u
  rw [List.filterMap_map]
  congr 1
  funext x
  obtain ⟨l, i⟩ := x
  refine Linkage.apply_reversedIf (f := fun l : Linkage =>
    if l.first = u then some l.second else if l.second = u then some l.first else none) ?_ (chosen i)
  -- only when both ends are the use do both tests succeed, and then the other end is the use too
  by_cases hfirst : l.first = u <;> by_cases hsecond : l.second = u <;>
    simp [Linkage.reversed, hfirst, hsecond]

/-- The same linkages cross the sets of a partition. -/
theorem crossing_reverse (part : Partition) :
    (p.reverse chosen).crossing part = p.crossing part := by
  have same : ∀ (l : Linkage) i,
      (part.indexOf? (l.reversedIf (chosen i)).first != part.indexOf? (l.reversedIf (chosen i)).second) =
        (part.indexOf? l.first != part.indexOf? l.second) := by
    intro l i
    refine Linkage.apply_reversedIf
      (f := fun l : Linkage => part.indexOf? l.first != part.indexOf? l.second) ?_ _
    exact bne_comm
  rw [crossing, activeLinkages_reverse, List.filter_map, List.map_map, crossing]
  simp only [Function.comp_def, same]

/-- The same uses conflict. -/
theorem conflictPairs_reverse (m : Machine) (uses : List UseId) :
    (p.reverse chosen).conflictPairs m uses = p.conflictPairs m uses := by
  induction uses with
  | nil => rfl
  | cons u uses ih =>
    rw [conflictPairs, conflictPairs, ih]
    rfl

/-- Separation finds the same parts and splits the same linkages. -/
theorem separate_reverse (m : Machine) (h : p.EndsInRange) (part : Partition) :
    (p.reverse chosen).separate m part =
      { p.separate m part with program := (p.separate m part).program.reverse chosen } := by
  have divided : (p.reverse chosen).divideSet m (linkCount (p.reverse chosen).linkedUses) =
      p.divideSet m (linkCount p.linkedUses) := by
    funext members
    rw [divideSet, divideSet, conflictPairs_reverse, linkedUses_reverse]
  have inRange : ∀ ids, (p.splitAll ids).EndsInRange := fun _ => h.mapStates _
  rw [separate, separate, divided]
  split
  · rfl
  · rw [crossing_reverse, splitAll_reverse]
    simp only [joinedSets_reverse (inRange _)]

end Program

/-! ## Groups and interference -/

/-- The same groups are formed. -/
theorem Groups.ofPartition_reverse (m : Machine) (p : Program) (chosen : LinkageId → Bool)
    (part : Partition) :
    Groups.ofPartition m (p.reverse chosen) part = Groups.ofPartition m p part :=
  rfl

/-- The span of a linkage is that of the reversed one. -/
theorem Program.span?_reversed (p : Program) (l : Linkage) : p.span? l.reversed = p.span? l := by
  rw [span?, span?, Linkage.reversed]
  cases p.position? l.first with
  | none => cases p.position? l.second <;> rfl
  | some a =>
    cases p.position? l.second with
    | none => rfl
    | some b =>
      show Span.between? b a = Span.between? a b
      rw [Span.between?, Span.between?, min_comm, max_comm]
      by_cases hblock : a.block = b.block
      · rw [if_pos hblock, if_pos hblock.symm, hblock]
      · rw [if_neg hblock, if_neg (Ne.symm hblock)]

/-- The ends of an active linkage are in one group, or in none, if they are both in memory or both in
play. -/
theorem Groups.Formed.ofUse?_first_eq {m : Machine} {p : Program} {groups : Groups}
    (h : groups.Formed m p) (hends : p.missingEnd? = none) {l : Linkage} {i : LinkageId}
    (hl : (l, i) ∈ p.activeLinkages) (hmemory : p.isInMemory l.first = p.isInMemory l.second) :
    groups.ofUse? l.first = groups.ofUse? l.second := by
  obtain ⟨hmem, hactive⟩ := Program.exists_mem_activeLinkages.mp ⟨i, hl⟩
  cases hfirst : p.isInMemory l.first with
  | false =>
    obtain ⟨g, hg, hg'⟩ := h.exists_ofUse?_ends hends hmem hactive hfirst (hmemory.symm.trans hfirst)
    rw [hg, hg']
  | true =>
    have without : ∀ {u}, p.isInMemory u = true → groups.ofUse? u = none := by
      intro u hu
      refine Option.not_isSome_iff_eq_none.mp fun hsome => ?_
      have inPlay := (Program.mem_usesInPlay.mp ((h.isSome_ofUse? u).mp hsome)).2
      rw [hu] at inPlay
      cases inPlay
    rw [without hfirst, without (hmemory.symm.trans hfirst)]

/-- The same groups interfere, for the same reasons. -/
theorem Interference.ofGroups_reverse {m : Machine} {p : Program} {groups : Groups}
    {chosen : LinkageId → Bool} (h : groups.Formed m p) (hends : p.missingEnd? = none)
    (hsettled : p.SettledOn chosen) :
    Interference.ofGroups (p.reverse chosen) groups = Interference.ofGroups p groups := by
  have same : ∀ x ∈ p.activeLinkages,
      encountersOf p groups (usesByBlock p groups) (x.1.reversedIf (chosen x.2)) x.2 =
        encountersOf p groups (usesByBlock p groups) x.1 x.2 := by
    rintro ⟨l, i⟩ hl
    cases hchosen : chosen i with
    | false => rfl
    | true =>
      obtain ⟨hget, hactive⟩ := Program.mem_activeLinkages.mp hl
      have hmemory := hsettled i l hget hchosen (Linkage.isBroken_of_isActive hactive)
      have owner : groups.ofUse? l.reversed.first = groups.ofUse? l.first :=
        (h.ofUse?_first_eq hends hl hmemory).symm
      show encountersOf p groups (usesByBlock p groups) l.reversed i = _
      rw [encountersOf, encountersOf, p.span?_reversed, owner]
  have all : encounters (p.reverse chosen) groups = encounters p groups := by
    show (p.reverse chosen).activeLinkages.flatMap (fun x =>
      encountersOf p groups (usesByBlock p groups) x.1 x.2) = _
    rw [Program.activeLinkages_reverse, List.flatMap_map, encounters, List.flatMap_def, List.flatMap_def,
      List.map_congr_left same]
  rw [ofGroups, all, ofGroups]

/-! ## One attempt -/

/-- An attempt on the reversed program comes to the same, and leaves the reversed program. -/
theorem Attempt.ofProgram_reverse {m : Machine} {p : Program} {chosen : LinkageId → Bool} {number : Nat}
    (h : p.EndsInRange) (hsettled : p.SettledOn chosen) :
    Attempt.ofProgram m (p.reverse chosen) number =
      ((Attempt.ofProgram m p number).1.reverse chosen, (Attempt.ofProgram m p number).2) := by
  have hreset : p.resetSplits.EndsInRange := h.mapStates _
  have hfault : ∀ {q : Program} (s : Separation), q.EndsInRange →
      q.joinFault?.or (s.fault? q) =
        if s.divided.any fun d => !d.division.inRange then some .weightOverflow else none := by
    intro q s hq
    have hmissing := Program.missingEnd?_eq_none hq
    rw [Program.joinFault?_eq_none hmissing, Option.none_or, Separation.fault?, hmissing]
    simp
  have hends := hreset.separate m p.resetSplits.joinedSets
  simp only [Attempt.ofProgram, Program.resetSplits_reverse, Program.joinedSets_reverse hreset,
    Program.separate_reverse m hreset, hfault _ hreset, hfault _ hreset.reverse,
    Groups.ofPartition_reverse, Program.missingEnd?_eq_none hends,
    Program.missingEnd?_eq_none hends.reverse]
  generalize hs : p.resetSplits.separate m p.resetSplits.joinedSets = s at hends ⊢
  by_cases hover : (s.divided.any fun d => !d.division.inRange) = true
  · simp only [if_pos hover]
  · simp only [if_neg hover]
    cases hgroups : Groups.ofPartition m s.program s.partition with
    | error cause => rfl
    | ok groups =>
      have formed : groups.Formed m s.program :=
        Groups.formed_of_ofPartition (hs ▸ Program.sortedBy_separate m p.resetSplits) hgroups
      have settled : s.program.SettledOn chosen := hs ▸ hsettled.resetSplits.separate m _
      simp only [Interference.ofGroups_reverse formed (Program.missingEnd?_eq_none hends) settled]
      rfl

/-! ## Whole runs -/

/-- A run with the chosen linkages reversed in all its programs. -/
def Run.reverse (run : Run) (chosen : LinkageId → Bool) : Run where
  rounds := run.rounds.map fun round => { round with start := round.start.reverse chosen }
  program := run.program.reverse chosen
  result := run.result

/-- The counters of a reversed run are those of the run. -/
theorem Run.tallies_reverse (run : Run) (chosen : LinkageId → Bool) :
    (run.reverse chosen).rounds.map Round.tally = run.rounds.map Round.tally := by
  rw [Run.reverse, List.map_map]
  rfl

/-- The run of the reversed program is the reversed run. -/
theorem allocateFrom_reverse {m : Machine} {settings : Settings} {limit remaining number : Nat}
    {p : Program} {chosen : LinkageId → Bool} (h : p.EndsInRange) (hsettled : p.SettledOn chosen) :
    allocateFrom m settings limit remaining number (p.reverse chosen) =
      (allocateFrom m settings limit remaining number p).reverse chosen := by
  fun_induction allocateFrom m settings limit remaining number p with
  | case1 number p => rfl
  | case2 remaining number p q e hattempt =>
    rw [allocateFrom, Attempt.ofProgram_reverse h hsettled, hattempt]
    rfl
  | case3 remaining number p q a hattempt t hcolored =>
    rw [allocateFrom, Attempt.ofProgram_reverse h hsettled, hattempt]
    show (if (a.trial m).uncolored.isEmpty = true then _ else _) = _
    rw [if_pos hcolored]
    rfl
  | case4 remaining number p q a hattempt t hcolored e hrevision =>
    have same : (a.trial m).revision m (q.reverse chosen) settings = .error e := hrevision
    rw [allocateFrom, Attempt.ofProgram_reverse h hsettled, hattempt]
    show (if (a.trial m).uncolored.isEmpty = true then _ else _) = _
    rw [if_neg hcolored, same]
    rfl
  | case5 remaining number p q a hattempt t hcolored r hrevision hempty =>
    have same : (a.trial m).revision m (q.reverse chosen) settings = .ok r := hrevision
    rw [allocateFrom, Attempt.ofProgram_reverse h hsettled, hattempt]
    show (if (a.trial m).uncolored.isEmpty = true then _ else _) = _
    rw [if_neg hcolored, same]
    simp only [if_pos hempty]
    rfl
  | case6 remaining number p q a hattempt t hcolored r hrevision hempty ih =>
    have same : (a.trial m).revision m (q.reverse chosen) settings = .ok r := hrevision
    have shape := (Attempt.sameShape_of_ofProgram hattempt).trans (.revise q t r)
    have hnext := ih (shape.endsInRange h) (Attempt.settledOn_ofProgram hattempt hsettled).revise
    rw [allocateFrom, Attempt.ofProgram_reverse h hsettled, hattempt]
    show (if (a.trial m).uncolored.isEmpty = true then _ else _) = _
    rw [if_neg hcolored, same]
    simp only [if_neg hempty, Program.revise_reverse]
    rw [hnext]
    rfl

/-- Allocation does not see the direction of linkages. When linkages are reversed, none of which, unless it
is broken for good, joins a use in memory and one that is not, then the allocation succeeds with the same
locations or fails for the same reason, it has the same counters in every attempt, and it leaves every linkage
in the same state and the same uses in memory. -/
theorem allocate_reverse (m : Machine) (settings : Settings) {p : Program} {chosen : LinkageId → Bool}
    (h : p.EndsInRange) (hsettled : p.SettledOn chosen) :
    let run := allocate m settings p
    let reversed := allocate m settings (p.reverse chosen)
    reversed.result = run.result ∧ reversed.rounds.map Round.tally = run.rounds.map Round.tally ∧
      reversed.program = run.program.reverse chosen ∧
      (∀ l : LinkageId, reversed.program.linkages[l]?.map Linkage.state =
        run.program.linkages[l]?.map Linkage.state) ∧
      reversed.program.uses = run.program.uses := by
  intro run reversed
  have limit : attemptsAllowed settings (p.reverse chosen) = attemptsAllowed settings p := by
    rw [attemptsAllowed, attemptsAllowed, Program.reverse, Array.size_mapIdx]
  have same : reversed = run.reverse chosen := by
    show allocate m settings (p.reverse chosen) = (allocate m settings p).reverse chosen
    rw [allocate, allocate, limit, allocateFrom_reverse h hsettled]
  rw [same]
  refine ⟨rfl, run.tallies_reverse chosen, rfl, fun l => ?_, rfl⟩
  show ((run.program.reverse chosen).linkages[l]?).map _ = _
  rw [Program.getElem?_linkages_reverse, Option.map_map]
  congr 1
  funext k
  exact k.state_reversedIf _

/-- When the first linkage of `contended` is reversed it is broken in the first attempt just the same, and the
uses get the same locations. -/
theorem allocate_reverse_contended :
    let settings : Settings := { spillUnallocatable := true }
    let reversed := allocate bytePairMachine settings (contended.reverse (· == 0))
    contended.EndsInRange ∧ contended.SettledOn (· == 0) ∧
      (contended.reverse (· == 0)).linkages = #[⟨1, 0, .active⟩, ⟨4, 5, .active⟩] ∧
      reversed.result = .ok #[.registers [0], .registers [0], .registers [2], .memory, .registers [0],
        .registers [0], .registers [1]] ∧
      reversed.program.linkages[0]?.map Linkage.state = some (.broken 1) := by
  intro settings reversed
  have inRange : contended.EndsInRange := by decide
  have settled : contended.SettledOn (· == 0) := Program.Settled.on (by decide) _
  obtain ⟨result, -, -, states, -⟩ := allocate_reverse bytePairMachine settings inRange settled
  refine ⟨inRange, settled, by decide, result.trans ?_, (states 0).trans ?_⟩
  · decide +kernel
  · decide +kernel

/-- A byte, a use of two words after it, and a byte between the two. -/
def interposed : Program where
  functions := #["f"]
  uses := #[
    ⟨0, .temp, 0, some 0, 1, some ⟨0, 0⟩, false⟩,
    ⟨0, .temp, 1, some 1, 2, some ⟨0, 5⟩, false⟩,
    ⟨0, .temp, 2, some 0, 1, some ⟨0, 3⟩, false⟩]

/-- The same after its allocation has moved the use of two words to memory, with a linkage to it from the
first byte. -/
def interposedInMemory : Program :=
  (allocate bytePairMachine { spillUnallocatable := true } interposed).program.withLinkage 0 1

/-- A linkage with one end in memory has a direction: its span keeps a register busy only if the end in play
is its first. On `interposedInMemory` the byte between the ends is kept from register 0 by the linkage, and
by the reversed linkage it is not. -/
theorem location_ne_of_reversed :
    interposedInMemory.EndsInRange ∧
      (allocate bytePairMachine {} interposedInMemory).result =
        .ok #[.registers [0], .memory, .registers [1]] ∧
      (allocate bytePairMachine {} (interposedInMemory.reverse fun _ => true)).result =
        .ok #[.registers [0], .memory, .registers [0]] := by
  refine ⟨by decide +kernel, by decide +kernel, by decide +kernel⟩

end RegisterColoring
