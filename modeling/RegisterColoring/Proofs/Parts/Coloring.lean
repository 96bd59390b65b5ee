import RegisterColoring.Proofs.Certainty
import RegisterColoring.Proofs.Parts.Groups

/-! # Ranks and colours of a part

Ranks of the whole are taken out across its parts, and when no group always fits, the one that lacks the
fewest registers is looked for among all groups. Still the groups of a part have their turns in the order
in which they have them in the part alone, and are given the same registers.

* `Groups.Shown`: some groups of the whole show groups of the part.
* `Groups.Embeds.shortfall_eq`: the groups that are left lack as many registers as in the part.
* `Groups.Shown.turns_rankWithin`: turns are in the order of the part.
* `Groups.Shown.colorInOrder`: registers are those of the part.
* `Attempt.shown_trial`: the same for a whole attempt. -/

namespace RegisterColoring

variable {m : Machine} {f : UseId → UseId} {h : LinkageId → LinkageId} {k : GroupId → GroupId}
  {small big : Groups} {inner outer : Interference}

/-! ## Groups that are shown -/

/-- Some groups of the whole show groups of the part. -/
abbrev Groups.Shown (k : GroupId → GroupId) : List GroupId → List GroupId → Prop :=
  Shows (fun x g => x = k g) fun x => ∀ g, x ≠ k g

/-- Groups of the part are in a list of the whole if what it shows has them. -/
theorem Groups.Shown.mem_iff {whole part : List GroupId} (hshown : Shown k whole part)
    (hk : Function.Injective k) {g : GroupId} : k g ∈ whole ↔ g ∈ part := by
  constructor
  · intro hg
    rcases Shows.of_mem_whole hshown hg with hhidden | ⟨g', hg', heq⟩
    · exact absurd rfl (hhidden g)
    · rwa [hk heq]
  · intro hg
    obtain ⟨_, hx, rfl⟩ := Shows.of_mem_part hshown hg
    exact hx

/-- All groups of the whole show all groups of the part. -/
theorem Groups.Embeds.shown_ids (hgroups : Embeds f k small big) : Shown k big.ids small.ids := by
  refine .of_sorted hgroups.mono List.pairwise_lt_range List.pairwise_lt_range ?_ ?_ ?_
  · rintro _ g - - rfl
    exact ⟨rfl, fun hhidden => hhidden g rfl⟩
  · intro x hx
    refine or_iff_not_imp_left.mpr fun hsome => ?_
    obtain ⟨g, hg⟩ := not_forall.mp hsome
    obtain rfl := not_not.mp hg
    exact ⟨g, List.mem_range.mpr ((hgroups.lt_iff g).mp (List.mem_range.mp hx)), rfl⟩
  · exact fun g hg => ⟨k g, List.mem_range.mpr ((hgroups.lt_iff g).mpr (List.mem_range.mp hg)), rfl⟩

/-! ## Ranks -/

section Ranks

variable (hgroups : Groups.Embeds f k small big) (hgraph : Interference.Embeds h k inner outer)
include hgroups hgraph

/-- Among the groups that are left, those of the part have the demands that they have in the part. -/
theorem Groups.Embeds.demandsAmong_eq {active' active : List GroupId} (hshown : Shown k active' active)
    (g : GroupId) : demandsAmong big outer active' (k g) = demandsAmong small inner active g := by
  have left : active'.contains ∘ k = active.contains := by
    funext n
    rw [Function.comp, Bool.eq_iff_iff, List.contains_iff_mem, List.contains_iff_mem,
      hshown.mem_iff hgroups.mono.injective]
  rw [demandsAmong, demandsAmong, hgraph.neighbors_eq, List.filter_map, left, List.map_map]
  refine List.map_congr_left fun n _ => ?_
  rw [Function.comp, hgroups.get_eq]
  rfl

/-- Under the pressure of the groups that are left, a group lacks as many registers as in the part. -/
theorem Groups.Embeds.shortfall_eq {active' active : List GroupId} {pressure' pressure : Pressure}
    (hshown : Shown k active' active) (hp' : pressure'.Right m big outer active')
    (hp : pressure.Right m small inner active) {g : GroupId} (hg : g ∈ active) :
    pressure'.shortfall m big (k g) = pressure.shortfall m small g := by
  have hg' : k g ∈ active' := (hshown.mem_iff hgroups.mono.injective).mpr hg
  rw [Pressure.shortfall, Pressure.shortfall, (hp'.isFrom (k g) hg').totalOn_eq,
    (hp.isFrom g hg).totalOn_eq, hgroups.demandsAmong_eq hgraph hshown, hgroups.get_eq]

/-- The next rank of the whole has no group of the part, or it shows the next rank of the part. -/
theorem Groups.Shown.nextRank {active' active : List GroupId} {pressure' pressure : Pressure}
    (hshown : Shown k active' active) (hp' : pressure'.Right m big outer active')
    (hp : pressure.Right m small inner active) (hactive : active' ≠ []) :
    Shown k (nextRank m big pressure' active').groups [] ∨
      active ≠ [] ∧ Shown k (nextRank m big pressure' active').groups
        (nextRank m small pressure active).groups := by
  have same : ∀ g ∈ active, pressure'.shortfall m big (k g) = pressure.shortfall m small g :=
    fun g hg => hgroups.shortfall_eq hgraph hshown hp' hp hg
  have fitting : Shown k (active'.filter (pressure'.alwaysFits m big))
      (active.filter (pressure.alwaysFits m small)) := by
    refine Shows.filter hshown ?_
    rintro _ g rfl - hg
    rw [Pressure.alwaysFits, Pressure.alwaysFits, same g hg]
  by_cases hnone' : active'.filter (pressure'.alwaysFits m big) = []
  · -- in hope only one group is taken out, from the part or from elsewhere
    rw [hnone'] at fitting
    have hnone : active.filter (pressure.alwaysFits m small) = [] := Shows.eq_nil fitting
    obtain ⟨x, hx⟩ := exists_leastBy? (fun a b =>
      decide (pressure'.shortfall m big a < pressure'.shortfall m big b)) hactive
    have nearer : ∀ x g x' g', g ∈ active → g' ∈ active → x = k g → x' = k g' →
        decide (pressure'.shortfall m big x < pressure'.shortfall m big x') =
          decide (pressure.shortfall m small g < pressure.shortfall m small g') := by
      rintro _ g _ g' hg hg' rfl rfl
      rw [same g hg, same g' hg']
    rw [nextRank_groups_of_none hnone', hx]
    rcases Shows.leastBy? (by simpa using fun _ _ => Int.le_of_lt)
        (by simpa using fun _ _ _ => Int.le_trans) hshown nearer hx with hhidden | ⟨g, rfl, hg⟩
    · exact .inl (.miss hhidden .nil)
    · refine .inr ⟨List.ne_nil_of_mem (leastBy?_mem hg), ?_⟩
      rw [nextRank_groups_of_none hnone, hg]
      exact .hit rfl .nil
  · rw [nextRank_groups_of_fitting hnone']
    by_cases hnone : active.filter (pressure.alwaysFits m small) = []
    · rw [hnone] at fitting
      exact .inl fitting
    · rw [nextRank_groups_of_fitting hnone]
      exact .inr ⟨fun hnil => hnone (by rw [hnil]; rfl), fitting⟩

/-- The groups of the part have their turns in the order in which they have them in the part alone. -/
theorem Groups.Shown.turns_rankWithin (hm : m.Consistent) (hinner : inner.Simple) (houter : outer.Simple)
    {steps' steps : Nat} {active' active : List GroupId} {pressure' pressure : Pressure}
    {taken' taken : Nat} {marks' marks : Array Mark}
    (hshown : Shown k active' active) (hp' : pressure'.Right m big outer active')
    (hp : pressure.Right m small inner active) (hlength' : active'.length ≤ steps')
    (hlength : active.length ≤ steps) :
    Shown k (turns (rankWithin m big outer steps' active' pressure' taken' marks').groupRanks)
      (turns (rankWithin m small inner steps active pressure taken marks).groupRanks) := by
  induction steps' generalizing steps active' active pressure' pressure taken' taken marks' marks with
  | zero =>
    obtain rfl := List.length_eq_zero_iff.mp (Nat.le_zero.mp hlength')
    rw [Shows.eq_nil hshown, rankWithin_nil, rankWithin_nil]
    exact .nil
  | succ steps' ih =>
    by_cases hactive : active' = []
    · subst hactive
      rw [Shows.eq_nil hshown, rankWithin_nil, rankWithin_nil]
      exact .nil
    have fewer' : (leftAfter m big pressure' active').length ≤ steps' :=
      Nat.le_of_lt_succ (Nat.lt_of_lt_of_le (length_leftAfter_lt hactive) hlength')
    rw [rankWithin_succ hactive, Ranking.groupRanks_after, turns_cons]
    rcases hshown.nextRank hgroups hgraph hp' hp hactive with hnone | ⟨hne, hrank⟩
    · -- the part waits for a rank that has one of its groups
      have waits : Shown k (leftAfter m big pressure' active') active := by
        rw [← List.filter_true active]
        refine Shows.filter hshown ?_
        rintro _ g rfl - -
        rw [Bool.not_eq_true', ← Bool.not_eq_true, List.contains_iff_mem,
          hnone.mem_iff hgroups.mono.injective]
        exact List.not_mem_nil
      rw [← List.append_nil (turns (rankWithin m small inner steps active pressure taken marks).groupRanks)]
      exact (ih waits (hp'.next hm houter) hp fewer' hlength).append hnone
    · -- the part takes out its next rank at the same time
      obtain ⟨steps, rfl⟩ : ∃ n, steps = n + 1 :=
        Nat.exists_eq_succ_of_ne_zero fun hzero =>
          hne (List.length_eq_zero_iff.mp (Nat.le_zero.mp (hzero ▸ hlength)))
      have fewer : (leftAfter m small pressure active).length ≤ steps :=
        Nat.le_of_lt_succ (Nat.lt_of_lt_of_le (length_leftAfter_lt hne) hlength)
      rw [rankWithin_succ hne, Ranking.groupRanks_after, turns_cons]
      have left : Shown k (leftAfter m big pressure' active') (leftAfter m small pressure active) := by
        refine Shows.filter hshown ?_
        rintro _ g rfl - -
        rw [Bool.eq_iff_iff, Bool.not_eq_true', Bool.not_eq_true', ← Bool.not_eq_true, ← Bool.not_eq_true,
          List.contains_iff_mem, List.contains_iff_mem, hrank.mem_iff hgroups.mono.injective]
      exact (ih left (hp'.next hm houter) (hp.next hm hinner) fewer' fewer).append hrank

end Ranks

/-! ## Registers -/

/-- Groups of the part hold the registers that they hold in the part alone. -/
structure Assignment.Embeds (k : GroupId → GroupId) (a a' : Assignment) : Prop where
  /-- They hold the same registers. -/
  heldBy_eq : ∀ g, a'.heldBy (k g) = a.heldBy g
  /-- They can hold registers in the part if they can in the whole. -/
  lt_iff : ∀ g, k g < a'.size ↔ g < a.size

namespace Assignment.Embeds

variable {a a' : Assignment}

/-- At first no group holds registers. -/
theorem none (hgroups : Groups.Embeds f k small big) :
    Assignment.Embeds k (.none small) (.none big) where
  heldBy_eq g := by rw [heldBy_none, heldBy_none]
  lt_iff g := by
    rw [Assignment.none, Assignment.none, Array.size_replicate, Array.size_replicate]
    exact hgroups.lt_iff g

/-- Giving the same registers to a group in the part and in the whole. -/
theorem give (ha : Embeds k a a') (hk : Function.Injective k) (g : GroupId) (rs : List RegisterId) :
    Embeds k (a.give g rs) (a'.give (k g) rs) where
  heldBy_eq x := by simp only [heldBy_give, ha.heldBy_eq, ha.lt_iff, hk.eq_iff]
  lt_iff x := by
    rw [size_give, size_give]
    exact ha.lt_iff x

/-- Giving registers to a group that is not of the part. -/
theorem give_hidden (ha : Embeds k a a') {x : GroupId} (hx : ∀ g, x ≠ k g) (rs : List RegisterId) :
    Embeds k a (a'.give x rs) where
  heldBy_eq g := by
    rw [heldBy_give, if_neg fun heq => hx g heq.1]
    exact ha.heldBy_eq g
  lt_iff g := by
    rw [size_give]
    exact ha.lt_iff g

end Assignment.Embeds

section Registers

variable (hgroups : Groups.Embeds f k small big) (hgraph : Interference.Embeds h k inner outer)
  {a a' : Assignment}
include hgraph

/-- The neighbours of a group of the part block the same registers. -/
theorem Assignment.Embeds.blockedFor_eq (ha : Assignment.Embeds k a a') (g : GroupId) :
    blockedFor m outer a' (k g) = blockedFor m inner a g := by
  rw [blockedFor, blockedFor, hgraph.neighbors_eq, List.flatMap_map]
  exact congrArg m.aliasesOfAll (List.flatMap_congr fun n _ => ha.heldBy_eq n)

include hgroups

/-- A group of the part is given the registers that it is given in the part alone. -/
theorem Assignment.Embeds.registersFor?_eq (ha : Assignment.Embeds k a a') (g : GroupId) :
    registersFor? m big outer a' (k g) = registersFor? m small inner a g := by
  -- the neighbours that wait have the same class and as many registers, and the same are blocked for them
  have waiting : waitingNeighbors m big outer a' (k g) = waitingNeighbors m small inner a g := by
    have same : (fun n => (a'.heldBy n).isEmpty) ∘ k = fun n => (a.heldBy n).isEmpty :=
      funext fun n => congrArg List.isEmpty (ha.heldBy_eq n)
    rw [waitingNeighbors, waitingNeighbors, hgraph.neighbors_eq, List.filter_map, same, List.map_map]
    refine List.map_congr_left fun n _ => ?_
    rw [Function.comp, hgroups.get_eq, ha.blockedFor_eq hgraph]
  rw [registersFor?, registersFor?, waiting, ha.blockedFor_eq hgraph, hgroups.get_eq]

/-- When turns are in the order of the part, its groups are given the same registers, and the same groups
go without. -/
theorem Groups.Shown.colorInOrder {order' order : List GroupId} (hshown : Shown k order' order)
    (ha : Assignment.Embeds k a a') :
    Assignment.Embeds k (colorInOrder m small inner order a).assignment
        (colorInOrder m big outer order' a').assignment ∧
      Shown k (RegisterColoring.colorInOrder m big outer order' a').uncolored
        (RegisterColoring.colorInOrder m small inner order a).uncolored := by
  induction hshown generalizing a a' with
  | nil => exact ⟨ha, .nil⟩
  | @hit x g order' order hx _ ih =>
    obtain rfl := hx
    rw [RegisterColoring.colorInOrder, RegisterColoring.colorInOrder, ha.registersFor?_eq hgroups hgraph]
    cases registersFor? m small inner a g with
    | none =>
      obtain ⟨hassignment, huncolored⟩ := ih ha
      exact ⟨hassignment, .hit rfl huncolored⟩
    | some rs => exact ih (ha.give hgroups.mono.injective g rs)
  | @miss x order' order hx _ ih =>
    rw [RegisterColoring.colorInOrder]
    cases registersFor? m big outer a' x with
    | none =>
      obtain ⟨hassignment, huncolored⟩ := ih ha
      exact ⟨hassignment, .miss hx huncolored⟩
    | some rs => exact ih (ha.give_hidden hx rs)

end Registers

/-! ## Attempts -/

/-- In an attempt on the whole, the groups of the part are given the registers that they are given in an
attempt on the part, and the same groups go without. -/
theorem Attempt.shown_trial {q p : Program} {small big : Attempt} (hm : m.Consistent)
    (e : Program.Embeds f h q p) (hgroups : Groups.Embeds f k small.groups big.groups)
    (hsmall : small.graph = .ofGroups q small.groups) (hbig : big.graph = .ofGroups p big.groups) :
    Assignment.Embeds k (small.trial m).coloring.assignment (big.trial m).coloring.assignment ∧
      Groups.Shown k (big.trial m).uncolored (small.trial m).uncolored := by
  have hgraph := e.graph hgroups
  have hturns : Groups.Shown k
      (turns (Ranking.ofPressure m big.groups (.ofGroups p big.groups)
        (.ofGroups m big.groups (.ofGroups p big.groups))).groupRanks)
      (turns (Ranking.ofPressure m small.groups (.ofGroups q small.groups)
        (.ofGroups m small.groups (.ofGroups q small.groups))).groupRanks) :=
    hgroups.shown_ids.turns_rankWithin hgroups hgraph hm
      (Interference.simple_ofGroups q small.groups) (Interference.simple_ofGroups p big.groups)
      (Pressure.right_ofGroups p big.groups) (Pressure.right_ofGroups q small.groups)
      (Nat.le_of_eq List.length_range) (Nat.le_of_eq List.length_range)
  rw [Trial.uncolored, Trial.uncolored, Attempt.trial, Attempt.trial, hsmall, hbig]
  exact hturns.colorInOrder hgroups hgraph (.none hgroups)

end RegisterColoring
