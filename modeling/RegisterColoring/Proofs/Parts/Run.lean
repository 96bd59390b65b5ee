import RegisterColoring.Proofs.Legality
import RegisterColoring.Proofs.Parts.Revision
import RegisterColoring.Proofs.Progress

/-! # Runs on a program made of two parts

One attempt on the whole does to each part what an attempt on the part does. A part that is done is done
again in the same way, and waits in this way for the other.

* `Attempt.Embeds`: an attempt on a part within an attempt on the whole.
* `Succeeds`: an allocation succeeds after so many attempts.
* `Program.Composed`: a program is made of two parts.
* `Program.Composed.succeeds`: if both parts succeed, the whole does, with the attempts of the slower one. -/

namespace RegisterColoring

variable {m : Machine} {settings : Settings} {f f' : UseId → UseId} {h h' : LinkageId → LinkageId}
  {k k' : GroupId → GroupId} {q q' p : Program} {number : Nat}

/-! ## Attempts -/

/-- An attempt on a part within an attempt on the whole. -/
structure Attempt.Embeds (f : UseId → UseId) (h : LinkageId → LinkageId) (k : GroupId → GroupId)
    (q p : Program) (a b : Attempt) : Prop where
  /-- They work on a part and the whole. -/
  program : Program.Embeds f h q p
  /-- The groups of the part are groups of the whole. -/
  groups : Groups.Embeds f k a.groups b.groups
  /-- The graph of the part is that of its groups. -/
  graph_eq : a.graph = .ofGroups q a.groups
  /-- The graph of the whole is that of its groups. -/
  graph_eq' : b.graph = .ofGroups p b.groups
  /-- They have one number. -/
  number_eq : b.number = a.number
  /-- A use is in the group that has it. -/
  members : ∀ x v, x < b.groups.size → v ∈ (b.groups.get x).members → b.groups.ofUse? v = some x

/-- An attempt on the whole of a settled program does with a part what an attempt on the part does. -/
theorem Program.Embeds.exists_attempt (e : Embeds f h q p) (hsettled : p.Settled) (hends : p.EndsInRange)
    {s w : Program} {a b : Attempt} (hq : Attempt.ofProgram m q number = (s, .ok a))
    (hp : Attempt.ofProgram m p number = (w, .ok b)) : ∃ k, Attempt.Embeds f h k s w a b := by
  obtain ⟨hsound, hnumber, hs⟩ := Attempt.sound_of_ofProgram hq
  obtain ⟨hsound', hnumber', hw⟩ := Attempt.sound_of_ofProgram hp
  have hbig := Attempt.ofPartition_of_ofProgram hp
  have hreset : p.resetSplits.EndsInRange := hends.mapStates _
  have separated := e.resetSplits.separate hsettled.resetSplits hreset (m := m)
  have hjoins := joins_separate m p.resetSplits
  obtain ⟨k, hk⟩ := separated.exists_groups (hreset.separate m _) hjoins (joins_separate m q.resetSplits)
    hbig (Attempt.ofPartition_of_ofProgram hq)
  rw [← hs, ← hw] at separated
  exact ⟨k, separated, hk, hsound.graph_eq, hsound'.graph_eq, hnumber'.trans hnumber.symm,
    fun x v hx hv => (Groups.ofUse?_eq_some_iff hjoins hbig).mpr ⟨hx, hv⟩⟩

namespace Attempt.Embeds

variable {a a' b : Attempt}

/-- The graph of the part is in that of the whole. -/
theorem graph (ha : Embeds f h k q p a b) : Interference.Embeds h k a.graph b.graph := by
  rw [ha.graph_eq, ha.graph_eq']
  exact ha.program.graph ha.groups

/-- The groups of the part are given the registers that they are given in the part, and the same groups go
without. -/
theorem trial (hm : m.Consistent) (ha : Embeds f h k q p a b) :
    Assignment.Embeds k (a.trial m).coloring.assignment (b.trial m).coloring.assignment ∧
      Groups.Shown k (b.trial m).uncolored (a.trial m).uncolored :=
  shown_trial hm ha.program ha.groups ha.graph_eq ha.graph_eq'

/-- The uses of the part are given the locations that they are given in the part. -/
theorem locationOf_eq (hm : m.Consistent) (ha : Embeds f h k q p a b) (hq : a.groups.Formed m q)
    (hp : b.groups.Formed m p) (u : UseId) :
    locationOf (locations p b.groups (b.trial m).coloring.assignment) (f u) =
      locationOf (locations q a.groups (a.trial m).coloring.assignment) u := by
  rw [locationOf_locations hp, locationOf_locations hq, ha.groups.ofUse?_eq]
  cases a.groups.ofUse? u with
  | none => rw [Option.map_none, Option.elim_none, Option.elim_none]
  | some g => rw [Option.map_some, Option.elim_some, Option.elim_some, (ha.trial hm).1.heldBy_eq]

/-- The revision of the whole keeps the part a part. -/
theorem revise (hm : m.Consistent) (ha : Embeds f h k q p a b) {r r' : Revision}
    (hr : (a.trial m).revision m q settings = .ok r) (hr' : (b.trial m).revision m p settings = .ok r') :
    Program.Embeds f h (q.revise (a.trial m) r) (p.revise (b.trial m) r') := by
  obtain ⟨hassignment, hshown⟩ := ha.trial hm
  have revised : r.Embeds h k r' :=
    Revision.embeds_of_choose ha.groups ha.graph ha.program.linkages_mono hassignment hshown hr' hr
  refine ha.program.revise ha.number_eq revised.mem_cuts_iff fun u => ?_
  exact revised.mem_movedUses_iff ha.groups ha.program.uses_mono.injective
    (fun x hx => (Revision.of_mem_evicted hr' hx).1) ha.members u

/-- When two parts have all uses, every group is of one of them. -/
theorem exists_group (ha : Embeds f h k q p a b) (ha' : Embeds f' h' k' q' p a' b)
    (hformed : b.groups.Formed m p)
    (hcovered : ∀ v, v < p.uses.size → (∃ u, v = f u) ∨ ∃ u, v = f' u) {x : GroupId}
    (hx : x < b.groups.size) : (∃ g, x = k g) ∨ ∃ g, x = k' g := by
  -- a group has a use, and belongs to the part that has this use
  obtain ⟨v, hv⟩ := List.exists_mem_of_ne_nil _ (hformed.members_ne_nil x hx)
  have hgroup := ha.members x v hx hv
  rcases hcovered v (Program.mem_usesInPlay.mp (hformed.members_subset x hx v hv)).1 with
    ⟨u, rfl⟩ | ⟨u, rfl⟩
  · rw [ha.groups.ofUse?_eq] at hgroup
    obtain ⟨g, -, rfl⟩ := Option.map_eq_some_iff.mp hgroup
    exact .inl ⟨g, rfl⟩
  · rw [ha'.groups.ofUse?_eq] at hgroup
    obtain ⟨g, -, rfl⟩ := Option.map_eq_some_iff.mp hgroup
    exact .inr ⟨g, rfl⟩

section Two

variable (hm : m.Consistent) (ha : Embeds f h k q p a b) (ha' : Embeds f' h' k' q' p a' b)
  (hgroup : ∀ x, x < b.groups.size → (∃ g, x = k g) ∨ ∃ g, x = k' g)
include hm ha ha' hgroup

/-- No group of the whole goes without if and only if none of either part does. -/
theorem uncolored_eq_nil_iff : (b.trial m).uncolored = [] ↔
    (a.trial m).uncolored = [] ∧ (a'.trial m).uncolored = [] := by
  have hshown := (ha.trial hm).2
  have hshown' := (ha'.trial hm).2
  constructor
  · intro hnil
    rw [hnil] at hshown hshown'
    exact ⟨hshown.eq_nil, hshown'.eq_nil⟩
  · rintro ⟨hnil, hnil'⟩
    rw [List.eq_nil_iff_forall_not_mem]
    intro x hx
    rcases hgroup x (lt_of_mem_uncolored hx) with ⟨g, rfl⟩ | ⟨g, rfl⟩
    · rw [hshown.mem_iff ha.groups.mono.injective, hnil] at hx
      cases hx
    · rw [hshown'.mem_iff ha'.groups.mono.injective, hnil'] at hx
      cases hx

/-- A revision can be chosen for the whole if one can be chosen for each part. -/
theorem exists_revision {r r' : Revision} (hr : (a.trial m).revision m q settings = .ok r)
    (hr' : (a'.trial m).revision m q' settings = .ok r') :
    ∃ r, (b.trial m).revision m p settings = .ok r := by
  obtain ⟨hassignment, hshown⟩ := ha.trial hm
  obtain ⟨hassignment', hshown'⟩ := ha'.trial hm
  refine Revision.exists_choose fun n hn => ?_
  obtain ⟨x, hx, rfl⟩ := List.mem_map.mp hn
  rcases hgroup x (lt_of_mem_uncolored hx) with ⟨g, rfl⟩ | ⟨g, rfl⟩
  · exact Revision.of_choose ha.groups ha.graph ha.program.linkages_mono hassignment hshown hr hx
  · exact Revision.of_choose ha'.groups ha'.graph ha'.program.linkages_mono hassignment' hshown' hr' hx

end Two

end Attempt.Embeds

/-! ## Runs that succeed -/

/-- Allocation from a program, the next attempt at which has the given number, succeeds after so many
attempts. It leaves a program, with a location for every use. -/
inductive Succeeds (m : Machine) (settings : Settings) :
    Nat → Program → Nat → Program → Array Location → Prop
  /-- No group goes without. -/
  | now {number : Nat} {p q : Program} {a : Attempt} :
      Attempt.ofProgram m p number = (q, .ok a) → (a.trial m).uncolored = [] →
      Succeeds m settings number p 1 q (locations q a.groups (a.trial m).coloring.assignment)
  /-- Some groups go without, and a revision leads to success. -/
  | later {number n : Nat} {p q left : Program} {a : Attempt} {r : Revision} {ls : Array Location} :
      Attempt.ofProgram m p number = (q, .ok a) → (a.trial m).uncolored ≠ [] →
      (a.trial m).revision m q settings = .ok r →
      Succeeds m settings (number + 1) (q.revise (a.trial m) r) n left ls →
      Succeeds m settings number p (n + 1) left ls

namespace Succeeds

variable {n : Nat} {left : Program} {ls : Array Location}

/-- Success takes at least one attempt. -/
theorem pos (hs : Succeeds m settings number p n left ls) : 0 < n := by
  cases hs with
  | now => exact Nat.one_pos
  | later => exact Nat.succ_pos _

/-- Allocation keeps the shape of a program. -/
theorem sameShape (hs : Succeeds m settings number p n left ls) : p.SameShape left := by
  induction hs with
  | now hattempt _ => exact Attempt.sameShape_of_ofProgram hattempt
  | later hattempt _ _ _ ih =>
    exact ((Attempt.sameShape_of_ofProgram hattempt).trans (.revise _ _ _)).trans ih

/-- A run with a result succeeds, after as many attempts as it has rounds. -/
theorem of_allocateFrom {limit remaining : Nat}
    (hresult : (allocateFrom m settings limit remaining number p).result = .ok ls) :
    Succeeds m settings number p (allocateFrom m settings limit remaining number p).rounds.length
      (allocateFrom m settings limit remaining number p).program ls := by
  fun_induction allocateFrom m settings limit remaining number p with
  | case1 number p => cases hresult
  | case2 remaining number p q e hattempt => cases hresult
  | case3 remaining number p q a hattempt t hcolored =>
    cases hresult
    exact .now hattempt (List.isEmpty_iff.mp hcolored)
  | case4 remaining number p q a hattempt t hcolored e hrevision => cases hresult
  | case5 remaining number p q a hattempt t hcolored r hrevision hempty => cases hresult
  | case6 remaining number p q a hattempt t hcolored r hrevision hempty ih =>
    exact .later hattempt (fun hnil => hcolored (List.isEmpty_iff.mpr hnil)) hrevision (ih hresult)

/-- What succeeds is the result of a run that is allowed as many attempts. -/
theorem allocateFrom_eq (hs : Succeeds m settings number p n left ls) {limit remaining : Nat}
    (hn : n ≤ remaining) :
    (allocateFrom m settings limit remaining number p).result = .ok ls ∧
      (allocateFrom m settings limit remaining number p).program = left ∧
      (allocateFrom m settings limit remaining number p).rounds.length = n := by
  induction hs generalizing remaining with
  | @now number p q a hattempt hcolored =>
    obtain ⟨remaining, rfl⟩ := Nat.exists_eq_add_of_le' hn
    rw [allocateFrom, hattempt]
    simp only [hcolored, List.isEmpty_nil, if_true, List.length_singleton, and_self]
  | @later number n p q left a r ls hattempt hne hrevision _ ih =>
    obtain ⟨remaining, rfl⟩ : ∃ left, remaining = left + 1 :=
      Nat.exists_eq_succ_of_ne_zero (Nat.ne_zero_of_lt hn)
    have hcolored : ¬(a.trial m).uncolored.isEmpty = true := fun hempty => hne (List.isEmpty_iff.mp hempty)
    have hempty := Revision.isEmpty_eq_false (Attempt.sound_of_ofProgram hattempt).1 hrevision hcolored
    obtain ⟨hresult, hprogram, hlength⟩ := ih (Nat.le_of_succ_le_succ hn)
    rw [allocateFrom, hattempt]
    simp only [hcolored, hrevision, hempty, if_false, Bool.false_eq_true]
    refine ⟨hresult, hprogram, ?_⟩
    rw [Run.after, List.length_cons, hlength]

/-- An allocation with a result succeeds. -/
theorem of_allocate {rounds : List Round} (h : allocate m settings p = ⟨rounds, left, .ok ls⟩) :
    Succeeds m settings 1 p rounds.length left ls := by
  rw [allocate] at h
  have hs := of_allocateFrom (congrArg Run.result h)
  rwa [h] at hs

/-- What succeeds within the attempts that are allowed is the result of an allocation. -/
theorem allocate_eq (hs : Succeeds m settings 1 p n left ls) (hn : n ≤ attemptsAllowed settings p) :
    ∃ rounds, allocate m settings p = ⟨rounds, left, .ok ls⟩ ∧ rounds.length = n := by
  obtain ⟨hresult, hprogram, hlength⟩ : (allocate m settings p).result = .ok ls ∧
      (allocate m settings p).program = left ∧ (allocate m settings p).rounds.length = n :=
    hs.allocateFrom_eq hn
  refine ⟨(allocate m settings p).rounds, ?_, hlength⟩
  rw [← hprogram]
  exact Run.eq_of_result hresult

/-- What succeeded with its first attempt succeeds again from what it left, in the same way. -/
theorem again (hs : Succeeds m settings number p 1 left ls) (number' : Nat) :
    Succeeds m settings number' left 1 left ls := by
  generalize hone : 1 = n at hs
  cases hs with
  | @now _ _ _ a hattempt hcolored =>
    -- what was split is reset before the next attempt, which differs in its number only
    have hreset : left.resetSplits = p.resetSplits := by
      rw [(Attempt.sound_of_ofProgram hattempt).2.2]
      exact Program.resetSplits_separate m p _
    rw [← Attempt.coloring_trial m a number']
    rw [Trial.uncolored, ← Attempt.coloring_trial m a number'] at hcolored
    exact .now (a := { a with number := number' }) (Attempt.ofProgram_congr hreset number' hattempt)
      hcolored
  | later _ _ _ hs =>
    have := hs.pos
    omega

/-- One attempt of a run that succeeds. If no group goes without, an empty revision is chosen, and the run
goes on with attempts that change nothing. -/
theorem step (hs : Succeeds m settings number p n left ls) :
    ∃ q a r, Attempt.ofProgram m p number = (q, .ok a) ∧ (a.trial m).revision m q settings = .ok r ∧
      ((a.trial m).uncolored = [] ↔ n = 1) ∧
      (n = 1 → left = q ∧ ls = locations q a.groups (a.trial m).coloring.assignment) ∧
      Succeeds m settings (number + 1) (q.revise (a.trial m) r) (max 1 (n - 1)) left ls := by
  cases hs with
  | @now _ _ _ a hattempt hcolored =>
    have hrevision : (a.trial m).revision m left settings = .ok ⟨[], []⟩ := by
      rw [Trial.revision, hcolored, Revision.choose_nil]
    refine ⟨left, a, ⟨[], []⟩, hattempt, hrevision, iff_of_true hcolored rfl, fun _ => ⟨rfl, rfl⟩, ?_⟩
    rw [Program.revise_of_empty rfl rfl]
    exact (now hattempt hcolored).again (number + 1)
  | @later _ n _ q _ a r _ hattempt hne hrevision hs =>
    have hpos := hs.pos
    refine ⟨q, a, r, hattempt, hrevision, iff_of_false hne (by omega), by omega, ?_⟩
    rwa [Nat.add_sub_cancel, Nat.max_eq_right hpos]

end Succeeds

/-! ## Programs made of two parts -/

namespace Program

/-- A settled program is made of two parts. -/
structure Composed (f : UseId → UseId) (h : LinkageId → LinkageId) (f' : UseId → UseId)
    (h' : LinkageId → LinkageId) (q q' p : Program) : Prop where
  /-- The one part. -/
  left : Embeds f h q p
  /-- The other part. -/
  right : Embeds f' h' q' p
  /-- Every use is in one of them. -/
  covered : ∀ v, v < p.uses.size → (∃ u, v = f u) ∨ ∃ u, v = f' u
  /-- The program is settled. -/
  settled : p.Settled
  /-- Its linkages join uses of it. -/
  ends : p.EndsInRange
  /-- Its linkages can be counted in 32 bits. -/
  countable : p.linkages.size < 2 ^ 32

namespace Composed

variable {s s' w : Program} {a a' b : Attempt}

/-- When attempts on both parts get as far as their groups, one on the whole does. -/
theorem exists_attempt (c : Composed f h f' h' q q' p)
    (hq : Attempt.ofProgram m q number = (s, .ok a)) (hq' : Attempt.ofProgram m q' number = (s', .ok a')) :
    ∃ w b, Attempt.ofProgram m p number = (w, .ok b) := by
  have hreset : p.resetSplits.EndsInRange := c.ends.mapStates _
  obtain ⟨big, hbig⟩ := Groups.exists_of_cover
    (c.left.resetSplits.separate c.settled.resetSplits hreset)
    (c.right.resetSplits.separate c.settled.resetSplits hreset) (hreset.separate m _)
    (by rw [uses_separate]; exact c.covered) (joins_separate m p.resetSplits)
    (joins_separate m q.resetSplits) (joins_separate m q'.resetSplits)
    (Attempt.ofPartition_of_ofProgram hq) (Attempt.ofPartition_of_ofProgram hq')
  rw [Attempt.ofProgram_eq c.ends c.countable]
  simp only [hbig]
  exact ⟨_, _, rfl⟩

/-- A program stays composed when it keeps its shape and its parts stay parts of it. -/
theorem congr (c : Composed f h f' h' q q' p) (hshape : p.SameShape w) (hsettled : w.Settled)
    (hleft : Embeds f h s w) (hright : Embeds f' h' s' w) : Composed f h f' h' s s' w where
  left := hleft
  right := hright
  covered := by
    rw [hshape.size_uses]
    exact c.covered
  settled := hsettled
  ends := hshape.endsInRange c.ends
  countable := by
    rw [hshape.size_linkages]
    exact c.countable

/-- If the allocations of both parts succeed, that of the whole does. It takes as many attempts as the
slower part, leaves of each part what its own allocation leaves, and gives the same locations. -/
theorem succeeds (hm : m.Consistent) (c : Composed f h f' h' q q' p) {n n' : Nat} {left left' : Program}
    {ls ls' : Array Location} (hq : Succeeds m settings number q n left ls)
    (hq' : Succeeds m settings number q' n' left' ls') :
    ∃ whole ls'', Succeeds m settings number p (max n n') whole ls'' ∧ Embeds f h left whole ∧
      Embeds f' h' left' whole ∧ (∀ u, locationOf ls'' (f u) = locationOf ls u) ∧
      ∀ u, locationOf ls'' (f' u) = locationOf ls' u := by
  -- the induction is on the attempts that the slower part still has to make
  induction hmax : max n n' using Nat.strongRecOn generalizing number q q' p n n' with
  | ind total ih =>
    subst hmax
    obtain ⟨s, a, r, hattempt, hrevision, hcolored, hfinal, hnext⟩ := hq.step
    obtain ⟨s', a', r', hattempt', hrevision', hcolored', hfinal', hnext'⟩ := hq'.step
    obtain ⟨w, b, hb⟩ := c.exists_attempt hattempt hattempt'
    obtain ⟨k, ha⟩ := c.left.exists_attempt c.settled c.ends hattempt hb
    obtain ⟨k', ha'⟩ := c.right.exists_attempt c.settled c.ends hattempt' hb
    have split := c.congr (Attempt.sameShape_of_ofProgram hb) (Attempt.settled_ofProgram hb c.settled)
      ha.program ha'.program
    have hformed := (Attempt.sound_of_ofProgram hb).1.formed
    have hgroup : ∀ x, x < b.groups.size → (∃ g, x = k g) ∨ ∃ g, x = k' g :=
      fun x hx => ha.exists_group ha' hformed split.covered hx
    have hdone := ha.uncolored_eq_nil_iff hm ha' hgroup
    rw [hcolored, hcolored'] at hdone
    by_cases hnil : (b.trial m).uncolored = []
    · -- both parts are done
      obtain ⟨rfl, rfl⟩ := hdone.mp hnil
      obtain ⟨rfl, rfl⟩ := hfinal rfl
      obtain ⟨rfl, rfl⟩ := hfinal' rfl
      refine ⟨w, _, .now hb hnil, ha.program, ha'.program, ?_, ?_⟩
      · exact ha.locationOf_eq hm (Attempt.sound_of_ofProgram hattempt).1.formed hformed
      · exact ha'.locationOf_eq hm (Attempt.sound_of_ofProgram hattempt').1.formed hformed
    · -- a part that is done is not changed by the revision, and is done again
      obtain ⟨r'', hrevision''⟩ := ha.exists_revision hm ha' hgroup hrevision hrevision'
      have next := split.congr (.revise w (b.trial m) r'') split.settled.revise
        (ha.revise hm hrevision hrevision'') (ha'.revise hm hrevision' hrevision'')
      have hpos := hq.pos
      have hpos' := hq'.pos
      have fewer : max n n' = max (max 1 (n - 1)) (max 1 (n' - 1)) + 1 := by
        have := mt hdone.mpr hnil
        omega
      obtain ⟨whole, ls'', hwhole, hrest⟩ := ih _ (by omega) next hnext hnext' rfl
      exact ⟨whole, ls'', fewer ▸ .later hb hnil hrevision'' hwhole, hrest⟩

end Composed

end Program

end RegisterColoring
