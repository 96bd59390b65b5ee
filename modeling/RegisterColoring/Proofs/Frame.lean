import RegisterColoring.Proofs.Progress

/-! # What allocation leaves as it is

Allocation resets, splits and breaks linkages and moves uses to memory. Whatever comes of it, nothing else
of the program changes, a linkage that is broken stays broken in the attempt that broke it, and no use
comes back from memory.

* `Program.Keeps p q`: what `q` has of `p`.
* `Program.keeps_mapStates`, `Program.keeps_separate`, `Program.keeps_revise`: single changes.
* `Attempt.keeps_ofProgram`, `keeps_allocateFrom`: attempts and runs, however they end. -/

namespace RegisterColoring

/-- What is broken is not reset, and nothing is broken by that. -/
theorem LinkState.reset_eq_broken {state : LinkState} {n : Nat} :
    state.reset = .broken n ↔ state = .broken n := by
  cases state <;> simp [reset]

namespace Program

/-- What a program still has of another: its shape, its uses but for some that went to memory, and the
linkages that were broken. -/
structure Keeps (p q : Program) : Prop extends p.SameShape q where
  /-- Uses are the same, except that some were moved to memory. -/
  use : ∀ (u : UseId) (x : Use), p.uses[u]? = some x →
    ∃ moved : Bool, q.uses[u]? = some { x with inMemory := x.inMemory || moved }
  /-- Linkages that were broken are the same. -/
  broken : ∀ (l : LinkageId) (k : Linkage) (n : Nat), p.linkages[l]? = some k → k.state = .broken n →
    q.linkages[l]? = some k

namespace Keeps

variable {p q s : Program}

theorem refl (p : Program) : p.Keeps p where
  functions_eq := rfl
  size_uses := rfl
  ends_eq _ := rfl
  use u x hx := ⟨false, by rw [hx, Bool.or_false]⟩
  broken _ _ _ hk _ := hk

theorem trans (h : p.Keeps q) (h' : q.Keeps s) : p.Keeps s where
  toSameShape := h.toSameShape.trans h'.toSameShape
  use u x hx := by
    obtain ⟨moved, hq⟩ := h.use u x hx
    obtain ⟨moved', hs⟩ := h'.use u _ hq
    exact ⟨moved || moved', by rw [hs, Bool.or_assoc]⟩
  broken l k n hk hstate := h'.broken l k n (h.broken l k n hk hstate) hstate

/-- A use is one from before, which may have been moved to memory. -/
theorem exists_use (h : p.Keeps q) {x : Use} (hx : x ∈ q.uses) :
    ∃ y ∈ p.uses, ∃ moved : Bool, x = { y with inMemory := y.inMemory || moved } := by
  obtain ⟨u, hu⟩ := Array.mem_iff_getElem?.mp hx
  have hlt : u < p.uses.size := h.size_uses ▸ (Array.getElem?_eq_some_iff.mp hu).1
  obtain ⟨moved, hq⟩ := h.use u p.uses[u] (Array.getElem?_eq_getElem hlt)
  exact ⟨_, Array.getElem_mem hlt, moved, Option.some.inj (hu.symm.trans hq)⟩

end Keeps

/-! ## Single changes -/

variable {m : Machine} {p q : Program} {number : Nat} {a : Attempt} {settings : Settings} {r : Revision}

/-- A change of states that leaves broken linkages alone keeps a program. -/
theorem keeps_mapStates {f : Linkage → LinkageId → LinkState}
    (h : ∀ l k n, p.linkages[l]? = some k → k.state = .broken n → f k l = .broken n) :
    p.Keeps (p.mapStates f) where
  toSameShape := .mapStates p f
  use u x hx := ⟨false, by rw [Bool.or_false]; exact hx⟩
  broken l k n hk hstate := by
    rw [getElem?_mapStates, hk, Option.map_some, h l k n hk hstate, ← hstate]

/-- Making split linkages active again keeps a program. -/
theorem keeps_resetSplits (p : Program) : p.Keeps p.resetSplits :=
  keeps_mapStates fun _ _ _ _ hstate => LinkState.reset_eq_broken.mpr hstate

/-- Splitting the linkages that cross the sets of a partition neither breaks nor mends one: those are
active. -/
theorem splitAll_crossing_eq_broken (part : Partition) {l : LinkageId} {k : Linkage} {n : Nat}
    (hk : p.linkages[l]? = some k) :
    (if (p.crossing part).contains l then LinkState.split else k.state) = .broken n ↔
      k.state = .broken n := by
  have unbroken := isBroken_splitAll_crossing part hk
  split
  · rename_i hcrossing
    rw [if_pos hcrossing] at unbroken
    refine iff_of_false (by simp) fun hstate => ?_
    rw [hstate] at unbroken
    cases unbroken
  · rfl

/-- So does separation. -/
theorem keeps_separate (m : Machine) (p : Program) (part : Partition) :
    p.Keeps (p.separate m part).program := by
  rw [separate]
  split
  · exact .refl p
  · exact keeps_mapStates fun _ _ _ hk hstate => (splitAll_crossing_eq_broken _ hk).mpr hstate

/-- A revision cuts linkages that the attempt found active. -/
theorem active_of_mem_cuts (hsound : a.Sound m q) (hr : (a.trial m).revision m q settings = .ok r)
    {l : LinkageId} (hl : l ∈ r.cuts) : ∃ k, (k, l) ∈ q.activeLinkages := by
  rw [Trial.revision, show (a.trial m).attempt.graph = _ from hsound.graph_eq] at hr
  exact Revision.active_of_mem_cuts hr hl

/-- A revision keeps a program: it cuts active linkages only, and leaves those broken that are. -/
theorem keeps_revise (hsound : a.Sound m q) (hr : (a.trial m).revision m q settings = .ok r) :
    q.Keeps (q.revise (a.trial m) r) where
  toSameShape := .revise q _ r
  use u x hx := ⟨((a.trial m).movedUses r).contains u, by rw [getElem?_uses_revise, hx, Option.map_some]⟩
  broken l k n hk hstate := by
    have uncut : l ∉ r.cuts := by
      intro hl
      obtain ⟨k', hk'⟩ := active_of_mem_cuts hsound hr hl
      obtain ⟨hget, hactive⟩ := mem_activeLinkages.mp hk'
      obtain rfl : k = k' := Option.some.inj (hk.symm.trans hget)
      rw [Linkage.isActive_iff.mp hactive] at hstate
      cases hstate
    rw [getElem?_linkages_revise, hk, Option.map_some, if_neg]
    rintro (hl | ⟨hbroken, -⟩)
    · exact uncut hl
    · rw [hstate] at hbroken
      cases hbroken

end Program

/-! ## Attempts and runs -/

section

variable {m : Machine} {settings : Settings} {limit remaining number : Nat} {p q : Program}

/-- What the start of an attempt leaves of a program: its conflicts are split, or it failed before that. -/
theorem Attempt.program_of_ofProgram {result : Except AllocationError Attempt}
    (h : ofProgram m p number = (q, result)) :
    q = p.resetSplits ∨ q = (p.resetSplits.separate m p.resetSplits.joinedSets).program := by
  rw [show q = (ofProgram m p number).1 by rw [h], ofProgram]
  split
  · exact .inl rfl
  · split
    · exact .inr rfl
    · split <;> exact .inr rfl

/-- The start of an attempt keeps a program, however it ends. -/
theorem Attempt.keeps_ofProgram {result : Except AllocationError Attempt}
    (h : ofProgram m p number = (q, result)) : p.Keeps q := by
  rcases program_of_ofProgram h with hq | hq <;> rw [hq]
  · exact p.keeps_resetSplits
  · exact p.keeps_resetSplits.trans (Program.keeps_separate m _ _)

/-- A run keeps its program, however it ends. -/
theorem keeps_allocateFrom : p.Keeps (allocateFrom m settings limit remaining number p).program := by
  fun_induction allocateFrom m settings limit remaining number p with
  | case1 number p => exact .refl p
  | case2 remaining number p q e hattempt => exact Attempt.keeps_ofProgram hattempt
  | case3 remaining number p q a hattempt t hcolored => exact Attempt.keeps_ofProgram hattempt
  | case4 remaining number p q a hattempt t hcolored e hrevision => exact Attempt.keeps_ofProgram hattempt
  | case5 remaining number p q a hattempt t hcolored r hrevision hempty =>
    exact Attempt.keeps_ofProgram hattempt
  | case6 remaining number p q a hattempt t hcolored r hrevision hempty ih =>
    have revised := Program.keeps_revise (Attempt.sound_of_ofProgram hattempt).1 hrevision
    exact ((Attempt.keeps_ofProgram hattempt).trans revised).trans ih

end

end RegisterColoring
