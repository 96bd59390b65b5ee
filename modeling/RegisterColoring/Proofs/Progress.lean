import RegisterColoring.Proofs.Attempt
import RegisterColoring.Proofs.Program
import RegisterColoring.Proofs.Revision

/-! # Progress of allocation

Every attempt that fails and leads to another gives something up for good: a linkage that was active, or
a use that was not in memory. So there are no more attempts than there is to give up, and one.

* `Program.GivesUp`: a linkage is broken or a use is moved between two programs.
* `Program.givesUp_revise`, `Program.effort_next_lt`: what a revision comes to.
* `Run.attempts`: how many attempts a run made.
* `attempts_allocateFrom`: the bound on the attempts of a run.
* `allocate_progresses`: every allocation makes progress until it ends. -/

namespace RegisterColoring

/-! ## One revision -/

namespace Program

/-- Whether the attempt of that number gives something up from one program to the next: a linkage that
was active is broken for good, or a use that was not in memory is there now. -/
def GivesUp (number : Nat) (q next : Program) : Prop :=
  (∃ (l : LinkageId) (k : Linkage), q.linkages[l]? = some k ∧ k.isActive = true ∧
      next.linkages[l]? = some { k with state := .broken number }) ∨
    ∃ (u : UseId) (use : Use), q.uses[u]? = some use ∧ use.inMemory = false ∧
      next.uses[u]? = some { use with inMemory := true }

/-- How much there is to give up: the linkages that are not broken for good, and, where uses may go to
memory, the uses that are not there. -/
def effort (settings : Settings) (p : Program) : Nat :=
  p.unbroken.length + if settings.spillUnallocatable then p.usesInPlay.length else 0

variable {m : Machine} {p q : Program} {number : Nat} {a : Attempt} {settings : Settings}
  {r : Revision}

/-- What a revision that was chosen gives up: it cuts an active linkage, or, where that is allowed, it
moves a use that is in play. -/
theorem cuts_or_moves (hsound : a.Sound m q) (hr : (a.trial m).revision m q settings = .ok r)
    (hne : ¬(a.trial m).uncolored.isEmpty = true) :
    (∃ k, ∃ l ∈ r.cuts, (k, l) ∈ q.activeLinkages) ∨
      settings.spillUnallocatable = true ∧ ∃ u ∈ q.usesInPlay, u ∈ (a.trial m).movedUses r := by
  have hr' : Revision.choose m q a.groups (.ofGroups q a.groups) (a.trial m).coloring.assignment
      (a.trial m).uncolored settings = .ok r := hsound.graph_eq ▸ hr
  rcases Revision.cuts_ne_nil_or hr' hne with hcuts | hevicted
  · left
    obtain ⟨l, hl⟩ := List.exists_mem_of_ne_nil _ hcuts
    obtain ⟨k, hk⟩ := Revision.active_of_mem_cuts hr' hl
    exact ⟨k, l, hl, hk⟩
  · right
    obtain ⟨g, hg⟩ := List.exists_mem_of_ne_nil _ hevicted
    obtain ⟨hsize, hspill⟩ := Revision.of_mem_evicted hr' hg
    obtain ⟨u, hu⟩ := List.exists_mem_of_ne_nil _ (hsound.formed.members_ne_nil g hsize)
    exact ⟨hspill, u, hsound.formed.members_subset g hsize u hu, List.mem_flatMap.mpr ⟨g, hg, hu⟩⟩

/-- A revision gives something up. -/
theorem givesUp_revise (hsound : a.Sound m q) (hr : (a.trial m).revision m q settings = .ok r)
    (hne : ¬(a.trial m).uncolored.isEmpty = true) : GivesUp a.number q (q.revise (a.trial m) r) := by
  rcases cuts_or_moves hsound hr hne with ⟨k, l, hl, hk⟩ | ⟨-, u, hu, hmoved⟩
  · obtain ⟨hget, hactive⟩ := mem_activeLinkages.mp hk
    refine .inl ⟨l, k, hget, hactive, ?_⟩
    rw [getElem?_linkages_revise, hget, Option.map_some, if_pos (.inl hl)]
    rfl
  · obtain ⟨hlt, hmem⟩ := mem_usesInPlay.mp hu
    have hget := Array.getElem?_eq_getElem hlt
    refine .inr ⟨u, q.uses[u], hget, ?_, ?_⟩
    · rw [isInMemory, use?, hget] at hmem
      exact hmem
    · rw [getElem?_uses_revise, hget, Option.map_some, List.contains_iff_mem.mpr hmoved, Bool.or_true]

/-- A revision leaves less to give up. -/
theorem effort_revise_lt (hsound : a.Sound m q) (hr : (a.trial m).revision m q settings = .ok r)
    (hne : ¬(a.trial m).uncolored.isEmpty = true) :
    (q.revise (a.trial m) r).effort settings < q.effort settings := by
  have linkages : (q.revise (a.trial m) r).unbroken.length ≤ q.unbroken.length := by
    rw [unbroken_revise]
    exact List.length_filter_le _ _
  have uses : (q.revise (a.trial m) r).usesInPlay.length ≤ q.usesInPlay.length := by
    rw [usesInPlay_revise]
    exact List.length_filter_le _ _
  -- neither count grows, and one of them falls
  rw [effort, effort]
  rcases cuts_or_moves hsound hr hne with ⟨k, l, hl, hk⟩ | ⟨hspill, u, hu, hmoved⟩
  · have fewer : (q.revise (a.trial m) r).unbroken.length < q.unbroken.length :=
      length_unbroken_revise_lt hl hk
    split <;> omega
  · have fewer : (q.revise (a.trial m) r).usesInPlay.length < q.usesInPlay.length := by
      rw [usesInPlay_revise, List.length_filter_lt_length_iff_exists]
      exact ⟨u, hu, by simpa using hmoved⟩
    rw [if_pos hspill, if_pos hspill]
    omega

/-- An attempt by itself gives nothing up. -/
theorem effort_ofProgram (h : Attempt.ofProgram m p number = (q, .ok a)) :
    q.effort settings = p.effort settings := by
  obtain ⟨-, -, rfl⟩ := Attempt.sound_of_ofProgram h
  rw [effort, effort, unbroken_separate, unbroken_resetSplits, usesInPlay, usesInPlay, useIds, useIds]
  simp only [isInMemory, use?, uses_separate]
  rfl

/-- An attempt that fails leaves less to give up to the next one. -/
theorem effort_next_lt (h : Attempt.ofProgram m p number = (q, .ok a))
    (hr : (a.trial m).revision m q settings = .ok r)
    (hne : ¬(a.trial m).uncolored.isEmpty = true) :
    (q.revise (a.trial m) r).effort settings < p.effort settings := by
  rw [← effort_ofProgram h]
  exact effort_revise_lt (Attempt.sound_of_ofProgram h).1 hr hne

end Program

/-- A chosen revision is not empty when groups went without. -/
theorem Revision.isEmpty_eq_false {m : Machine} {q : Program} {a : Attempt} {settings : Settings}
    {r : Revision} (hsound : a.Sound m q) (hr : (a.trial m).revision m q settings = .ok r)
    (hne : ¬(a.trial m).uncolored.isEmpty = true) : r.isEmpty = false := by
  rw [Trial.revision, show (a.trial m).attempt.graph = _ from hsound.graph_eq] at hr
  rw [Revision.isEmpty, Bool.and_eq_false_iff, List.isEmpty_eq_false_iff, List.isEmpty_eq_false_iff]
  exact Revision.cuts_ne_nil_or hr hne

/-! ## Errors -/

/-- Whether an error says that attempts were made in vain. -/
def AllocationError.isVain : AllocationError → Bool
  | .stalled _ => true
  | .outOfAttempts _ => true
  | _ => false

/-- An attempt that forms no groups is not in vain. -/
theorem isVain_of_ofProgram {m : Machine} {p q : Program} {number : Nat} {e : AllocationError}
    (h : Attempt.ofProgram m p number = (q, .error e)) : e.isVain = false := by
  rcases Attempt.ofProgram_cases h with ⟨f, hf⟩ | ⟨cause, hcause⟩ | ⟨s, groups, -, -, -, -, hok⟩
  · obtain rfl := Except.error.inj hf
    rfl
  · obtain rfl := Except.error.inj hcause
    rfl
  · cases hok

/-- A revision that cannot be chosen is not in vain. -/
theorem isVain_of_revision {m : Machine} {q : Program} {settings : Settings} {t : Trial}
    {e : AllocationError} (h : t.revision m q settings = .error e) : e.isVain = false := by
  rcases Revision.choose_eq_error h with ⟨g, -, -, rfl⟩ | ⟨g, -, -, -, rfl⟩
  · rfl
  · rw [misfit]
    split
    · rename_i e he
      obtain ⟨use, -, he⟩ := bind_eq_ok.mp he
      obtain ⟨name, -, he⟩ := bind_eq_ok.mp he
      cases he
      rfl
    · rfl

/-! ## Rounds -/

/-- Whether the attempt led to a revision, and so to another attempt. -/
def Ending.isRevised : Ending → Bool
  | .revised _ => true
  | _ => false

/-- The program that the attempt of a round works on, with its conflicts split. -/
def Round.program (m : Machine) (r : Round) : Program :=
  (Attempt.ofProgram m r.start r.trial.attempt.number).1

/-- The program that a round leaves, with its revision carried out if there is one. -/
def Round.left (m : Machine) (r : Round) : Program :=
  match r.ending with
  | .revised revision => (r.program m).revise r.trial revision
  | _ => r.program m

/-- How many attempts a run made: those that led to a revision, and the one that ended the run unless no
attempt was left. -/
def Run.attempts (run : Run) : Nat :=
  (run.rounds.countP fun r => r.ending.isRevised) +
    match run.result with
    | .error (.outOfAttempts _) => 0
    | _ => 1

/-- The attempt of a round worked on the program that it left split. -/
theorem Round.program_eq {m : Machine} {p q : Program} {number : Nat} {a : Attempt} {ending : Ending}
    (h : Attempt.ofProgram m p number = (q, .ok a)) :
    Round.program m ⟨p, a.trial m, ending⟩ = q := by
  show (Attempt.ofProgram m p a.number).1 = q
  rw [(Attempt.sound_of_ofProgram h).2.1, h]

/-- A run with a round in front that led to a revision made one more attempt. -/
theorem Run.attempts_after {p : Program} {t : Trial} {r : Revision} {run : Run} :
    (run.after ⟨p, t, .revised r⟩).attempts = run.attempts + 1 := by
  rw [attempts, after, List.countP_cons_of_pos rfl, attempts]
  exact Nat.add_right_comm _ 1 _

/-! ## Whole runs -/

section

variable {m : Machine} {settings : Settings} {limit remaining number : Nat} {p : Program}

/-- Every round starts from the program that the one before it left, the first one from the program that
the run is made of. -/
theorem rounds_allocateFrom :
    (allocateFrom m settings limit remaining number p).rounds.map Round.start <+:
      p :: (allocateFrom m settings limit remaining number p).rounds.map (Round.left m) := by
  fun_induction allocateFrom m settings limit remaining number p with
  | case1 number p => exact List.nil_prefix
  | case2 remaining number p q e hattempt => exact List.nil_prefix
  | case3 remaining number p q a hattempt t hcolored => simp
  | case4 remaining number p q a hattempt t hcolored e hrevision => simp
  | case5 remaining number p q a hattempt t hcolored r hrevision hempty => simp
  | case6 remaining number p q a hattempt t hcolored r hrevision hempty ih =>
    have left : Round.left m ⟨p, t, .revised r⟩ = q.revise t r := by
      show (Round.program m _).revise t r = q.revise t r
      rw [Round.program_eq hattempt]
    rw [Run.after, List.map_cons, List.map_cons, left, List.cons_prefix_cons]
    exact ⟨rfl, ih⟩

/-- Every attempt that leads to another gives something up. -/
theorem givesUp_allocateFrom :
    ∀ r ∈ (allocateFrom m settings limit remaining number p).rounds, r.ending.isRevised = true →
      (r.program m).GivesUp r.trial.attempt.number (r.left m) := by
  rintro ⟨start, trial, ending⟩ hround hrevised
  cases ending with
  | assigned => cases hrevised
  | stuck cause => cases hrevised
  | revised r =>
    obtain ⟨q, a, hattempt, rfl, hne, hrevision⟩ := exists_of_mem_rounds hround rfl
    rw [Round.left, Round.program_eq hattempt]
    exact Program.givesUp_revise (Attempt.sound_of_ofProgram hattempt).1 hrevision hne

/-- Every round of a run is one of its attempts. -/
theorem length_rounds_allocateFrom :
    (allocateFrom m settings limit remaining number p).rounds.length ≤
      (allocateFrom m settings limit remaining number p).attempts := by
  fun_induction allocateFrom m settings limit remaining number p with
  | case1 number p => exact Nat.zero_le _
  | case2 remaining number p q e hattempt => exact Nat.zero_le _
  | case3 remaining number p q a hattempt t hcolored => exact Nat.le_add_left 1 _
  | case4 remaining number p q a hattempt t hcolored e hrevision =>
    rw [Run.attempts]
    split
    · -- running out of attempts is no reason why a revision fails
      rename_i heq
      obtain rfl := Except.error.inj heq
      cases isVain_of_revision hrevision
    · exact Nat.le_add_left 1 _
  | case5 remaining number p q a hattempt t hcolored r hrevision hempty => exact Nat.le_add_left 1 _
  | case6 remaining number p q a hattempt t hcolored r hrevision hempty ih =>
    rw [Run.attempts_after]
    exact Nat.succ_le_succ ih

/-- A run makes at most one attempt more than there is to give up. -/
theorem attempts_allocateFrom :
    (allocateFrom m settings limit remaining number p).attempts ≤ p.effort settings + 1 := by
  fun_induction allocateFrom m settings limit remaining number p with
  | case1 number p => exact Nat.zero_le _
  | case2 remaining number p q e hattempt =>
    -- no error but the last one takes the ending attempt away
    rw [Run.attempts]
    split <;> exact Nat.le_add_left_of_le (by simp)
  | case3 remaining number p q a hattempt t hcolored => exact Nat.le_add_left 1 _
  | case4 remaining number p q a hattempt t hcolored e hrevision =>
    rw [Run.attempts]
    split <;> exact Nat.le_add_left_of_le (by simp [Ending.isRevised])
  | case5 remaining number p q a hattempt t hcolored r hrevision hempty => exact Nat.le_add_left 1 _
  | case6 remaining number p q a hattempt t hcolored r hrevision hempty ih =>
    have less := Program.effort_next_lt hattempt hrevision hcolored
    rw [Run.attempts_after]
    exact Nat.succ_le_succ (ih.trans less)

/-- A run is in vain only when it runs out of attempts, and only when it was allowed no more of them than
there is to give up. -/
theorem remaining_le_of_isVain {e : AllocationError}
    (h : (allocateFrom m settings limit remaining number p).result = .error e)
    (hvain : e.isVain = true) : e = .outOfAttempts limit ∧ remaining ≤ p.effort settings := by
  fun_induction allocateFrom m settings limit remaining number p with
  | case1 number p =>
    obtain rfl := Except.error.inj h
    exact ⟨rfl, Nat.zero_le _⟩
  | case2 remaining number p q e' hattempt =>
    obtain rfl := Except.error.inj h
    rw [isVain_of_ofProgram hattempt] at hvain
    cases hvain
  | case3 remaining number p q a hattempt t hcolored => cases h
  | case4 remaining number p q a hattempt t hcolored e' hrevision =>
    obtain rfl := Except.error.inj h
    rw [isVain_of_revision hrevision] at hvain
    cases hvain
  | case5 remaining number p q a hattempt t hcolored r hrevision hempty =>
    -- the attempt would have stalled, but no revision that was chosen is empty
    rw [Revision.isEmpty_eq_false (Attempt.sound_of_ofProgram hattempt).1 hrevision hcolored] at hempty
    cases hempty
  | case6 remaining number p q a hattempt t hcolored r hrevision hempty ih =>
    have less := Program.effort_next_lt hattempt hrevision hcolored
    obtain ⟨he, hle⟩ := ih h
    exact ⟨he, Nat.succ_le_of_lt (Nat.lt_of_le_of_lt hle less)⟩

end

/-- Without a limit in the settings, a program that can be counted in 32 bits is allowed one attempt more
than it has linkages and uses. -/
theorem attemptsAllowed_of_none {settings : Settings} (hlimit : settings.maxAttempts = none) {p : Program}
    (hsize : p.linkages.size + p.uses.size + 1 < 2 ^ 32) :
    attemptsAllowed settings p = p.linkages.size + p.uses.size + 1 := by
  rw [attemptsAllowed, hlimit, Option.getD_none]
  exact Nat.mod_eq_of_lt hsize

/-- There is no more to give up than the linkages and uses of a program. -/
theorem Program.effort_le (settings : Settings) (p : Program) :
    p.effort settings ≤ p.linkages.size + p.uses.size := by
  have linkages : p.unbroken.length ≤ p.linkages.size := by
    rw [unbroken]
    exact (List.length_filter_le _ _).trans_eq List.length_range
  have uses : p.usesInPlay.length ≤ p.uses.size := by
    rw [usesInPlay, useIds]
    exact (List.length_filter_le _ _).trans_eq List.length_range
  rw [effort]
  split <;> omega

/-- An allocation makes at most one attempt more than there are linkages and uses. -/
theorem length_rounds_allocate_le {m : Machine} {settings : Settings} {p q : Program} {rounds : List Round}
    {ls : Array Location} (h : allocate m settings p = ⟨rounds, q, .ok ls⟩) :
    rounds.length ≤ p.linkages.size + p.uses.size + 1 := by
  have hlength : (allocate m settings p).rounds.length ≤ p.effort settings + 1 :=
    length_rounds_allocateFrom.trans attempts_allocateFrom
  rw [h] at hlength
  exact hlength.trans (Nat.succ_le_succ (p.effort_le settings))

/-- Allocation makes progress until it ends. Each attempt starts from what the one before it left, and
one that leads to another gives up a linkage or a use. Therefore allocation never stalls, it makes at
most one attempt more than there are linkages to break and uses to move, and without a limit of its own
it never runs out of attempts. -/
theorem allocate_progresses (m : Machine) (settings : Settings) (p : Program) :
    ((allocate m settings p).rounds.map Round.start <+:
        p :: (allocate m settings p).rounds.map (Round.left m)) ∧
      (∀ r ∈ (allocate m settings p).rounds, r.ending.isRevised = true →
        (r.program m).GivesUp r.trial.attempt.number (r.left m)) ∧
      (∀ number, (allocate m settings p).result ≠ .error (.stalled number)) ∧
      (allocate m settings p).rounds.length ≤ (allocate m settings p).attempts ∧
      (allocate m settings p).attempts ≤ p.unbroken.length +
        (if settings.spillUnallocatable then p.usesInPlay.length else 0) + 1 ∧
      (settings.maxAttempts = none → p.linkages.size + p.uses.size + 1 < 2 ^ 32 →
        ∀ limit, (allocate m settings p).result ≠ .error (.outOfAttempts limit)) := by
  refine ⟨rounds_allocateFrom, givesUp_allocateFrom, fun number h => ?_, length_rounds_allocateFrom,
    attempts_allocateFrom, fun hnone hfits limit h => ?_⟩
  · cases (remaining_le_of_isVain h rfl).1
  · have allowed : attemptsAllowed settings p = p.linkages.size + p.uses.size + 1 := by
      rw [attemptsAllowed, hnone, Option.getD_none]
      exact Nat.mod_eq_of_lt hfits
    have enough := (remaining_le_of_isVain h rfl).2
    rw [allowed] at enough
    have := p.effort_le settings
    omega

/-- The first of two attempts on `contended` gives something up, and the second one succeeds. -/
theorem allocate_progresses_contended :
    (∃ r ∈ (allocate bytePairMachine { spillUnallocatable := true } contended).rounds,
        r.ending.isRevised = true ∧
        (r.program bytePairMachine).GivesUp r.trial.attempt.number (r.left bytePairMachine)) ∧
      (allocate bytePairMachine { spillUnallocatable := true } contended).attempts = 2 ∧
      ∀ limit, (allocate bytePairMachine { spillUnallocatable := true } contended).result ≠
        .error (.outOfAttempts limit) := by
  obtain ⟨-, givesUp, -, -, -, enough⟩ :=
    allocate_progresses bytePairMachine { spillUnallocatable := true } contended
  have revised : (allocate bytePairMachine { spillUnallocatable := true } contended).rounds.any
      (fun r => r.ending.isRevised) = true := by
    decide +kernel
  obtain ⟨r, hr, hrevised⟩ := List.any_eq_true.mp revised
  exact ⟨⟨r, hr, hrevised, givesUp r hr hrevised⟩, by decide +kernel, enough rfl (by decide)⟩

end RegisterColoring
