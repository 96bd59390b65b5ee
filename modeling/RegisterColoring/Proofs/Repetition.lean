import RegisterColoring.Proofs.Frame

/-! # Allocating again

An attempt reads nothing of a program but its uses and the linkages that are not broken. So the program
that a successful allocation leaves is allocated by the attempt that was the last of it, made once more.

* `Attempt.ofProgram_again`: what an attempt left is separated in the same way again.
* `allocate_again`: a second allocation comes to what the first one came to, in one attempt. -/

namespace RegisterColoring

/-- A run that is allowed no attempt does not succeed. -/
theorem remaining_pos {m : Machine} {settings : Settings} {limit remaining number : Nat} {p : Program}
    {ls : Array Location} (h : (allocateFrom m settings limit remaining number p).result = .ok ls) :
    0 < remaining := by
  cases remaining with
  | zero => cases h
  | succ remaining => exact Nat.succ_pos remaining

/-- What an attempt left is separated in the same way again, by an attempt of any number. -/
theorem Attempt.ofProgram_again {m : Machine} {p q : Program} {number : Nat} {a : Attempt}
    (h : ofProgram m p number = (q, .ok a)) (number' : Nat) :
    ofProgram m q number' = (q, .ok { a with number := number' }) := by
  have hreset : q.resetSplits = p.resetSplits := by
    rw [(sound_of_ofProgram h).2.2]
    exact Program.resetSplits_separate m p _
  exact ofProgram_congr hreset number' h

/-- Programs of one shape are allowed as many attempts. -/
theorem Program.SameShape.attemptsAllowed_eq {p q : Program} (h : p.SameShape q) (settings : Settings) :
    attemptsAllowed settings q = attemptsAllowed settings p := by
  rw [attemptsAllowed, attemptsAllowed, h.size_linkages, h.size_uses]

/-- Allocating the program that a successful allocation left, with the same settings, takes one attempt. It
gives the same locations, counts what the last attempt of the first allocation counted, and changes nothing
of the program. -/
theorem allocate_again {m : Machine} {settings : Settings} {p : Program} {found : Allocation}
    (h : (allocate m settings p).allocation = .ok found) :
    ∃ last, found.attempts.getLast? = some last ∧
      (allocate m settings (allocate m settings p).program).allocation =
        .ok ⟨found.locations, [{ last with attempt := 1 }]⟩ ∧
      (allocate m settings (allocate m settings p).program).program = (allocate m settings p).program := by
  obtain ⟨hresult, hattempts⟩ := Run.allocation_eq_ok_iff.mp h
  have shape : p.SameShape (allocate m settings p).program := keeps_allocateFrom.toSameShape
  obtain ⟨allowed, hallowed⟩ := Nat.exists_eq_add_of_lt (remaining_pos hresult)
  obtain ⟨earlier, p', number', q, a, hattempt, hcolored, -, hrun⟩ := exists_last_round hresult
  have hrun : allocate m settings p = _ := hrun
  rw [hrun] at hresult hattempts shape ⊢
  -- the second run ends with its first attempt, which is the last one of the first run but for its number
  have second : allocate m settings q = ⟨[⟨q, Attempt.trial m { a with number := 1 }, .assigned⟩], q,
      .ok (locations q a.groups (a.trial m).coloring.assignment)⟩ := by
    rw [allocate, shape.attemptsAllowed_eq, hallowed, allocateFrom, Attempt.ofProgram_again hattempt]
    have hcolored' : (Attempt.trial m { a with number := 1 }).uncolored = [] := hcolored
    simp only [hcolored', List.isEmpty_nil, if_true]
    rfl
  refine ⟨(a.trial m).tally, ?_, ?_, ?_⟩
  · rw [hattempts, List.map_append, List.map_singleton, List.getLast?_concat]
    rfl
  · rw [Run.allocation_eq_ok_iff, second]
    exact ⟨hresult, rfl⟩
  · rw [second]

/-- What the second attempt on `contended` came to is found again in one attempt. -/
theorem allocate_again_contended :
    ∃ found, (allocate bytePairMachine { spillUnallocatable := true } contended).allocation = .ok found ∧
      found.attempts.length = 2 ∧
      (allocate bytePairMachine { spillUnallocatable := true }
        (allocate bytePairMachine { spillUnallocatable := true } contended).program).allocation =
          .ok ⟨found.locations, [⟨1, 5, 0, 1, 1, 0, 0, 0, 0⟩]⟩ := by
  have computed : ((allocate bytePairMachine { spillUnallocatable := true }
      contended).allocation.map Allocation.attempts) =
        .ok [⟨1, 5, 0, 2, 4, 2, 2, 1, 1⟩, ⟨2, 5, 0, 1, 1, 0, 0, 0, 0⟩] := by
    decide +kernel
  cases h : (allocate bytePairMachine { spillUnallocatable := true } contended).allocation with
  | error e =>
    rw [h] at computed
    cases computed
  | ok found =>
    rw [h] at computed
    have attempts := Except.ok.inj computed
    obtain ⟨last, hlast, again, -⟩ := allocate_again h
    rw [attempts] at hlast
    obtain rfl := Option.some.inj hlast
    exact ⟨found, rfl, by rw [attempts]; rfl, again⟩

end RegisterColoring
