import RegisterColoring.Allocation.Run
import RegisterColoring.Proofs.Coloring
import RegisterColoring.Proofs.Program
import RegisterColoring.Proofs.Ranking

/-! # Attempts and runs

What is known once the groups of an attempt have been formed, and how a run that succeeds ends.

* `Attempt.Sound`: groups and graph belong to the program that the attempt works on.
* `Attempt.ofProgram_cases`: how the start of an attempt ends.
* `Attempt.sound_of_ofProgram`: every attempt that gets as far as its groups is sound.
* `Attempt.settled_ofProgram`, `Attempt.sameShape_of_ofProgram`: what it leaves of the program.
* `Attempt.Sound.apart`, `Attempt.fits_trial`: what its colouring comes to.
* `Run.allocation_eq_ok_iff`: the locations and the counters of an allocation.
* `exists_of_mem_rounds`: how a round that led to another came about.
* `exists_last_round`, `allocateFrom_eq_ok`: a run that succeeds ends with an attempt in which no group goes
  without. -/

namespace RegisterColoring

/-! ## One attempt -/

/-- The groups and the graph of an attempt belong to the program that it works on. -/
structure Attempt.Sound (m : Machine) (q : Program) (a : Attempt) : Prop where
  /-- The groups are the joined sets of the program. -/
  formed : a.groups.Formed m q
  /-- The graph is the interference of these groups. -/
  graph_eq : a.graph = .ofGroups q a.groups
  /-- Active linkages join uses of the program. -/
  missingEnd?_eq : q.missingEnd? = none

namespace Attempt

variable {m : Machine} {p q : Program} {number : Nat} {a : Attempt}

/-- How the start of an attempt ends: with a fault, with a defect of a group, or with the groups of the
separated sets. -/
theorem ofProgram_cases {result : Except AllocationError Attempt}
    (h : ofProgram m p number = (q, result)) :
    (∃ f, result = .error (.fault f)) ∨ (∃ cause, result = .error (.defect cause)) ∨
      ∃ s groups, s = p.resetSplits.separate m p.resetSplits.joinedSets ∧ q = s.program ∧
        Groups.ofPartition m s.program s.partition = .ok groups ∧ s.program.missingEnd? = none ∧
        result = .ok ⟨number, groups, .ofGroups s.program groups, s.splits.length⟩ := by
  rw [ofProgram] at h
  split at h
  · exact .inl ⟨_, (Prod.mk.inj h).2.symm⟩
  · split at h
    · exact .inr (.inl ⟨_, (Prod.mk.inj h).2.symm⟩)
    · rename_i groups hgroups
      split at h
      · exact .inl ⟨_, (Prod.mk.inj h).2.symm⟩
      · rename_i hends
        exact .inr (.inr ⟨_, groups, rfl, (Prod.mk.inj h).1.symm, hgroups, hends,
          (Prod.mk.inj h).2.symm⟩)

/-- An attempt that gets as far as its groups is sound, has the given number, and works on the program
that separation leaves. -/
theorem sound_of_ofProgram (h : ofProgram m p number = (q, .ok a)) :
    a.Sound m q ∧ a.number = number ∧
      q = (p.resetSplits.separate m p.resetSplits.joinedSets).program := by
  rcases ofProgram_cases h with ⟨f, hf⟩ | ⟨cause, hcause⟩ | ⟨s, groups, rfl, rfl, hgroups, hends, ha⟩
  · cases hf
  · cases hcause
  · obtain rfl := Except.ok.inj ha
    exact ⟨⟨Groups.formed_of_ofPartition (Program.sortedBy_separate m _) hgroups, rfl, hends⟩,
      rfl, rfl⟩

/-- The groups of an attempt are those of the separated sets. -/
theorem ofPartition_of_ofProgram (h : ofProgram m p number = (q, .ok a)) :
    Groups.ofPartition m (p.resetSplits.separate m p.resetSplits.joinedSets).program
      (p.resetSplits.separate m p.resetSplits.joinedSets).partition = .ok a.groups := by
  rcases ofProgram_cases h with ⟨f, hf⟩ | ⟨cause, hcause⟩ | ⟨s, groups, hs, -, hgroups, -, ha⟩
  · cases hf
  · cases hcause
  · obtain rfl := Except.ok.inj ha
    rw [← hs]
    exact hgroups

/-- The start of an attempt keeps a program settled, however it ends. -/
theorem settledOn_ofProgram {chosen : LinkageId → Bool} {result : Except AllocationError Attempt}
    (h : ofProgram m p number = (q, result)) (hp : p.SettledOn chosen) : q.SettledOn chosen := by
  rw [show q = (ofProgram m p number).1 by rw [h], ofProgram]
  split
  · exact hp.resetSplits
  · split
    · exact hp.resetSplits.separate m _
    · split <;> exact hp.resetSplits.separate m _

theorem settled_ofProgram {result : Except AllocationError Attempt}
    (h : ofProgram m p number = (q, result)) (hp : p.Settled) : q.Settled :=
  Program.settled_iff.mpr (settledOn_ofProgram h (Program.settled_iff.mp hp))

/-- An attempt that gets as far as its groups keeps the shape of a program. -/
theorem sameShape_of_ofProgram (h : ofProgram m p number = (q, .ok a)) : p.SameShape q := by
  rw [(sound_of_ofProgram h).2.2]
  exact (Program.SameShape.mapStates p _).trans (.separate m p.resetSplits _)

/-- What an attempt does depends on the linkages that are broken for good and not on its number or on what
was split before. -/
theorem ofProgram_congr {p' : Program} (hreset : p'.resetSplits = p.resetSplits) (number' : Nat)
    (h : ofProgram m p number = (q, .ok a)) :
    ofProgram m p' number' = (q, .ok { a with number := number' }) := by
  simp only [ofProgram, hreset] at h ⊢
  generalize p.resetSplits.separate m p.resetSplits.joinedSets = s at h ⊢
  split at h
  · cases h
  · rename_i hfault
    split at h
    · cases h
    · rename_i groups hgroups
      split at h
      · cases h
      · rename_i hends
        cases h
        rfl

/-- Colours do not depend on the number of an attempt. -/
theorem coloring_trial (m : Machine) (a : Attempt) (number' : Nat) :
    (trial m { a with number := number' }).coloring = (a.trial m).coloring := rfl

/-- The graph of an attempt is simple. -/
theorem Sound.simple (h : a.Sound m q) : a.graph.Simple := by
  rw [h.graph_eq]
  exact Interference.simple_ofGroups q a.groups

/-- The colouring of an attempt keeps neighbours apart. -/
theorem Sound.apart (h : a.Sound m q) (hm : m.Consistent) :
    (a.trial m).coloring.assignment.Apart m a.graph :=
  apart_colorInOrder hm h.simple Assignment.apart_none

/-- No group has its turn twice. -/
theorem nodup_turns (m : Machine) (a : Attempt) : (turns (a.trial m).ranking.groupRanks).Nodup :=
  nodup_turns_rankWithin List.nodup_range (Nat.le_of_eq List.length_range)

/-- Groups that go without registers are there. -/
theorem lt_of_mem_uncolored {g : GroupId} (hg : g ∈ (a.trial m).uncolored) : g < a.groups.size := by
  obtain ⟨before, later, hturns, -⟩ := exists_turn_of_mem_uncolored hg
  have hturn : g ∈ turns (a.trial m).ranking.groupRanks :=
    hturns ▸ List.mem_append_right before List.mem_cons_self
  exact List.mem_range.mp ((mem_turns_rankWithin (Nat.le_of_eq List.length_range)).mp hturn)

/-- When no group of an attempt goes without registers, every group holds what fits it. -/
theorem fits_trial (h : (a.trial m).uncolored = []) {g : GroupId} (hg : g < a.groups.size) :
    (a.groups.get g).Fits m ((a.trial m).coloring.assignment.heldBy g) := by
  have colored : g ∉ (a.trial m).uncolored := by
    rw [h]
    exact List.not_mem_nil
  exact fits_of_notMem_uncolored (a.nodup_turns m) (Ranking.mem_turns_ofPressure hg) hg colored

end Attempt

/-! ## Whole runs -/

/-- A run that succeeds, as a whole. -/
theorem Run.eq_of_result {run : Run} {ls : Array Location} (h : run.result = .ok ls) :
    run = ⟨run.rounds, run.program, .ok ls⟩ := by
  rw [← h]

/-- An allocation is the locations of a run with the counters of its rounds. -/
theorem Run.allocation_eq_ok_iff {run : Run} {found : Allocation} : run.allocation = .ok found ↔
    run.result = .ok found.locations ∧ found.attempts = run.rounds.map Round.tally := by
  rw [Run.allocation]
  obtain ⟨locations, attempts⟩ := found
  cases run.result with
  | error e => exact iff_of_false (fun h => by cases h) fun h => by cases h.1
  | ok ls =>
    show Except.ok _ = Except.ok _ ↔ Except.ok ls = Except.ok locations ∧ _
    rw [Except.ok.injEq, Except.ok.injEq, Allocation.mk.injEq, eq_comm (a := attempts)]

section

variable {m : Machine} {settings : Settings} {limit remaining number : Nat} {p : Program}
  {ls : Array Location}

/-- How a round that led to another came about: groups went without registers, and a revision was chosen. -/
theorem exists_of_mem_rounds {round : Round} {r : Revision}
    (hround : round ∈ (allocateFrom m settings limit remaining number p).rounds)
    (hending : round.ending = .revised r) :
    ∃ q a, Attempt.ofProgram m round.start a.number = (q, .ok a) ∧ round.trial = a.trial m ∧
      ¬(a.trial m).uncolored.isEmpty = true ∧ (a.trial m).revision m q settings = .ok r := by
  fun_induction allocateFrom m settings limit remaining number p with
  | case1 number p => cases hround
  | case2 remaining number p q e hattempt => cases hround
  | case3 remaining number p q a hattempt t hcolored =>
    obtain rfl := List.mem_singleton.mp hround
    cases hending
  | case4 remaining number p q a hattempt t hcolored e hrevision =>
    obtain rfl := List.mem_singleton.mp hround
    cases hending
  | case5 remaining number p q a hattempt t hcolored r' hrevision hempty =>
    obtain rfl := List.mem_singleton.mp hround
    cases hending
  | case6 remaining number p q a hattempt t hcolored r' hrevision hempty ih =>
    rcases List.mem_cons.mp hround with rfl | hround
    · cases hending
      obtain ⟨-, hnumber, -⟩ := Attempt.sound_of_ofProgram hattempt
      exact ⟨q, a, hnumber ▸ hattempt, rfl, hcolored, hrevision⟩
    · exact ih hround

/-- A run that succeeds ends with a round in which no group goes without registers, after rounds that led to
another. -/
theorem exists_last_round (h : (allocateFrom m settings limit remaining number p).result = .ok ls) :
    ∃ earlier p' number' q a, Attempt.ofProgram m p' number' = (q, .ok a) ∧
      (a.trial m).uncolored = [] ∧ (∀ r ∈ earlier, ∃ revision, r.ending = .revised revision) ∧
      allocateFrom m settings limit remaining number p =
        ⟨earlier ++ [⟨p', a.trial m, .assigned⟩], q,
          .ok (locations q a.groups (a.trial m).coloring.assignment)⟩ := by
  fun_induction allocateFrom m settings limit remaining number p with
  | case1 number p => cases h
  | case2 remaining number p q e hattempt => cases h
  | case3 remaining number p q a hattempt t hcolored =>
    exact ⟨[], p, number, q, a, hattempt, List.isEmpty_iff.mp hcolored, by simp, rfl⟩
  | case4 remaining number p q a hattempt t hcolored e hrevision => cases h
  | case5 remaining number p q a hattempt t hcolored r hrevision hempty => cases h
  | case6 remaining number p q a hattempt t hcolored r hrevision hempty ih =>
    obtain ⟨earlier, p', number', q', a', hlast, hcolored', hearlier, hrun⟩ := ih h
    refine ⟨⟨p, t, .revised r⟩ :: earlier, p', number', q', a', hlast, hcolored', ?_, ?_⟩
    · exact List.forall_mem_cons.mpr ⟨⟨r, rfl⟩, hearlier⟩
    · rw [hrun]
      rfl

/-- A run that succeeds ends with an attempt in which no group goes without registers. -/
theorem allocateFrom_eq_ok (h : (allocateFrom m settings limit remaining number p).result = .ok ls) :
    ∃ p' number' q a, Attempt.ofProgram m p' number' = (q, .ok a) ∧ (a.trial m).uncolored = [] ∧
      (allocateFrom m settings limit remaining number p).program = q ∧
      ls = locations q a.groups (a.trial m).coloring.assignment := by
  obtain ⟨earlier, p', number', q, a, hattempt, hcolored, -, hrun⟩ := exists_last_round h
  rw [hrun] at h ⊢
  exact ⟨p', number', q, a, hattempt, hcolored, rfl, (Except.ok.inj h).symm⟩

end

/-! ## A program for a word of two bytes -/

/-- A byte that lives across a use of the word, a use that needs two words, and a byte that lives across
the use of another. The machine with a word of two bytes has room for the last two only. -/
def contended : Program where
  functions := #["f"]
  uses := #[
    ⟨0, .tripleOutput, 0, some 0, 1, some ⟨0, 0⟩, false⟩,
    ⟨0, .operand, 1, some 0, 1, some ⟨0, 3⟩, false⟩,
    ⟨0, .operand, 2, some 1, 1, some ⟨0, 2⟩, false⟩,
    ⟨0, .temp, 3, some 1, 2, none, false⟩,
    ⟨0, .tripleOutput, 4, some 0, 1, some ⟨1, 0⟩, false⟩,
    ⟨0, .operand, 5, some 0, 1, some ⟨1, 2⟩, false⟩,
    ⟨0, .operand, 6, some 0, 1, some ⟨1, 1⟩, false⟩]
  linkages := #[⟨0, 1, .active⟩, ⟨4, 5, .active⟩]

end RegisterColoring
