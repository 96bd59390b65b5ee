import RegisterColoring.Allocation.Attempt

/-! # Allocating registers

Attempt after attempt, until every group is given registers, nothing is left to change, or too many
attempts were made. What an attempt breaks stays broken; all else is built anew by the next one.

* `Round`: one attempt and how it ended.
* `Run`: all rounds, the program that they leave, and the locations or why there are none.
* `allocate`: the run of a program on a machine. -/

namespace RegisterColoring

/-- How an attempt ended. -/
inductive Ending where
  /-- Every group was given registers. -/
  | assigned
  /-- Some groups went without, and this is to change. -/
  | revised (revision : Revision)
  /-- Some groups went without, and the allocation fails. -/
  | stuck (cause : AllocationError)
  deriving Repr

/-- One attempt and how it ended. -/
structure Round where
  /-- The program that the attempt started from. -/
  start : Program
  /-- The attempt. -/
  trial : Trial
  /-- How it ended. -/
  ending : Ending
  deriving Repr

namespace Round

/-- The counters of a round. -/
def tally (r : Round) : Tally :=
  match r.ending with
  | .revised revision => r.trial.revisedTally revision
  | _ => r.trial.tally

end Round

/-- All rounds and what they came to. -/
structure Run where
  /-- The rounds, first to last. A last attempt without groups is no round. -/
  rounds : List Round
  /-- The program that is left. -/
  program : Program
  /-- The locations of the uses, or why there are none. -/
  result : Except AllocationError (Array Location)
  deriving Repr

namespace Run

/-- A run with a round in front. -/
def after (r : Round) (run : Run) : Run :=
  { run with rounds := r :: run.rounds }

/-- The allocation of a run, or why there is none. -/
def allocation (run : Run) : Except AllocationError Allocation :=
  run.result.map fun locations => ⟨locations, run.rounds.map Round.tally⟩

end Run

/-- Make up to `remaining` attempts, the next of which has the number `number`; `limit` is how many
attempts are allowed in all. -/
def allocateFrom (m : Machine) (settings : Settings) (limit : Nat) :
    (remaining number : Nat) → Program → Run
  | 0, _, p => ⟨[], p, .error (.outOfAttempts limit)⟩
  | remaining + 1, number, p =>
    match Attempt.ofProgram m p number with
    | (q, .error e) => ⟨[], q, .error e⟩
    | (q, .ok attempt) =>
      let t := attempt.trial m
      if t.uncolored.isEmpty then
        ⟨[⟨p, t, .assigned⟩], q, .ok (locations q attempt.groups t.coloring.assignment)⟩
      else
        match t.revision m q settings with
        | .error e => ⟨[⟨p, t, .stuck e⟩], q, .error e⟩
        | .ok r =>
          if r.isEmpty then ⟨[⟨p, t, .stuck (.stalled number)⟩], q, .error (.stalled number)⟩
          else
            (allocateFrom m settings limit remaining (number + 1) (q.revise t r)).after
              ⟨p, t, .revised r⟩

/-- How many attempts are allowed: as many as the settings say, or one more than there are linkages and
uses, counted in 32 bits. -/
def attemptsAllowed (settings : Settings) (p : Program) : Nat :=
  settings.maxAttempts.getD ((p.linkages.size + p.uses.size + 1) % 0x100000000)

/-- Give registers to every use of a program, breaking linkages between attempts until all fits. -/
def allocate (m : Machine) (settings : Settings) (p : Program) : Run :=
  let limit := attemptsAllowed settings p
  allocateFrom m settings limit limit 1 p

end RegisterColoring
