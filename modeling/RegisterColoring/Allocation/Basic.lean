import RegisterColoring.Grouping.Group

/-! # Allocations

The result of allocating registers: where each use lives, and what each attempt came to.

* `Settings`: how far an allocation may go.
* `AllocationError`: why it fails, and the wording of it.
* `Location`: registers, or memory.
* `Tally`: the counters of one attempt.
* `Allocation`: a location for every use, and the counters of all attempts.
* `Allocation.listing`, `Allocation.tallyText`: the result as text. -/

namespace RegisterColoring

/-- How far an allocation may go. -/
structure Settings where
  /-- The most attempts to make; without it, enough to break every linkage and move every use. -/
  maxAttempts : Option Nat := none
  /-- Whether a group that does not fit its class goes to memory instead of failing the allocation. -/
  spillUnallocatable : Bool := false
  deriving DecidableEq, Repr, Inhabited

/-- Why an allocation fails. -/
inductive AllocationError where
  /-- A set of joined uses is no group. -/
  | defect (cause : GroupDefect)
  /-- A group cannot be given registers of its class, and nothing stands in its way. -/
  | doesNotFit (function : String) (kind : UseKind) (operation : Nat) (className : String)
      (needed capacity : Nat)
  /-- An attempt failed and left nothing to change. -/
  | stalled (attempt : Nat)
  /-- So many attempts were made in vain. -/
  | outOfAttempts (limit : Nat)
  /-- The program refers to something that it does not have. -/
  | fault (cause : Fault)
  deriving DecidableEq, Repr

namespace AllocationError

/-- The wording of an error. A fault has none of its own. -/
def message : AllocationError → String
  | defect cause => "internal error: " ++ cause.message
  | doesNotFit function kind operation className needed capacity =>
    let what := kind.name
    s!"cannot allocate {what} of operation {operation} in function `{function}`: needs {needed} " ++
      s!"non-aliasing registers of class `{className}`, which holds {capacity}"
  | stalled attempt => s!"attempt {attempt} failed without breaking a linkage or spilling a use"
  | outOfAttempts limit => s!"register allocation did not converge within {limit} attempts"
  | fault _ => ""

/-- Whether the error lies with the allocator or its input rather than with a limit of the target. -/
def isDefect : AllocationError → Bool
  | defect _ => true
  | stalled _ => true
  | _ => false

end AllocationError

/-- Where a use lives. -/
inductive Location where
  /-- In these registers. -/
  | registers (held : List RegisterId)
  /-- In memory. -/
  | memory
  deriving DecidableEq, Repr, Inhabited

namespace Location

/-- The registers of a location; memory has none. -/
def held : Location → List RegisterId
  | registers rs => rs
  | memory => []

/-- Whether the location is memory. -/
def isMemory : Location → Bool
  | registers _ => false
  | memory => true

/-- The location as text: the names of its registers, or `spill`. -/
def text (m : Machine) : Location → String
  | registers rs => ", ".intercalate (rs.map m.registerName)
  | memory => "spill"

end Location

/-- The counters of one attempt. -/
structure Tally where
  /-- The number of the attempt, from 1. -/
  attempt : Nat
  /-- How many groups there were. -/
  groups : Nat
  /-- How many groups were split because of conflicts. -/
  splits : Nat
  /-- How many pairs of groups interfered. -/
  edges : Nat
  /-- How many ranks the groups were taken out in. -/
  ranks : Nat
  /-- How many of the ranks were taken out in hope only. -/
  hopeful : Nat
  /-- How many groups went without registers. -/
  uncolored : Nat := 0
  /-- How many linkages were broken. -/
  broken : Nat := 0
  /-- How many uses were moved to memory. -/
  moved : Nat := 0
  deriving DecidableEq, Repr

namespace Tally

/-- The counters on one line. -/
def text (s : Tally) : String :=
  s!"attempt {s.attempt}: {s.groups} groups, {s.splits} splits, {s.edges} neighbors, " ++
    s!"{s.ranks} ranks ({s.hopeful} inconclusive), {s.uncolored} failed, " ++
    s!"{s.broken} linkages broken, {s.moved} uses spilled\n"

end Tally

/-- A location for every use, and the counters of all attempts. -/
structure Allocation where
  /-- The location of each use. -/
  locations : Array Location
  /-- The counters of each attempt. -/
  attempts : List Tally
  deriving DecidableEq, Repr

namespace Allocation

/-- One line for a use: its function, its kind, its operation, and where it lives. -/
def line (m : Machine) (p : Program) (use : Use) (location : Location) : Except Fault String := do
  let function ← p.nameOfFunction use.function
  return "\t".intercalate [function, use.kind.name, toString use.operation, location.text m] ++ "\n"

/-- One line for every use that has a location. -/
def listing (m : Machine) (p : Program) (a : Allocation) : Except Fault String := do
  let lines ← (p.uses.toList.zip a.locations.toList).mapM fun (use, location) => line m p use location
  return String.join lines

/-- One line for every attempt. -/
def tallyText (a : Allocation) : String :=
  String.join (a.attempts.map Tally.text)

end Allocation

end RegisterColoring
