import RegisterColoring.Allocation.Basic
import RegisterColoring.Grouping.Joining
import RegisterColoring.Interference.Graph

/-! # Legality

A second look at an allocation, which shares nothing with how it was found but the program: every use
holds as many registers as it needs, of its class and free of overlap; linked uses hold the same; and no
use inside the span of a linkage holds a register that shares storage with the linkage's.

* `Violation`: a rule that is not kept, and the wording of it.
* `violations`: all violations of an allocation, in order.
* `checkLegal`: the same, for locations that need not fit the program. -/

namespace RegisterColoring

/-- A rule that an allocation does not keep. -/
inductive Violation where
  /-- A use holds another number of registers than it needs. -/
  | wrongCount (use : UseId) (held needed : Nat)
  /-- A use holds a register outside its class. -/
  | wrongClass (use : UseId) (register className : String)
  /-- A use holds two registers that share storage. -/
  | selfOverlap (use : UseId) (register : String)
  /-- Two linked uses hold different registers. -/
  | linkedApart (first second : UseId)
  /-- A use holds a register that shares storage with one of a linkage around it. -/
  | overwritten (linked use : UseId)
  deriving DecidableEq, Repr

namespace Violation

/-- The wording of a violation. -/
def message : Violation → String
  | wrongCount use held needed => s!"u{use} holds {held} registers but needs {needed}"
  | wrongClass use register className =>
    s!"u{use} holds `{register}`, which is not in class `{className}`"
  | selfOverlap use register => s!"u{use} holds `{register}` twice or in aliasing form"
  | linkedApart first second => s!"linked u{first} and u{second} hold different registers"
  | overwritten linked use =>
    s!"u{use} holds a register aliasing one of u{linked}, which is live across it"

/-- Violations as a report. -/
def report (vs : List Violation) : String :=
  "allocation failed verification:\n" ++ "\n".intercalate (vs.map fun v => "\t" ++ v.message)

end Violation

/-! ## Looking up locations -/

/-- The location of a use. -/
def locationOf (locations : Array Location) (u : UseId) : Location :=
  locations.getD u .memory

/-- Whether a use lives in registers. -/
def inRegisters (locations : Array Location) (u : UseId) : Bool :=
  !(locationOf locations u).isMemory

/-- The uses that live in registers. -/
def usesInRegisters (p : Program) (locations : Array Location) : List UseId :=
  p.useIds.filter (inRegisters locations)

/-- The active linkages whose ends both live in registers. -/
def liveLinkages (p : Program) (locations : Array Location) : List Linkage :=
  (p.activeLinkages.map Prod.fst).filter fun l =>
    inRegisters locations l.first && inRegisters locations l.second

/-! ## The rules -/

/-- Violations by the registers that one use holds: how many they are, and for each whether it is in
the class and free of overlap with the later ones. -/
def registerViolations (m : Machine) (u : UseId) (class? : Option ClassId) :
    List RegisterId → List Violation
  | [] => []
  | r :: later =>
    (match class? with
      | some c =>
        if (m.members c).contains r then []
        else [.wrongClass u (m.registerName r) (m.className c)]
      | none => []) ++
    (if later.any (m.aliases r).contains then [.selfOverlap u (m.registerName r)] else []) ++
    registerViolations m u class? later

/-- Violations of one use. -/
def useViolations (m : Machine) (p : Program) (locations : Array Location) (u : UseId) :
    List Violation :=
  match p.use? u with
  | none => []
  | some use =>
    let held := (locationOf locations u).held
    (if held.length = use.registers then [] else [.wrongCount u held.length use.registers]) ++
      registerViolations m u use.class? held

/-- Violations of a linkage: its ends hold different registers. -/
def linkViolations (locations : Array Location) (l : Linkage) : List Violation :=
  if locationOf locations l.first = locationOf locations l.second then []
  else [.linkedApart l.first l.second]

/-- Whether some register of one list shares storage with one of the other. -/
def shareStorage (m : Machine) (rs qs : List RegisterId) : Bool :=
  qs.any fun q => rs.any fun r => (m.aliases r).contains q

/-- Violations inside the span of a linkage: uses that are not joined with it and hold a register that
shares storage with its own. -/
def spanViolations (m : Machine) (p : Program) (locations : Array Location) (joined : UnionFind)
    (uses : List UseId) (l : Linkage) : List Violation :=
  match p.span? l with
  | none => []
  | some span =>
    (uses.filter fun u =>
      (p.position? u).any span.contains && !joined.same l.first u &&
        shareStorage m (locationOf locations l.first).held (locationOf locations u).held).map
      fun u => .overwritten l.first u

/-- All violations of an allocation: those of each use, of each linkage, and of each span. -/
def violations (m : Machine) (p : Program) (locations : Array Location) : List Violation :=
  let uses := usesInRegisters p locations
  let linkages := liveLinkages p locations
  let joined := Program.unite p.uses.size linkages
  uses.flatMap (useViolations m p locations) ++
    linkages.flatMap (linkViolations locations) ++
    linkages.flatMap (spanViolations m p locations joined uses)

/-! ## Locations that do not fit the program -/

/-- The fault of asking for the location of a use that has none. -/
def locationFault? (locations : Array Location) (u : UseId) : Option Fault :=
  if u < locations.size then none else some (.missingLocation u)

/-- The fault of asking for a use that is not there. -/
def useFault? (p : Program) (u : UseId) : Option Fault :=
  if (p.use? u).isSome then none else some (.missingUse u)

/-- The fault that the ends of a linkage lead to, if any: both need a location, the second only when the
first lives in registers, and both have to be uses when both do. -/
def linkageFault? (p : Program) (locations : Array Location) (l : Linkage) : Option Fault :=
  (locationFault? locations l.first).or
    (if inRegisters locations l.first then
      (locationFault? locations l.second).or
        (if inRegisters locations l.second then (useFault? p l.first).or (useFault? p l.second)
        else none)
    else none)

/-- All violations of some locations, or the fault of a location or use that is missing. -/
def checkLegal (m : Machine) (p : Program) (locations : Array Location) :
    Except Fault (List Violation) :=
  let ofUses := p.useIds.findSome? (locationFault? locations)
  let ofLinkages := p.activeLinkages.findSome? fun (l, _) => linkageFault? p locations l
  match ofUses.or ofLinkages with
  | some f => .error f
  | none => .ok (violations m p locations)

end RegisterColoring
