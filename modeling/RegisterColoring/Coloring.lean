import RegisterColoring.Ranking

/-! # Colouring groups with registers

Groups are given registers in the reverse of the order in which they were taken out: registers of their
class that share no storage with what their neighbours hold. Among these a group takes first the one
that spares the most neighbours that still wait.

* `Assignment`: the registers that each group holds.
* `blockedFor`: the registers that the neighbours of a group keep from it.
* `registersFor?`: the registers for one group, if there are enough.
* `Coloring.ofRanks`: all groups in order, and which of them went without.
* `turnsFault?`: ranks that name a group that is not there. -/

namespace RegisterColoring

/-- The registers that each group holds; a group that holds none waits. -/
abbrev Assignment := Array (List RegisterId)

namespace Assignment

/-- No group holds registers. -/
def none (groups : Groups) : Assignment :=
  Array.replicate groups.size []

/-- The registers that a group holds. -/
def heldBy (a : Assignment) (g : GroupId) : List RegisterId :=
  a.getD g []

/-- Give registers to a group. -/
def give (a : Assignment) (g : GroupId) (rs : List RegisterId) : Assignment :=
  a.setIfInBounds g rs

end Assignment

/-- The registers that share storage with what the neighbours of `g` hold. -/
def blockedFor (m : Machine) (graph : Interference) (a : Assignment) (g : GroupId) : RegisterSet :=
  m.aliasesOfAll ((graph.neighbors g).flatMap a.heldBy)

/-- A neighbour that waits: the registers of its class, and those of them that are blocked already. -/
structure Waiting where
  /-- The registers of its class. -/
  members : RegisterSet
  /-- The registers that are blocked for it. -/
  blocked : RegisterSet
  deriving Repr

/-- The neighbours of `g` that wait. -/
def waitingNeighbors (m : Machine) (groups : Groups) (graph : Interference) (a : Assignment)
    (g : GroupId) : List Waiting :=
  ((graph.neighbors g).filter fun n => (a.heldBy n).isEmpty).map fun n =>
    ⟨m.members (groups.get n).classId, blockedFor m graph a n⟩

/-- Whether taking `r` takes nothing from a neighbour: all it would block there is blocked already. -/
def Waiting.spared (m : Machine) (w : Waiting) (r : RegisterId) : Bool :=
  ((m.aliases r).inter w.members).isSubset w.blocked

/-- How many waiting neighbours a register spares. -/
def sparedCount (m : Machine) (waiting : List Waiting) (r : RegisterId) : Nat :=
  waiting.countP fun w => w.spared m r

/-- The register that spares the most waiting neighbours, the lowest on ties. -/
def bestRegister? (m : Machine) (waiting : List Waiting) (available : RegisterSet) :
    Option RegisterId :=
  (leastBy? (fun (a b : RegisterId × Nat) => b.2 < a.2)
    (available.toList.map fun r => (r, sparedCount m waiting r))).map Prod.fst

/-- Pick the given number of registers one after the other, each time dropping all that share storage
with the pick. -/
def pickRegisters (m : Machine) (waiting : List Waiting) : Nat → RegisterSet → Option (List RegisterId)
  | 0, _ => some []
  | count + 1, available =>
    match bestRegister? m waiting available with
    | some r => (pickRegisters m waiting count (available.sdiff (m.aliases r))).map (r :: ·)
    | none => none

/-- The registers for a group, if its neighbours leave it enough. -/
def registersFor? (m : Machine) (groups : Groups) (graph : Interference) (a : Assignment)
    (g : GroupId) : Option (List RegisterId) :=
  let group := groups.get g
  pickRegisters m (waitingNeighbors m groups graph a g) group.registers
    ((m.members group.classId).sdiff (blockedFor m graph a g))

/-- Registers for groups. -/
structure Coloring where
  /-- The registers that each group holds. -/
  assignment : Assignment
  /-- Each group in the order of its turn, with the registers it was given, if any. -/
  outcomes : List (GroupId × Option (List RegisterId))
  deriving Repr

/-- Give registers to the groups of a list, one after the other. -/
def colorInOrder (m : Machine) (groups : Groups) (graph : Interference) :
    List GroupId → Assignment → Coloring
  | [], a => ⟨a, []⟩
  | g :: rest, a =>
    let chosen := registersFor? m groups graph a g
    let later := colorInOrder m groups graph rest
      (match chosen with
      | some rs => a.give g rs
      | none => a)
    ⟨later.assignment, (g, chosen) :: later.outcomes⟩

/-- The groups of all ranks in the order of their turns, from the last rank to the first. -/
def turns (ranks : List (List GroupId)) : List GroupId :=
  ranks.reverse.flatten

/-- The fault of ranks that name a group that is not there. -/
def turnsFault? (groups : Groups) (ranks : List (List GroupId)) : Option Fault :=
  ((turns ranks).find? fun g => groups.size ≤ g).map .missingGroup

/-- The turns before that of the first group that is not there. -/
def turnsBeforeFault (groups : Groups) (ranks : List (List GroupId)) : List GroupId :=
  (turns ranks).takeWhile fun g => g < groups.size

/-- Give registers to the groups of all ranks, from the last rank to the first. -/
def Coloring.ofRanks (m : Machine) (groups : Groups) (graph : Interference)
    (ranks : List (List GroupId)) (a : Assignment) : Coloring :=
  colorInOrder m groups graph (turns ranks) a

/-- The groups that went without registers, in the order of their turns. -/
def Coloring.uncolored (c : Coloring) : List GroupId :=
  c.outcomes.filterMap fun (g, chosen) => if chosen.isNone then some g else none

end RegisterColoring
