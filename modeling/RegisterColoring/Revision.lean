import RegisterColoring.Allocation.Basic
import RegisterColoring.Coloring

/-! # Revising a program after a failed attempt

A group that went without registers can be helped by breaking linkages: for each register of its class
that a neighbour keeps from it, the linkages behind that interference are a way to free the register.
Groups are helped one after the other, always the one whose cheapest way breaks the fewest linkages that
are not broken yet. A group that no neighbour blocks cannot be helped: it goes to memory or makes the
allocation fail.

* `waysOut`: the sets of linkages, each of which frees a register for a group.
* `helpAll`: the order of help, and what each group breaks.
* `Revision.choose`: what to break and what to move to memory. -/

namespace RegisterColoring

/-! ## Ways out -/

/-- A neighbour that holds registers, and the registers it blocks. -/
structure Blocker where
  /-- The neighbour. -/
  group : GroupId
  /-- The registers that share storage with what it holds. -/
  aliases : RegisterSet
  deriving Repr

/-- The neighbours of `g` that hold registers. -/
def blockers (m : Machine) (graph : Interference) (a : Assignment) (g : GroupId) :
    List Blocker :=
  ((graph.neighbors g).filter fun n => !(a.heldBy n).isEmpty).map fun n =>
    ⟨n, m.aliasesOfAll (a.heldBy n)⟩

/-- The linkages behind the interference of `g` with those that block `r`. -/
def wayOut (graph : Interference) (g : GroupId) (bs : List Blocker) (r : RegisterId) :
    List LinkageId :=
  (bs.filter fun b => b.aliases.contains r).foldl
    (fun found b => unionAscending (graph.linkagesBehind g b.group) found) []

/-- The sets of linkages, each of which frees a register of the class of `g`: one for every register
that is blocked, in the order of the registers and without repetition. -/
def waysOut (m : Machine) (groups : Groups) (graph : Interference) (a : Assignment)
    (g : GroupId) : List (List LinkageId) :=
  let bs := blockers m graph a g
  (((m.members (groups.get g).classId).toList.map (wayOut graph g bs)).filter
    fun way => !way.isEmpty).eraseDups

/-! ## Order of help -/

/-- A group in need, with its ways out. -/
structure Need where
  /-- The group. -/
  group : GroupId
  /-- Its ways out. -/
  ways : List (List LinkageId)
  deriving Repr, DecidableEq

/-- How many linkages of a way out are not broken yet. -/
def cost (broken way : List LinkageId) : Nat :=
  (way.filter fun l => !broken.contains l).length

/-- The way out that breaks the fewest linkages anew, the first on ties. -/
def Need.cheapest? (broken : List LinkageId) (n : Need) : Option (List LinkageId) :=
  leastBy? (fun w v => cost broken w < cost broken v) n.ways

/-- What the cheapest way out costs. -/
def Need.price (broken : List LinkageId) (n : Need) : Nat :=
  match n.cheapest? broken with
  | some way => cost broken way
  | none => 0

/-- Whether a group is helped before another: by price, then by position. -/
def Need.before (broken : List LinkageId) (n k : Need) : Bool :=
  n.price broken < k.price broken || (n.price broken == k.price broken && n.group < k.group)

/-- The choice of a way out for one group. -/
structure Rescue where
  /-- The group that is helped. -/
  group : GroupId
  /-- The linkages that are broken for it. -/
  way : List LinkageId
  deriving Repr, DecidableEq

/-- Help all groups, one after the other; their number bounds the steps. -/
def helpAll : Nat → List Need → List LinkageId → List Rescue
  | 0, _, _ => []
  | steps + 1, needs, broken =>
    match leastBy? (Need.before broken) needs with
    | none => []
    | some n =>
      let way := (n.cheapest? broken).getD []
      ⟨n.group, way⟩ :: helpAll steps (needs.erase n) (unionAscending way broken)

/-! ## The revision -/

/-- What to change before the next attempt. -/
structure Revision where
  /-- The groups that are helped, in order. -/
  rescues : List Rescue
  /-- The groups that go to memory. -/
  evicted : List GroupId
  deriving Repr, DecidableEq

namespace Revision

/-- The linkages to break, ascending. -/
def cuts (d : Revision) : List LinkageId :=
  d.rescues.foldl (fun found r => unionAscending r.way found) []

/-- Whether nothing changes. -/
def isEmpty (d : Revision) : Bool :=
  d.cuts.isEmpty && d.evicted.isEmpty

end Revision

/-- The error for a group that does not fit its class although nothing blocks it. -/
def misfit (m : Machine) (p : Program) (groups : Groups) (g : GroupId) : AllocationError :=
  let group := groups.get g
  let named : Except Fault AllocationError := do
    let use ← p.useOrFault (group.members.headD 0)
    let function ← p.nameOfFunction use.function
    return .doesNotFit function use.kind use.operation (m.className group.classId) group.registers
      (m.capacity group.classId)
  match named with
  | .ok e => e
  | .error f => .fault f

/-- Why nothing can be done for a group: it is not there, or it has no way out and may not go to
memory. -/
def refusal? (m : Machine) (p : Program) (groups : Groups) (settings : Settings) (n : Need) :
    Option AllocationError :=
  if groups.size ≤ n.group then some (.fault (.missingGroup n.group))
  else if n.ways.isEmpty && !settings.spillUnallocatable then some (misfit m p groups n.group)
  else none

/-- What to break for the groups in `uncolored`, and which of them to move to memory. The first group
that nothing can be done for makes the revision fail. -/
def Revision.choose (m : Machine) (p : Program) (groups : Groups) (graph : Interference)
    (a : Assignment) (uncolored : List GroupId) (settings : Settings) :
    Except AllocationError Revision :=
  let needs := uncolored.map fun g => Need.mk g (waysOut m groups graph a g)
  match needs.findSome? (refusal? m p groups settings) with
  | some e => .error e
  | none =>
    let helped := needs.filter fun n => !n.ways.isEmpty
    let helpless := needs.filter fun n => n.ways.isEmpty
    .ok ⟨helpAll helped.length helped [], helpless.map Need.group⟩

end RegisterColoring
