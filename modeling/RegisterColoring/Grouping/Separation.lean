import RegisterColoring.Grouping.Division
import RegisterColoring.Grouping.Joining
import RegisterColoring.Machine.Basic

/-! # Separating uses that conflict

Two uses of one set conflict when no class lies inside both of their classes, or when they name the same
slot of one operation. A set with conflicts is divided; the linkages between its parts are split for the
current attempt, and what is left active joins the uses anew.

* `Program.conflictPairs`: the conflicting pairs among some uses.
* `Program.separate`: the divided partition and the program with the linkages between parts split.
* `Separation.fault?`: what keeps a separation from being carried out, if anything does. -/

namespace RegisterColoring

/-! ## Conflicts -/

namespace Program

/-- Whether two uses ask for classes that have no class in common. -/
def incompatible (m : Machine) (a b : Use) : Bool :=
  match a.class?, b.class? with
  | some c, some d => (m.largestWithin? c d).isNone
  | _, _ => false

/-- Whether two uses of the program cannot share registers. -/
def conflict (m : Machine) (p : Program) (a b : UseId) : Bool :=
  match p.use? a, p.use? b with
  | some x, some y => incompatible m x y || x.sharesSlot y
  | _, _ => false

/-- The pairs of a use and a later one of the list that cannot share registers. -/
def conflictPairs (m : Machine) (p : Program) : List UseId → List (UseId × UseId)
  | [] => []
  | a :: rest => ((rest.filter (p.conflict m a)).map fun b => (a, b)) ++ p.conflictPairs m rest

/-- The other ends of the active linkages at each use. -/
def linkedUses (p : Program) : Array (List UseId) :=
  (p.useIds.map fun u => p.activeLinkages.filterMap fun (l, _) =>
    if l.first = u then some l.second else if l.second = u then some l.first else none).toArray

/-- How many active linkages join two uses. -/
def linkCount (linked : Array (List UseId)) (a b : UseId) : Nat :=
  (linked.getD a []).count b

/-- The active linkages whose ends are not in one set of the partition. -/
def crossing (p : Program) (partition : Partition) : List LinkageId :=
  (p.activeLinkages.filter fun (l, _) =>
    partition.indexOf? l.first != partition.indexOf? l.second).map Prod.snd

end Program

/-! ## Separation -/

/-- A set of uses and what it was divided into. -/
structure DividedSet where
  /-- The uses of the set. -/
  members : List UseId
  /-- The pairs of them that conflict. -/
  conflicts : List (UseId × UseId)
  /-- The parts, and the largest link strength that was weighed to find them. -/
  division : Division
  deriving Repr

/-- What separating the conflicts of a program leads to. -/
structure Separation where
  /-- All sets, divided where they have conflicts. -/
  divided : List DividedSet
  /-- The sets of uses that are still joined. -/
  partition : Partition
  /-- The program with the linkages between parts split. -/
  program : Program
  deriving Repr

namespace Program

/-- Divide a set of uses; without conflicts it stays one part. -/
def divideSet (m : Machine) (p : Program) (weight : UseId → UseId → Nat) (members : List UseId) :
    DividedSet :=
  let conflicts := p.conflictPairs m members
  ⟨members, conflicts, if conflicts.isEmpty then ⟨[members], 0⟩ else divide members conflicts weight⟩

/-- Divide every set that has conflicts, split the active linkages between the parts, and join the uses
anew by what is left active. -/
def separate (m : Machine) (p : Program) (partition : Partition) : Separation :=
  let divided := partition.sets.map (p.divideSet m (linkCount p.linkedUses))
  let sets := Partition.ofSets (divided.flatMap fun d => d.division.parts)
  if divided.all fun d => d.conflicts.isEmpty then ⟨divided, sets, p⟩
  else
    let q := p.splitAll (p.crossing sets)
    ⟨divided, q.joinedSets, q⟩

end Program

namespace Separation

/-- The sets that had conflicts, in order. -/
def splits (s : Separation) : List DividedSet :=
  s.divided.filter fun d => !d.conflicts.isEmpty

/-- What keeps the separation of `p` from being carried out: a link strength that is out of range, or,
when linkages have to be split, an active linkage to a use that is not there. -/
def fault? (p : Program) (s : Separation) : Option Fault :=
  if s.divided.any fun d => !d.division.inRange then some .weightOverflow
  else if s.splits.isEmpty then none
  else p.missingEnd?.map .missingUse

end Separation

end RegisterColoring
