import RegisterColoring.Machine.Basic
import RegisterColoring.Program.Basic
import RegisterColoring.Text.Quoted

/-! # Register groups

A group is a set of joined uses with the one class that suits all of them and the number of registers
they need.

* `GroupDefect`: why a set of uses is no group, and the wording of it.
* `Group.ofUses`: the group of a set of uses.
* `Groups`: the groups of an attempt, and which group each use is in. -/

namespace RegisterColoring

/-- A register group, by its position among the groups of its attempt. -/
abbrev GroupId := Nat

/-- Uses that are to hold the same registers. -/
structure Group where
  /-- The uses, ascending. -/
  members : List UseId
  /-- The class that their registers come from. -/
  classId : ClassId
  /-- How many registers each of them needs. -/
  registers : Nat
  deriving Repr, DecidableEq, Inhabited

/-- Why a set of uses cannot be a group. -/
inductive GroupDefect where
  /-- Its uses need different numbers of registers. -/
  | unequalCounts (group : GroupId) (counts : List Nat)
  /-- No class lies inside all the classes it asks for. -/
  | noSharedClass (group : GroupId) (classes : List String)
  /-- None of its uses asks for a class. -/
  | noClass (group : GroupId)
  deriving DecidableEq, Repr

namespace GroupDefect

/-- The wording of a defect. -/
def message : GroupDefect → String
  | unequalCounts group counts =>
    s!"register group {group} mixes register counts " ++ Text.bracketed (counts.map toString)
  | noSharedClass group classes =>
    s!"register group {group} has no class common to " ++ Text.bracketed (classes.map Text.quoted)
  | noClass group => s!"register group {group} has no register class"

end GroupDefect

namespace Group

/-- The classes that some uses ask for, in order. -/
def requestedClasses (p : Program) (members : List UseId) : List ClassId :=
  members.filterMap fun u => (p.use? u).bind Use.class?

/-- The different numbers of registers that some uses need, in the order in which they occur. -/
def requestedCounts (p : Program) (members : List UseId) : List Nat :=
  (members.filterMap fun u => (p.use? u).map Use.registers).eraseDups

/-- Narrow a class by each of the others in turn to the largest class inside both. -/
def narrow (m : Machine) (c : ClassId) (others : List ClassId) : Option ClassId :=
  others.foldlM m.largestWithin? c

/-- A list without immediate repetitions. -/
def squeeze : List String → List String
  | a :: b :: l => if a = b then squeeze (b :: l) else a :: squeeze (b :: l)
  | l => l

/-- The group of some uses; `id` is its position. -/
def ofUses (m : Machine) (p : Program) (id : GroupId) (members : List UseId) :
    Except GroupDefect Group := do
  let requested := requestedClasses p members
  let class? ← match requested with
    | [] => pure none
    | c :: others =>
      match narrow m c others with
      | some c => pure (some c)
      | none => throw (.noSharedClass id (squeeze (requested.map m.className)))
  let counts := requestedCounts p members
  if counts.length > 1 then
    throw (.unequalCounts id counts)
  match class? with
  | none => throw (.noClass id)
  | some c => return ⟨members, c, counts.headD 0⟩

end Group

/-- The groups of an attempt. -/
structure Groups where
  /-- The groups. -/
  groups : Array Group
  /-- The group of each use that is not in memory. -/
  ofUses : Array (Option GroupId)
  deriving Repr, Inhabited

namespace Groups

/-- How many groups there are. -/
def size (g : Groups) : Nat :=
  g.groups.size

/-- The positions of all groups. -/
def ids (g : Groups) : List GroupId :=
  List.range g.size

/-- The group at a position. -/
def get (g : Groups) (id : GroupId) : Group :=
  g.groups.getD id default

/-- The group that a use is in. -/
def ofUse? (g : Groups) (u : UseId) : Option GroupId :=
  g.ofUses.getD u none

/-- The groups of the sets of a partition, or the first defect among them. -/
def ofPartition (m : Machine) (p : Program) (partition : Partition) : Except GroupDefect Groups := do
  let groups ← partition.sets.zipIdx.mapM fun (members, id) => Group.ofUses m p id members
  return ⟨groups.toArray, (p.useIds.map partition.indexOf?).toArray⟩

end Groups

end RegisterColoring
