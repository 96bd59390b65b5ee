import RegisterColoring.Machine.ClassForest
import RegisterColoring.Machine.Coverage

/-! # Target machines

Registers that may share storage, classes of registers, and what the allocator asks about them.

* `Machine.aliases r`: the registers that share storage with `r`, itself included.
* `Machine.mostBlocked n c k`: the most registers of class `n` that `k` registers of class `c` can block.
* `Machine.ceiling n v`: how many registers of class `n` lie in the set of vertex `v`.
* `Machine.largestWithin? a b`: the largest class inside both `a` and `b`.
* `Machine.classesAround c`, `Machine.classesBelow c`: the classes around `c`, and those below it. -/

namespace RegisterColoring

/-- A physical register. -/
structure Register where
  /-- Its name. -/
  name : String
  /-- The registers that share storage with it, itself included. -/
  aliases : RegisterSet
  deriving Repr, Inhabited, DecidableEq

/-- A class of registers that can stand in for each other. -/
structure RegisterClass where
  /-- Its name. -/
  name : String
  /-- The size of its registers. -/
  registerSize : Nat
  /-- The registers in the class. -/
  members : RegisterSet
  /-- The registers that share storage with a member. -/
  aliases : RegisterSet
  deriving Repr, Inhabited, DecidableEq

/-- How many registers the class has. -/
def RegisterClass.capacity (c : RegisterClass) : Nat :=
  c.members.card

/-- A target: its registers and classes, the forest of the classes' alias sets, and the worst coverage
of every class by every other. -/
structure Machine where
  /-- The name of the target. -/
  name : String
  /-- Its registers, in declaration order. -/
  registers : Array Register
  /-- Its classes, in declaration order. -/
  classes : Array RegisterClass
  /-- The forest of the alias sets of the classes. -/
  forest : ClassForest
  /-- For classes `n` and `c`, the most registers of `n` that registers of `c` can block. -/
  coverage : Array (Array CoverageRow)
  deriving Repr, Inhabited

namespace Machine

/-! ## Registers and classes -/

/-- How many registers the machine has. -/
def registerCount (m : Machine) : Nat :=
  m.registers.size

/-- How many classes the machine has. -/
def classCount (m : Machine) : Nat :=
  m.classes.size

/-- The name of a register. -/
def registerName (m : Machine) (r : RegisterId) : String :=
  (m.registers.getD r default).name

/-- The registers that share storage with `r`, itself included. -/
def aliases (m : Machine) (r : RegisterId) : RegisterSet :=
  (m.registers.getD r default).aliases

/-- The registers that share storage with one of `rs`. -/
def aliasesOfAll (m : Machine) (rs : List RegisterId) : RegisterSet :=
  rs.foldl (fun found r => found.union (m.aliases r)) (.empty m.registerCount)

/-- The class at a position. -/
def classAt (m : Machine) (c : ClassId) : RegisterClass :=
  m.classes.getD c default

/-- The name of a class. -/
def className (m : Machine) (c : ClassId) : String :=
  (m.classAt c).name

/-- The registers of a class. -/
def members (m : Machine) (c : ClassId) : RegisterSet :=
  (m.classAt c).members

/-- How many registers a class has. -/
def capacity (m : Machine) (c : ClassId) : Nat :=
  (m.classAt c).capacity

/-- The vertex of the forest that holds a class. -/
def vertexOf (m : Machine) (c : ClassId) : VertexId :=
  m.forest.vertexOf c

/-- The register of that name. -/
def registerNamed? (m : Machine) (name : String) : Option RegisterId :=
  m.registers.findIdx? fun r => r.name == name

/-- The class of that name. -/
def classNamed? (m : Machine) (name : String) : Option ClassId :=
  m.classes.findIdx? fun c => c.name == name

/-! ## Blocking -/

/-- The row for the registers of class `n` that registers of class `c` can block. -/
def coverageRow (m : Machine) (n c : ClassId) : CoverageRow :=
  (m.coverage.getD n #[]).getD c default

/-- The most registers of class `n` that `picks` registers of class `c` can block; more picks than `c`
has registers count as all of them. -/
def mostBlocked (m : Machine) (n c : ClassId) (picks : Nat) : Nat :=
  (m.coverageRow n c).get picks

/-- How many registers of class `n` lie in the set of vertex `v`. -/
def ceiling (m : Machine) (n : ClassId) (v : VertexId) : Nat :=
  ((m.members n).inter (m.forest.vertex v).set).card

/-! ## Classes around classes -/

/-- The positions of all classes. -/
def classIds (m : Machine) : List ClassId :=
  List.range m.classCount

/-- The largest class whose registers are all in both `a` and `b`, the first on ties. -/
def largestWithin? (m : Machine) (a b : ClassId) : Option ClassId :=
  leastBy? (fun c d => m.capacity d < m.capacity c)
    (m.classIds.filter fun c =>
      (m.members c).isSubset (m.members a) && (m.members c).isSubset (m.members b))

/-- The class itself, then every other class that has all its registers, smallest first. -/
def classesAround (m : Machine) (c : ClassId) : List ClassId :=
  c :: sortBy (fun a b => m.capacity a < m.capacity b)
    (m.classIds.filter fun d => d != c && (m.members c).isSubset (m.members d))

/-- The classes at the vertices below that of `c`, largest first. -/
def classesBelow (m : Machine) (c : ClassId) : List ClassId :=
  let below := (m.forest.vertex (m.vertexOf c)).descendants
  sortBy (fun a b => m.capacity b < m.capacity a)
    (m.classIds.filter fun d => below.contains (m.vertexOf d))

end Machine

end RegisterColoring
