import RegisterColoring.Interference.Graph

/-! # Pressure

How many registers of a group's class its neighbours can block at worst. A neighbour adds the worst it
can do at the vertex of its class; every vertex hands on to its parent what it holds, but at most the
number of the group's registers that lie in its set; and what the roots hold, cut off in the same way,
is the total.

Loads and totals are integers here, and numbers of registers natural numbers, where an allocator has words of
64 and of 32 bits. For an accepted program with fewer than `2 ^ 15` uses, whose needs are written in 32 bits, on a
machine with fewer than `2 ^ 16` registers, every one of them fits its word while it is computed
(`allocate_passes_checks`), so that the words hold these values.

* `vertexLoads`, `rootLoad`: the pressure of a list of neighbours, at every vertex and in total.
* `Pressure.ofGroups`: the pressure on every group from all its neighbours.
* `Pressure.withdraw`: take away the share of some neighbours, by following the change upwards.
* `Pressure.shortfall`: how far a group is from having a register left whatever its neighbours take. -/

namespace RegisterColoring

/-- A neighbour, as far as pressure is concerned: its class and how many registers it takes. -/
structure Demand where
  /-- The class of the neighbour. -/
  classId : ClassId
  /-- How many registers it takes. -/
  registers : Nat
  deriving Repr, DecidableEq

/-- What a group demands of its neighbours. -/
def Group.demand (g : Group) : Demand :=
  ⟨g.classId, g.registers⟩

/-! ## From scratch -/

/-- The most registers of class `n` that a neighbour can block. -/
def Demand.load (m : Machine) (n : ClassId) (d : Demand) : Int :=
  (d.registers * m.mostBlocked n d.classId 1 : Nat)

/-- The value at a vertex. -/
def valueAt (values : Array Int) (v : VertexId) : Int :=
  values.getD v 0

/-- Add to the value at a vertex. -/
def addAt (values : Array Int) (v : VertexId) (x : Int) : Array Int :=
  values.modify v (· + x)

/-- What the children of a vertex hand on, when each hands on what `share` says. -/
def carried (m : Machine) (share : VertexId → Int) (v : VertexId) : Int :=
  ((m.forest.vertex v).children.map share).foldr (· + ·) 0

/-- Vertex by vertex, children before parents, add to each what its children hand on. -/
def accumulate (m : Machine) (share : Array Int → VertexId → Int) (values : Array Int) : Array Int :=
  m.forest.childrenFirst.foldl (fun values v => addAt values v (carried m (share values) v)) values

/-- The loads of some neighbours, each at the vertex of its class. -/
def directLoads (m : Machine) (n : ClassId) (ds : List Demand) : Array Int :=
  ds.foldl (fun values d => addAt values (m.vertexOf d.classId) (d.load m n))
    (Array.replicate m.forest.size 0)

/-- The value at a vertex, cut off at the number of registers of `n` in the vertex's set. -/
def capped (m : Machine) (n : ClassId) (values : Array Int) (v : VertexId) : Int :=
  min (valueAt values v) (m.ceiling n v)

/-- The pressure on class `n` at every vertex. -/
def vertexLoads (m : Machine) (n : ClassId) (ds : List Demand) : Array Int :=
  accumulate m (capped m n) (directLoads m n ds)

/-- The total of the pressure on class `n`: what the roots hold. -/
def rootLoad (m : Machine) (n : ClassId) (values : Array Int) : Int :=
  (m.forest.roots.map (capped m n values)).foldr (· + ·) 0

/-! ## Group by group -/

/-- The pressure on every group. -/
structure Pressure where
  /-- For every group, its pressure at every vertex. -/
  loads : Array (Array Int)
  /-- For every group, its total. -/
  totals : Array Int
  deriving Repr, DecidableEq, Inhabited

/-- What the neighbours of a group demand. -/
def demandsOn (groups : Groups) (graph : Interference) (g : GroupId) : List Demand :=
  (graph.neighbors g).map fun n => (groups.get n).demand

namespace Pressure

/-- The pressure on every group from all its neighbours. -/
def ofGroups (m : Machine) (groups : Groups) (graph : Interference) : Pressure :=
  let loads := groups.ids.map fun g =>
    vertexLoads m (groups.get g).classId (demandsOn groups graph g)
  let totals := loads.zipIdx.map fun (values, g) => rootLoad m (groups.get g).classId values
  ⟨loads.toArray, totals.toArray⟩

/-- The pressure on a group at every vertex. -/
def loadsOn (p : Pressure) (g : GroupId) : Array Int :=
  p.loads.getD g #[]

/-- The total pressure on a group. -/
def totalOn (p : Pressure) (g : GroupId) : Int :=
  p.totals.getD g 0

/-- How many registers a group lacks at worst; when it is not positive, the group can always be given
registers after its neighbours. -/
def shortfall (m : Machine) (groups : Groups) (p : Pressure) (g : GroupId) : Int :=
  p.totalOn g + (groups.get g).registers - m.capacity (groups.get g).classId

/-- Whether a group can always be given registers after its neighbours. -/
def alwaysFits (m : Machine) (groups : Groups) (p : Pressure) (g : GroupId) : Bool :=
  p.shortfall m groups g ≤ 0

/-! ## Withdrawal -/

/-- The change of a value cut off at `bound` when the value changes by `delta`, which is not positive. -/
def cappedChange (delta bound value : Int) : Int :=
  min 0 (max delta (delta - (bound - value)))

/-- The change of the pressure on class `n` at every vertex when some neighbours go away. -/
def loadChange (m : Machine) (n : ClassId) (loads : Array Int) (ds : List Demand) : Array Int :=
  accumulate m (fun delta v => cappedChange (valueAt delta v) (m.ceiling n v) (valueAt loads v))
    ((directLoads m n ds).map fun x => -x)

/-- Take the loads of some neighbours of `g` away. -/
def withdraw (m : Machine) (groups : Groups) (p : Pressure) (g : GroupId) (ds : List Demand) :
    Pressure :=
  let n := (groups.get g).classId
  let before := p.loadsOn g
  let after := Array.zipWith (· + ·) before (loadChange m n before ds)
  ⟨p.loads.setIfInBounds g after, p.totals.setIfInBounds g (rootLoad m n after)⟩

end Pressure

end RegisterColoring
