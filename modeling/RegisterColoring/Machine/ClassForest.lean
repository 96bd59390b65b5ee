import RegisterColoring.Arrange
import RegisterColoring.Machine.RegisterSet

/-! # The forest of alias sets

Every register class has an alias set: the registers that share storage with one of its members. When
any two of these sets nest or are disjoint, inclusion orders the distinct ones into a forest.

* `ClassForest.ofSets`: the forest of a list of alias sets, one set per class.
* `ClassForest.settle`: what is known of a vertex once its children are known.
* `Vertex`: one distinct alias set, with its place in the forest.
* `ClassForest.childrenFirst`: all vertices, children before their parent.
* `ClassForest.meet?`: the vertex of the intersection of two vertices' sets. -/

namespace RegisterColoring

/-- A register class, by its position among the classes of its machine. -/
abbrev ClassId := Nat

/-- A vertex of the class forest, by its position among the vertices. -/
abbrev VertexId := Nat

/-- One distinct alias set and its place in the forest. -/
structure Vertex where
  /-- The alias set. -/
  set : RegisterSet
  /-- The classes that have this alias set, ascending. -/
  classes : List ClassId
  /-- The vertex of the next larger set around this one. -/
  parent : Option VertexId
  /-- The vertices whose parent this is, ascending. -/
  children : List VertexId
  /-- All vertices below this one: its children, then those below each child in turn. -/
  descendants : List VertexId
  /-- How many vertices the longest chain down from here has. -/
  height : Nat
  deriving Repr, Inhabited

/-- Distinct alias sets, ordered by inclusion. -/
structure ClassForest where
  /-- The vertices, in the order in which their sets first occur. -/
  vertices : Array Vertex
  /-- The vertex of each class. -/
  classVertex : Array VertexId
  /-- Every vertex, by height and then by position: children come before their parent. -/
  childrenFirst : List VertexId
  /-- The vertices without a parent. -/
  roots : List VertexId
  deriving Repr, Inhabited

namespace ClassForest

/-! ## Parents and children -/

/-- Whether one numbered set is smaller than another. -/
def smaller (a b : RegisterSet × VertexId) : Bool :=
  a.1.card < b.1.card

/-- The smallest of the strictly larger sets around `set`, the first on ties. -/
def parentOf (sets : List RegisterSet) (set : RegisterSet) : Option VertexId :=
  (leastBy? smaller (sets.zipIdx.filter fun (other, _) =>
    set.card < other.card && set.isSubset other)).map Prod.snd

/-- The vertices whose parent is `v`, given the parent of every vertex. -/
def childrenOf (parents : List (Option VertexId)) (v : VertexId) : List VertexId :=
  (List.range parents.length).filter fun c => parents.getD c none == some v

/-! ## The forest -/

/-- The vertices of some alias sets as they are before anything is known of what is below them. -/
def leaves (aliasSets : List RegisterSet) : List Vertex :=
  let sets := aliasSets.eraseDups
  let parents := sets.map (parentOf sets)
  sets.zipIdx.map fun (set, v) =>
    { set
      classes := (List.range aliasSets.length).filter fun c => aliasSets[c]? == some set
      parent := parents.getD v none
      children := childrenOf parents v
      descendants := []
      height := 1 }

/-- A vertex with what follows from what is stored of its children: it is one higher than the highest of them, and
below it are its children, then what is below each of them in turn. -/
def settled (vertices : Array Vertex) (x : Vertex) : Vertex :=
  { x with
    descendants := x.children ++ x.children.flatMap fun c => (vertices.getD c default).descendants
    height := (x.children.map fun c => (vertices.getD c default).height).foldl max 0 + 1 }

/-- Store at a vertex what follows from what is stored of its children. -/
def settle (vertices : Array Vertex) (v : VertexId) : Array Vertex :=
  vertices.modify v (settled vertices)

/-- The numbers of some sets, from the smallest to the largest, those of equally large ones ascending. -/
def bySize (sets : List RegisterSet) : List VertexId :=
  (sortBy smaller sets.zipIdx).map Prod.snd

/-- The forest of the alias sets of some classes. A child is smaller than its parent, so in the order of their sizes
every vertex is reached when its children have been settled. -/
def ofSets (aliasSets : List RegisterSet) : ClassForest :=
  let sets := aliasSets.eraseDups
  let vertices := (bySize sets).foldl settle (leaves aliasSets).toArray
  { vertices
    classVertex := (aliasSets.map sets.idxOf).toArray
    childrenFirst := (sortBy (fun (a b : Vertex × VertexId) => a.1.height < b.1.height)
      vertices.toList.zipIdx).map Prod.snd
    roots := (List.range vertices.size).filter fun v => (vertices.getD v default).parent.isNone }

/-- How many vertices there are. -/
def size (f : ClassForest) : Nat :=
  f.vertices.size

/-- The vertex at a position. -/
def vertex (f : ClassForest) (v : VertexId) : Vertex :=
  f.vertices.getD v default

/-- The vertex of a class. -/
def vertexOf (f : ClassForest) (c : ClassId) : VertexId :=
  f.classVertex.getD c 0

/-- The vertex whose set is the intersection of the sets of `v` and `w`, if they share a register: in a
forest that is the lower of the two, when one is below the other. -/
def meet? (f : ClassForest) (v w : VertexId) : Option VertexId :=
  if v = w ∨ w ∈ (f.vertex v).descendants then some w
  else if v ∈ (f.vertex w).descendants then some v
  else none

end ClassForest

end RegisterColoring
