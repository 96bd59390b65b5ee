import RegisterColoring.Arrange.Bisection
import RegisterColoring.Arrange.Gathering
import RegisterColoring.Grouping.Group
import RegisterColoring.Interference.PairMatrix

/-! # Interference between groups

An active linkage whose ends are in one block keeps its registers busy from the one end to the other,
ends included. A use of another group in that span intrudes on it, and the two groups interfere.

* `Span`: the stretch of a block that a linkage keeps busy.
* `usesByBlock`: the uses of each block in the order of their places, in which those of a span are a stretch.
* `encounters`: every use that lies in the span of a linkage of another group.
* `edgesOf`: the encounters gathered by the two groups that they set against each other.
* `Interference.ofGroups`: which groups interfere, as a relation on pairs, as lists of neighbours, as a list of
  edges and as an index into it, to which the edges are added one by one. -/

namespace RegisterColoring

/-- A use that lies inside the span of an active linkage of another group. -/
structure Intrusion where
  /-- The linkage. -/
  linkage : LinkageId
  /-- The use. -/
  use : UseId
  deriving Repr, DecidableEq

/-- Two groups that interfere, and why. -/
structure Edge where
  /-- The lower group. -/
  first : GroupId
  /-- The higher group. -/
  second : GroupId
  /-- The uses of one in spans of the other, in order of linkage, and of position within a linkage. -/
  intrusions : List Intrusion
  deriving Repr, DecidableEq

/-- The interference of the groups of an attempt. -/
structure Interference where
  /-- Whether two groups interfere. -/
  matrix : PairMatrix
  /-- The neighbours of each group. -/
  adjacency : Array (List GroupId)
  /-- The edges. -/
  edgeTable : Array Edge
  /-- For two groups that interfere, the lower first, where their edge is among the edges. -/
  edgeIndex : Std.TreeMap (GroupId × GroupId) Nat pairOrder
  deriving Repr

/-! ## Spans -/

/-- A stretch of a block, both ends included. -/
structure Span where
  /-- The block. -/
  block : Nat
  /-- Where it starts. -/
  start : Nat
  /-- Where it stops. -/
  stop : Nat
  deriving Repr, DecidableEq

namespace Span

/-- The span between two positions, if they are in one block. -/
def between? (a b : Position) : Option Span :=
  if a.block = b.block then some ⟨a.block, min a.offset b.offset, max a.offset b.offset⟩ else none

/-- Whether a position lies in the span. -/
def contains (s : Span) (a : Position) : Bool :=
  a.block == s.block && s.start ≤ a.offset && a.offset ≤ s.stop

end Span

namespace Program

/-- The span of a linkage, if both of its ends have positions in one block. -/
def span? (p : Program) (l : Linkage) : Option Span := do
  Span.between? (← p.position? l.first) (← p.position? l.second)

end Program

/-! ## Encounters -/

/-- A use with its position. -/
structure PlacedUse where
  /-- The use. -/
  use : UseId
  /-- Its position. -/
  position : Position
  deriving Repr, DecidableEq

/-- Whether one use comes before another of its block; at one position the lower use comes first. -/
def PlacedUse.before (a b : PlacedUse) : Bool :=
  a.position.offset < b.position.offset ||
    (a.position.offset == b.position.offset && a.use < b.use)

/-- The uses that have a group and a position. -/
def placedUses (p : Program) (groups : Groups) : List PlacedUse :=
  p.useIds.filterMap fun u =>
    match p.position? u, groups.ofUse? u with
    | some position, some _ => some ⟨u, position⟩
    | _, _ => none

/-- The uses that have a group and a position by their blocks, in each block in the order of their places. -/
def usesByBlock (p : Program) (groups : Groups) : Std.TreeMap Nat (Array PlacedUse) :=
  (gatherBy compare (fun u : PlacedUse => u.position.block) id (placedUses p groups)).map fun _ uses =>
    (sortBy PlacedUse.before uses.toList).toArray

/-- Of the uses of a block, in the order of their places, those that lie in the span. -/
def Span.usesInside (s : Span) (uses : Array PlacedUse) : List PlacedUse :=
  between (fun u => u.position.offset < s.start) (fun u => u.position.offset ≤ s.stop) uses

/-- An intrusion and the two groups it sets against each other, the lower first. -/
structure Encounter where
  /-- The lower group. -/
  first : GroupId
  /-- The higher group. -/
  second : GroupId
  /-- The use and the linkage that it intrudes on. -/
  intrusion : Intrusion
  deriving Repr, DecidableEq

/-- The encounters in the span of one linkage: the uses of other groups inside it, in order. -/
def encountersOf (p : Program) (groups : Groups) (blocks : Std.TreeMap Nat (Array PlacedUse)) (l : Linkage)
    (id : LinkageId) : List Encounter :=
  match p.span? l, groups.ofUse? l.first with
  | some span, some owner =>
    (span.usesInside (blocks.getD span.block #[])).filterMap fun u =>
      match groups.ofUse? u.use with
      | some other =>
        if other = owner then none else some ⟨min owner other, max owner other, ⟨id, u.use⟩⟩
      | none => none
  | _, _ => []

/-- All encounters, in order of linkage. -/
def encounters (p : Program) (groups : Groups) : List Encounter :=
  let blocks := usesByBlock p groups
  p.activeLinkages.flatMap fun (l, id) => encountersOf p groups blocks l id

/-! ## The graph -/

/-- The edges that some encounters make, ordered by their lower and then by their higher group. -/
def edgesOf (encounters : List Encounter) : List Edge :=
  (gatherBy pairOrder (fun c : Encounter => (c.first, c.second)) Encounter.intrusion encounters).toList.map
    fun found => ⟨found.1.1, found.1.2, found.2.toList⟩

namespace Interference

/-- The graph of some groups that do not interfere. -/
def edgeless (count : Nat) : Interference :=
  ⟨.ofSize count, Array.replicate count [], #[], ∅⟩

/-- Add an edge, refused when one of its groups is not there, or both are the same: set the bit of the pair, list
each of the two groups as a neighbour of the other, and put the edge behind those that are there. -/
def addEdge? (g : Interference) (e : Edge) : Option Interference :=
  if e.first < g.adjacency.size ∧ e.second < g.adjacency.size then
    (g.matrix.replace? e.first e.second true).map fun replaced =>
      { matrix := replaced.2
        adjacency := (g.adjacency.modify e.first (· ++ [e.second])).modify e.second (· ++ [e.first])
        edgeTable := g.edgeTable.push e
        edgeIndex := g.edgeIndex.insert (e.first, e.second) g.edgeTable.size }
  else none

/-- Add an edge between two different groups that are there. -/
def addEdge (g : Interference) (e : Edge) : Interference :=
  (g.addEdge? e).getD g

/-- The graph with the neighbours of each group ascending. -/
def sortNeighbors (g : Interference) : Interference :=
  { g with adjacency := g.adjacency.map (sortBy fun x y => x < y) }

/-- The interference of some groups of a program. -/
def ofGroups (p : Program) (groups : Groups) : Interference :=
  ((edgesOf (encounters p groups)).foldl addEdge (edgeless groups.size)).sortNeighbors

/-- The edges, ordered by their lower and then by their higher group. -/
def edges (g : Interference) : List Edge :=
  g.edgeTable.toList

/-- Whether two groups interfere. -/
def interferes (g : Interference) (x y : GroupId) : Bool :=
  x != y && g.matrix.holds x y

/-- The neighbours of a group, ascending. -/
def neighbors (g : Interference) (x : GroupId) : List GroupId :=
  g.adjacency.getD x []

/-- How many neighbours a group has. -/
def degree (g : Interference) (x : GroupId) : Nat :=
  (g.neighbors x).length

/-- The edge between two groups. -/
def edge? (g : Interference) (x y : GroupId) : Option Edge :=
  g.edgeIndex[(min x y, max x y)]?.bind fun i => g.edgeTable[i]?

/-- The linkages that have to be broken for two groups to stop interfering, ascending. -/
def linkagesBehind (g : Interference) (x y : GroupId) : List LinkageId :=
  match g.edge? x y with
  | some e => unionAscending (e.intrusions.map Intrusion.linkage) []
  | none => []

/-- The graph as text: the relation on pairs, then the neighbours of each group. -/
def text (g : Interference) : String :=
  let row (adjacent : List GroupId) (x : GroupId) : String :=
    s!"\tg{x} => " ++ Text.tagged "GroupId" adjacent ++ "\n"
  "bitmatrix:" ++ g.matrix.text ++ "adjacency lists:\n" ++
    String.join (g.adjacency.toList.zipIdx.map fun (adjacent, x) => row adjacent x)

end Interference

end RegisterColoring
