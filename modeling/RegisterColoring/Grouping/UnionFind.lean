import Std.Data.TreeMap

/-! # Union-find

Disjoint sets over the numbers below a fixed length. Every number has a parent; a number that is its own
parent is a root and stands for its set. Finding a root shortens the path it walks by pointing every
other number on it at its grandparent, and a union hangs the smaller tree under the larger. Only what a
union or a find has changed is kept, so that a structure over many numbers costs no more than what is
done with it.

* `UnionFind.singles`, `UnionFind.ofLength`: every number in a set of its own, also where the length is cut off to
  what a number can hold.
* `UnionFind.find`: the root of a number, and the structure with the shortened path.
* `UnionFind.root`: the root alone.
* `UnionFind.union`: merge two sets; of two equally large ones the lower root stays.
* `find?`, `union?`, `same?`: the same, refused for numbers that the structure does not range over. -/

namespace RegisterColoring

/-- Disjoint sets over the numbers below `length`. -/
structure UnionFind where
  /-- How many numbers the structure ranges over. -/
  length : Nat
  /-- The parent of each number that was hung under another. -/
  parent : Std.TreeMap Nat Nat
  /-- At a root that another was hung under, how many numbers its set has. -/
  size : Std.TreeMap Nat Nat
  deriving Repr

namespace UnionFind

/-- Every number below `length` in a set of its own. -/
def singles (length : Nat) : UnionFind :=
  ⟨length, ∅, ∅⟩

/-- The structure that is made when some length is asked for. Its numbers have 32 binary digits, to which the
length is cut off. -/
def ofLength (length : Nat) : UnionFind :=
  singles (length % 0x100000000)

/-- The parent of `x`; a root is its own parent. -/
def parentOf (s : UnionFind) (x : Nat) : Nat :=
  s.parent.getD x x

/-- The size recorded at `x`. -/
def sizeOf (s : UnionFind) (x : Nat) : Nat :=
  s.size.getD x 1

/-! ## Finding -/

/-- Walk at most the given number of steps towards the root of `x`, from grandparent to grandparent,
pointing each number that is left behind at the one walked to. -/
def findWithin : Nat → UnionFind → Nat → Nat × UnionFind
  | 0, s, x => (x, s)
  | steps + 1, s, x =>
    if s.parentOf x = x then (x, s)
    else
      let grandparent := s.parentOf (s.parentOf x)
      findWithin steps { s with parent := s.parent.insert x grandparent } grandparent

/-- The root of `x`, and the structure with the path to it shortened. No path is longer than the
structure, so its length bounds the walk. -/
def find (s : UnionFind) (x : Nat) : Nat × UnionFind :=
  findWithin s.length s x

/-- The root of `x`. -/
def root (s : UnionFind) (x : Nat) : Nat :=
  (s.find x).1

/-- Whether `x` and `y` are in one set. -/
def same (s : UnionFind) (x y : Nat) : Bool :=
  s.root x == s.root y

/-! ## Merging -/

/-- Hang the root `small` under the root `large`. -/
def attach (s : UnionFind) (large small : Nat) : UnionFind :=
  { s with
    parent := s.parent.insert small large
    size := s.size.insert large (s.sizeOf large + s.sizeOf small) }

/-- Of two different roots, the one that stays a root, then the one that goes under it. -/
def ordered (s : UnionFind) (a b : Nat) : Nat × Nat :=
  if s.sizeOf a < s.sizeOf b then (b, a)
  else if s.sizeOf b < s.sizeOf a then (a, b)
  else (min a b, max a b)

/-- Merge the sets of `x` and `y`. The answer tells whether they were different sets. -/
def union (s : UnionFind) (x y : Nat) : Bool × UnionFind :=
  let (a, s) := s.find x
  let (b, s) := s.find y
  if a = b then (false, s)
  else
    let (large, small) := s.ordered a b
    (true, s.attach large small)

/-! ## Checked forms -/

/-- `find`, refused when `x` is out of range. -/
def find? (s : UnionFind) (x : Nat) : Option (Nat × UnionFind) :=
  if x < s.length then some (s.find x) else none

/-- `union`, refused when `x` or `y` is out of range. -/
def union? (s : UnionFind) (x y : Nat) : Option (Bool × UnionFind) :=
  if x < s.length ∧ y < s.length then some (s.union x y) else none

/-- Whether `x` and `y` are in one set, and the structure with both paths shortened; refused when `x`
or `y` is out of range. -/
def same? (s : UnionFind) (x y : Nat) : Option (Bool × UnionFind) :=
  if x < s.length ∧ y < s.length then
    let (a, s) := s.find x
    let (b, s) := s.find y
    some (a == b, s)
  else none

end UnionFind

end RegisterColoring
