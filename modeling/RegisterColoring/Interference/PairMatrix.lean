import Std.Data.TreeSet

/-! # A symmetric relation on pairs

One bit for every unordered pair of different numbers below a size, packed row by row: the pair of
`i < j` has its bit at `j * (j - 1) / 2 + i`. Only the bits that are set are kept.

* `PairMatrix.ofSize?`: the relation that holds of no pair, unless its bits are too many for any store.
* `PairMatrix.get?`: the bit of a pair.
* `PairMatrix.replace?`: set the bit of a pair; the answer holds the bit it had.
* Both refuse a number paired with itself and a pair whose bit lies past the store. -/

namespace RegisterColoring

/-- Bits for the pairs of different numbers below `size`. -/
structure PairMatrix where
  /-- The numbers that are paired are those below this. -/
  size : Nat
  /-- Where the bits are set. -/
  related : Std.TreeSet Nat
  deriving Repr

namespace PairMatrix

/-- The relation that holds of no pair. -/
def ofSize (size : Nat) : PairMatrix :=
  ⟨size, ∅⟩

/-- How many bits the store has. -/
def bitCapacity (m : PairMatrix) : Nat :=
  (m.size * m.size + 1) / 2

/-- The most bits that a store can have: their positions are counted in 61 binary digits. -/
def bitLimit : Nat := 0x1fffffffffffffff

/-- The relation that holds of no pair, refused when its store would have too many bits. -/
def ofSize? (size : Nat) : Option PairMatrix :=
  if (ofSize size).bitCapacity ≤ bitLimit then some (ofSize size) else none

/-- Where the bit of the pair of `x` and `y` lies. -/
def index (x y : Nat) : Nat :=
  max x y * (max x y - 1) / 2 + min x y

/-- The bit of the pair of `x` and `y`. -/
def get? (m : PairMatrix) (x y : Nat) : Option Bool :=
  if x = y ∨ m.bitCapacity ≤ index x y then none else some (m.related.contains (index x y))

/-- The relation with the bit at `i` set or cleared. -/
def withBit (m : PairMatrix) (i : Nat) (value : Bool) : PairMatrix :=
  { m with related := if value then m.related.insert i else m.related.erase i }

/-- Set the bit of the pair of `x` and `y`. The answer holds the bit that was there. -/
def replace? (m : PairMatrix) (x y : Nat) (value : Bool) : Option (Bool × PairMatrix) :=
  (m.get? x y).map fun old => (old, m.withBit (index x y) value)

/-- Whether the relation holds of `x` and `y`. -/
def holds (m : PairMatrix) (x y : Nat) : Bool :=
  (m.get? x y).getD false

/-! ## Text -/

/-- A number, right-aligned in four columns. -/
def rowLabel (i : Nat) : String :=
  let digits := toString i
  "".pushn ' ' (4 - digits.length) ++ digits

/-- The row of `i`: one digit for every smaller number. -/
def rowText (m : PairMatrix) (i : Nat) : String :=
  rowLabel i ++ ":[" ++ String.join ((List.range i).map fun j => if m.holds i j then "1" else "0") ++ "]\n"

/-- The lower triangle, one line for every number but 0, after a line break. -/
def text (m : PairMatrix) : String :=
  "\n" ++ String.join ((List.range (m.size - 1)).map fun i => m.rowText (i + 1))

end PairMatrix

end RegisterColoring
