import RegisterColoring.Machine.DigitBlocks

/-! # Sets of registers

A register is known by its position in the declaration order of its machine. A `RegisterSet` holds one
bit for each of `width` registers, as the binary digits of one number.

* `r ∈ s`, `RegisterSet.contains`: membership, false for registers past the width.
* `RegisterSet.insert`, `erase`, `union`, `sdiff`, `inter`: the set operations; the result has the width
  of the set they are applied to, and registers past that width are left out.
* `RegisterSet.toList`: the members in ascending order. -/

namespace RegisterColoring

/-- A register, by its position among the registers of its machine. -/
abbrev RegisterId := Nat

/-- A set of the registers below `width`. -/
structure RegisterSet where
  /-- How many registers the set ranges over. -/
  width : Nat
  /-- The number whose binary digit at `r` tells whether register `r` is in the set. -/
  digits : DigitBlocks
  /-- No register past the width is in the set. -/
  lt_width : ∀ r, digits.testBit r = true → r < width
  deriving DecidableEq, Repr

namespace RegisterSet

/-! ## Construction and membership -/

/-- The set without registers. -/
def empty (width : Nat) : RegisterSet :=
  ⟨width, .zero, by simp⟩

instance : Inhabited RegisterSet := ⟨empty 0⟩

/-- Whether register `r` is in the set. -/
def contains (s : RegisterSet) (r : RegisterId) : Bool :=
  s.digits.testBit r

instance : Membership RegisterId RegisterSet := ⟨fun s r => s.contains r = true⟩

instance (r : RegisterId) (s : RegisterSet) : Decidable (r ∈ s) :=
  inferInstanceAs (Decidable (s.contains r = true))

/-- Membership is the answer of `contains`. -/
theorem mem_def {r : RegisterId} {s : RegisterSet} : r ∈ s ↔ s.contains r = true := Iff.rfl

/-- Every member is below the width. -/
theorem lt_width_of_mem {r : RegisterId} {s : RegisterSet} (h : r ∈ s) : r < s.width :=
  s.lt_width r h

/-- Two sets of one width with the same members are equal. -/
theorem ext_mem {s t : RegisterSet} (hw : s.width = t.width) (h : ∀ r, r ∈ s ↔ r ∈ t) : s = t := by
  obtain ⟨w, b, _⟩ := s
  obtain ⟨w', b', _⟩ := t
  obtain rfl : w = w' := hw
  have : b = b' := DigitBlocks.ext_testBit fun i => Bool.eq_iff_iff.mpr (h i)
  subst this
  rfl

/-- The empty set has no members. -/
@[simp] theorem not_mem_empty (width : Nat) (r : RegisterId) : r ∉ empty width := by
  simp [mem_def, contains, empty]

/-! ## Adding and removing one register -/

/-- Whether `r` is among the registers the set ranges over. -/
def inRange (s : RegisterSet) (r : RegisterId) : Bool :=
  r < s.width

/-- Add a register below the width. -/
def insert (s : RegisterSet) (r : RegisterId) : RegisterSet :=
  if h : r < s.width then
    ⟨s.width, s.digits.or (.single r), fun q hq => by
      rw [DigitBlocks.testBit_or, DigitBlocks.testBit_single, Bool.or_eq_true, decide_eq_true_eq] at hq
      rcases hq with hq | rfl
      · exact s.lt_width q hq
      · exact h⟩
  else s

/-- Take a register out. -/
def erase (s : RegisterSet) (r : RegisterId) : RegisterSet :=
  ⟨s.width, s.digits.andNot (.single r), fun q hq => by
    rw [DigitBlocks.testBit_andNot, Bool.and_eq_true] at hq
    exact s.lt_width q hq.1⟩

/-- The set of the given registers that are below the width. -/
def ofList (width : Nat) (rs : List RegisterId) : RegisterSet :=
  rs.foldl insert (empty width)

/-- The empty set of a width has that width. -/
@[simp] theorem width_empty (width : Nat) : (empty width).width = width := rfl

/-- Inserting keeps the width. -/
@[simp] theorem width_insert (s : RegisterSet) (r : RegisterId) : (s.insert r).width = s.width := by
  unfold insert
  split <;> rfl

/-- Inserting adds that one register, if it is below the width. -/
@[simp] theorem mem_insert {s : RegisterSet} {r q : RegisterId} :
    q ∈ s.insert r ↔ q ∈ s ∨ (q = r ∧ r < s.width) := by
  unfold insert
  split
  · rename_i h
    simp only [mem_def, contains, DigitBlocks.testBit_or, Bool.or_eq_true, DigitBlocks.testBit_single,
      decide_eq_true_eq, h, and_true]
    exact or_congr_right eq_comm
  · rename_i h
    simp [h]

/-- Erasing keeps the width. -/
@[simp] theorem width_erase (s : RegisterSet) (r : RegisterId) : (s.erase r).width = s.width := rfl

/-- Erasing takes that one register out. -/
@[simp] theorem mem_erase {s : RegisterSet} {r q : RegisterId} : q ∈ s.erase r ↔ q ∈ s ∧ q ≠ r := by
  simp only [mem_def, contains, erase, DigitBlocks.testBit_andNot, DigitBlocks.testBit_single, ne_eq]
  cases s.digits.testBit q <;> by_cases h : r = q <;> simp [h, eq_comm]

/-- Inserting a list of registers keeps the width. -/
theorem width_foldl_insert (rs : List RegisterId) (s : RegisterSet) :
    (rs.foldl insert s).width = s.width := by
  induction rs generalizing s with
  | nil => rfl
  | cons r rs ih => simp [ih]

/-- The set of a list has the width that was asked for. -/
@[simp] theorem width_ofList (width : Nat) (rs : List RegisterId) :
    (ofList width rs).width = width := by
  simp [ofList, width_foldl_insert]

/-- Inserting a list of registers adds those below the width. -/
theorem mem_foldl_insert {rs : List RegisterId} {s : RegisterSet} {q : RegisterId} :
    q ∈ rs.foldl insert s ↔ q ∈ s ∨ (q ∈ rs ∧ q < s.width) := by
  induction rs generalizing s with
  | nil => simp
  | cons r rs ih =>
    simp only [List.foldl_cons, ih, mem_insert, width_insert, List.mem_cons]
    grind

/-- The set of a list has the members of the list that are below the width. -/
@[simp] theorem mem_ofList {width : Nat} {rs : List RegisterId} {q : RegisterId} :
    q ∈ ofList width rs ↔ q ∈ rs ∧ q < width := by
  simp [ofList, mem_foldl_insert]

/-! ## Operations on two sets -/

/-- The registers of `s`, and those of `t` that are below the width of `s`. -/
def union (s t : RegisterSet) : RegisterSet :=
  ⟨s.width, s.digits.or (t.digits.below s.width), fun q hq => by
    rw [DigitBlocks.testBit_or, DigitBlocks.testBit_below, Bool.or_eq_true, Bool.and_eq_true,
      decide_eq_true_eq] at hq
    rcases hq with hq | hq
    · exact s.lt_width q hq
    · exact hq.2⟩

/-- The registers of `s` that are not in `t`. -/
def sdiff (s t : RegisterSet) : RegisterSet :=
  ⟨s.width, s.digits.andNot t.digits, fun q hq => by
    rw [DigitBlocks.testBit_andNot, Bool.and_eq_true] at hq
    exact s.lt_width q hq.1⟩

/-- The registers in both sets. -/
def inter (s t : RegisterSet) : RegisterSet :=
  ⟨s.width, s.digits.and t.digits, fun q hq => by
    rw [DigitBlocks.testBit_and, Bool.and_eq_true] at hq
    exact s.lt_width q hq.1⟩

/-- Whether every register of `t` is below the width of `s`. -/
def covers (s t : RegisterSet) : Bool :=
  t.digits.below s.width == t.digits

/-- Whether every register of `s` is in `t`. -/
def isSubset (s t : RegisterSet) : Bool :=
  (s.digits.andNot t.digits).isZero

/-- Whether the sets share no register. -/
def isDisjoint (s t : RegisterSet) : Bool :=
  (s.digits.and t.digits).isZero

/-- A union is as wide as its first side. -/
@[simp] theorem width_union (s t : RegisterSet) : (s.union t).width = s.width := rfl

/-- A difference is as wide as its first side. -/
@[simp] theorem width_sdiff (s t : RegisterSet) : (s.sdiff t).width = s.width := rfl

/-- An intersection is as wide as its first side. -/
@[simp] theorem width_inter (s t : RegisterSet) : (s.inter t).width = s.width := rfl

/-- A union has the registers of both sides that are below the width. -/
@[simp] theorem mem_union {s t : RegisterSet} {r : RegisterId} :
    r ∈ s.union t ↔ r ∈ s ∨ (r ∈ t ∧ r < s.width) := by
  simp [mem_def, contains, union]

/-- A difference keeps what the second set lacks. -/
@[simp] theorem mem_sdiff {s t : RegisterSet} {r : RegisterId} :
    r ∈ s.sdiff t ↔ r ∈ s ∧ r ∉ t := by
  simp [mem_def, contains, sdiff]

/-- An intersection keeps what both sets have. -/
@[simp] theorem mem_inter {s t : RegisterSet} {r : RegisterId} :
    r ∈ s.inter t ↔ r ∈ s ∧ r ∈ t := by
  simp [mem_def, contains, inter]

/-- `isSubset` decides inclusion. -/
theorem isSubset_iff {s t : RegisterSet} : s.isSubset t = true ↔ ∀ r, r ∈ s → r ∈ t := by
  rw [isSubset, DigitBlocks.isZero_iff]
  refine forall_congr' fun r => ?_
  rw [DigitBlocks.testBit_andNot]
  change (s.contains r && !t.contains r) = false ↔ (s.contains r = true → t.contains r = true)
  cases s.contains r <;> cases t.contains r <;> decide

/-- `isDisjoint` decides that no register is in both. -/
theorem isDisjoint_iff {s t : RegisterSet} : s.isDisjoint t = true ↔ ∀ r, r ∈ s → r ∉ t := by
  rw [isDisjoint, DigitBlocks.isZero_iff]
  refine forall_congr' fun r => ?_
  rw [DigitBlocks.testBit_and]
  change (s.contains r && t.contains r) = false ↔ (s.contains r = true → ¬ t.contains r = true)
  cases s.contains r <;> cases t.contains r <;> decide

/-! ## Members in order -/

/-- The members in ascending order. -/
def toList (s : RegisterSet) : List RegisterId :=
  s.digits.ones

/-- How many registers are in the set. -/
def card (s : RegisterSet) : Nat :=
  s.toList.length

/-- Whether the set has no members. -/
def isEmpty (s : RegisterSet) : Bool :=
  s.digits.isZero

/-- The list of members has the members. -/
@[simp] theorem mem_toList {s : RegisterSet} {r : RegisterId} : r ∈ s.toList ↔ r ∈ s :=
  DigitBlocks.mem_ones

/-- The list of members is strictly ascending. -/
theorem pairwise_toList (s : RegisterSet) : s.toList.Pairwise (· < ·) :=
  s.digits.pairwise_ones

/-- The set as one number, whose binary digit at `r` tells whether register `r` is in the set. -/
def bits (s : RegisterSet) : Nat :=
  s.digits.toNat

/-- The digits of that number are the members. -/
theorem testBit_bits (s : RegisterSet) (r : RegisterId) : s.bits.testBit r = s.contains r :=
  s.digits.testBit_toNat r

/-- The members as text, each behind a percent sign and before a comma. -/
def text (s : RegisterSet) : String :=
  "[" ++ String.join (s.toList.map fun r => s!"%{r},") ++ "]"

end RegisterSet

end RegisterColoring
