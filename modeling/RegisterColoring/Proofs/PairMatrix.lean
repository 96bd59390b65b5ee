import Mathlib.Data.Sym.Sym2
import Mathlib.Tactic.Ring
import RegisterColoring.Interference.PairMatrix

/-! # What the packed bits of pairs stand for

The bits of a matrix stand for a function of unordered pairs. Every pair of different numbers below the
size has a bit of its own within the store, so a write changes the function at its pair and nowhere else.

* `PairMatrix.index_lt_bitCapacity`, `PairMatrix.index_eq_iff`: where bits lie.
* `PairMatrix.Records`: a matrix stands for a function of pairs.
* `PairMatrix.Records.replace?`: what one write does.
* `PairMatrix.Write`, `PairMatrix.replaceAll`: writes, one after the other.
* `PairMatrix.Records.replaceAll`: what a run of writes does.
* `PairMatrix.isSome_ofSize?_iff`: for how many numbers a store can be made.
* `PairMatrix.isFaithful_replaceAll`: after any writes, a pair has the bit that was written to it last. -/

namespace RegisterColoring

namespace PairMatrix

/-! ## Where bits lie -/

/-- Where the row of `j + 1` starts: behind the `j` bits of the row of `j`. -/
theorem rowStart_succ (j : Nat) : (j + 1) * (j + 1 - 1) / 2 = j * (j - 1) / 2 + j := by
  have double : (j + 1) * (j + 1 - 1) = j * (j - 1) + 2 * j := by
    cases j with
    | zero => rfl
    | succ k =>
      simp only [Nat.add_sub_cancel]
      ring
  rw [double, Nat.add_mul_div_left _ _ (by decide)]

/-- The bits of a row lie before every later row. -/
theorem rowStart_lt {i j k : Nat} (hi : i < j) (hjk : j < k) : j * (j - 1) / 2 + i < k * (k - 1) / 2 := by
  -- on the later row, from the one right behind row `j` on
  induction k with
  | zero => exact absurd hjk (Nat.not_lt_zero j)
  | succ k ih =>
    rw [rowStart_succ]
    rcases Nat.lt_succ_iff_lt_or_eq.mp hjk with hjk | rfl
    · exact (ih hjk).trans_le (Nat.le_add_right _ _)
    · omega

/-- Different pairs have different bits. -/
theorem index_inj {x y a b : Nat} (hxy : x ≠ y) (hab : a ≠ b) (h : index x y = index a b) :
    max x y = max a b ∧ min x y = min a b := by
  have below : ∀ {p q : Nat}, p ≠ q → min p q < max p q := fun hpq => by omega
  rw [index, index] at h
  -- bits of different rows lie apart, so the larger numbers agree first
  have hmax : max x y = max a b := by
    rcases Nat.lt_trichotomy (max x y) (max a b) with hlt | heq | hlt
    · have := rowStart_lt (below hxy) hlt
      omega
    · exact heq
    · have := rowStart_lt (below hab) hlt
      omega
  rw [hmax] at h
  exact ⟨hmax, by omega⟩

/-- The bit of a pair lies in the store. -/
theorem index_lt_bitCapacity {n x y : Nat} (hx : x < n) (hy : y < n) (hxy : x ≠ y) :
    index x y < (ofSize n).bitCapacity := by
  have hmax : max x y < n := by omega
  have hlt := rowStart_lt (j := max x y) (i := min x y) (by omega) hmax
  have half : n * (n - 1) / 2 ≤ (n * n + 1) / 2 := by
    refine Nat.div_le_div_right (Nat.le_succ_of_le (Nat.mul_le_mul_left n (Nat.sub_le n 1)))
  exact hlt.trans_le half

/-- The order of a pair does not matter for its bit. -/
theorem index_comm (x y : Nat) : index x y = index y x := by
  rw [index, index, max_comm, min_comm]

/-- Bits are the same exactly if the pairs are. -/
theorem index_eq_iff {n : Nat} {x y a b : Fin n} (hxy : x ≠ y) (hab : a ≠ b) :
    index x y = index a b ↔ s(x, y) = s(a, b) := by
  constructor
  · intro h
    obtain ⟨hmax, hmin⟩ := index_inj (Fin.val_ne_of_ne hxy) (Fin.val_ne_of_ne hab) h
    rw [Sym2.eq_iff, Fin.ext_iff, Fin.ext_iff, Fin.ext_iff, Fin.ext_iff]
    omega
  · intro h
    rcases Sym2.eq_iff.mp h with ⟨rfl, rfl⟩ | ⟨rfl, rfl⟩
    · rfl
    · exact index_comm _ _

/-! ## One write -/

/-- The bit of two different numbers below the size can be read. -/
theorem get?_eq_some {m : PairMatrix} {x y : Nat} (hx : x < m.size) (hy : y < m.size) (hxy : x ≠ y) :
    m.get? x y = some (m.related.contains (index x y)) :=
  if_neg (not_or.mpr ⟨hxy, Nat.not_le_of_lt (index_lt_bitCapacity hx hy hxy)⟩)

/-- The bit of two different numbers below the size can be written. -/
theorem replace?_eq_some {m : PairMatrix} {x y : Nat} (hx : x < m.size) (hy : y < m.size) (hxy : x ≠ y)
    (value : Bool) : m.replace? x y value =
      some (m.related.contains (index x y), m.withBit (index x y) value) := by
  rw [replace?, get?_eq_some hx hy hxy, Option.map_some]

/-- Setting or clearing a bit changes no other. -/
theorem contains_withBit (m : PairMatrix) (i j : Nat) (value : Bool) :
    (m.withBit i value).related.contains j = if i = j then value else m.related.contains j := by
  cases value <;> by_cases hij : i = j <;>
    simp [withBit, Std.TreeSet.contains_insert, Std.TreeSet.contains_erase, hij]

variable {n : Nat} {m : PairMatrix} {f : Sym2 (Fin n) → Bool}

/-- `m` stands for `f`: the bit of every pair of different numbers below its size is the one that `f`
names. -/
structure Records (m : PairMatrix) (f : Sym2 (Fin n) → Bool) : Prop where
  /-- The numbers that are paired are those below `n`. -/
  size_eq : m.size = n
  /-- The bits are those of `f`. -/
  contains_eq : ∀ x y : Fin n, x ≠ y → m.related.contains (index x y) = f s(x, y)

/-- At first the relation holds of no pair. -/
theorem records_ofSize (n : Nat) : (ofSize n).Records fun _ : Sym2 (Fin n) => false :=
  ⟨rfl, fun _ _ _ => Std.TreeSet.contains_emptyc⟩

namespace Records

/-- The numbers that are paired are below the size. -/
theorem val_lt_size (h : m.Records f) (x : Fin n) : x.val < m.size :=
  h.size_eq ▸ x.isLt

/-- What is read at a pair. -/
theorem get?_eq (h : m.Records f) {x y : Fin n} (hxy : x ≠ y) : m.get? x y = some (f s(x, y)) := by
  rw [get?_eq_some (h.val_lt_size x) (h.val_lt_size y) (Fin.val_ne_of_ne hxy), h.contains_eq x y hxy]

/-- A write answers the bit that was there, and changes what the matrix stands for at its pair only. -/
theorem replace? (h : m.Records f) {x y : Fin n} (hxy : x ≠ y) (value : Bool) :
    m.replace? x y value = some (f s(x, y), m.withBit (index x y) value) ∧
      (m.withBit (index x y) value).Records (Function.update f s(x, y) value) := by
  refine ⟨?_, h.size_eq, fun a b hab => ?_⟩
  · rw [replace?_eq_some (h.val_lt_size x) (h.val_lt_size y) (Fin.val_ne_of_ne hxy),
      h.contains_eq x y hxy]
  · rw [contains_withBit, Function.update_apply, h.contains_eq a b hab]
    simp only [index_eq_iff hxy hab, eq_comm (a := s(a, b))]

end Records

/-! ## Writes one after the other -/

/-- A bit to be written at a pair of different numbers below `n`. -/
structure Write (n : Nat) where
  /-- One number of the pair. -/
  first : Fin n
  /-- The other. -/
  second : Fin n
  /-- They are different. -/
  first_ne_second : first ≠ second := by decide
  /-- The bit. -/
  value : Bool

/-- The pair that is written. -/
def Write.pair (w : Write n) : Sym2 (Fin n) :=
  s(w.first, w.second)

/-- Write bits one after the other. The answer holds the bit that each of them replaced, and it is refused
when one of the writes is. -/
def replaceAll (m : PairMatrix) : List (Write n) → Option (List Bool × PairMatrix)
  | [] => some ([], m)
  | w :: writes => do
    let here ← m.replace? w.first w.second w.value
    let later ← replaceAll here.2 writes
    return (here.1 :: later.1, later.2)

/-- The bit that was written last at a pair, if any was. -/
def lastAt? (writes : List (Write n)) (pair : Sym2 (Fin n)) : Option Bool :=
  (writes.filter fun w => w.pair = pair).getLast?.map Write.value

/-- What a matrix that stands for `f` at first stands for after some writes: at every pair the bit written
last, and where there is none that of `f`. -/
def overwritten (f : Sym2 (Fin n) → Bool) (writes : List (Write n)) (pair : Sym2 (Fin n)) : Bool :=
  (lastAt? writes pair).getD (f pair)

/-- The first of some writes counts where no later one is. -/
theorem overwritten_cons (f : Sym2 (Fin n) → Bool) (w : Write n) (writes : List (Write n)) :
    overwritten f (w :: writes) = overwritten (Function.update f w.pair w.value) writes := by
  funext pair
  rw [overwritten, overwritten, lastAt?, lastAt?, List.filter_cons]
  by_cases hw : w.pair = pair
  · rw [if_pos (by simpa using hw), List.getLast?_cons, Function.update_apply, if_pos hw.symm]
    cases (writes.filter fun w => w.pair = pair).getLast? <;> rfl
  · rw [if_neg (by simpa using hw), Function.update_apply, if_neg (Ne.symm hw)]

/-- A run of writes is never refused. Each of them answers what its pair had after those before it, and in
the end every pair has the bit written last. -/
theorem Records.replaceAll (h : m.Records f) (writes : List (Write n)) :
    ∃ olds final, m.replaceAll writes = some (olds, final) ∧ final.Records (overwritten f writes) ∧
      olds.length = writes.length ∧
      ∀ i w, writes[i]? = some w → olds[i]? = some (overwritten f (writes.take i) w.pair) := by
  induction writes generalizing m f with
  | nil => exact ⟨[], m, rfl, h, rfl, fun i w hw => by simp at hw⟩
  | cons w writes ih =>
    obtain ⟨hwrite, hm⟩ := h.replace? w.first_ne_second w.value
    obtain ⟨olds, final, hrun, hfinal, hlength, holds⟩ := ih hm
    refine ⟨f w.pair :: olds, final, ?_, ?_, by rw [List.length_cons, List.length_cons, hlength], ?_⟩
    · simp only [PairMatrix.replaceAll, hwrite, Option.bind_eq_bind, Option.bind_some, hrun]
      rfl
    · rwa [overwritten_cons]
    · intro i w' hw'
      cases i with
      | zero =>
        obtain rfl : w = w' := by simpa using hw'
        rfl
      | succ i =>
        rw [List.take_succ_cons, overwritten_cons]
        exact holds i w' hw'

/-- What a run of writes from the empty relation on the numbers below `n` gives: the bits they replaced
and the matrix they leave. -/
structure IsFaithful (writes : List (Write n)) (olds : List Bool) (m : PairMatrix) : Prop where
  /-- The store has one bit for every two cells of the square, rounded up. -/
  bitCapacity_eq : m.bitCapacity = (n * n + 1) / 2
  /-- The bit of every pair lies in it. -/
  index_lt : ∀ x y : Fin n, x ≠ y → index x y < m.bitCapacity
  /-- Every pair has the bit that was written to it last, and none that was not written to is related. -/
  get?_eq : ∀ x y : Fin n, x ≠ y → m.get? x y = some ((lastAt? writes s(x, y)).getD false)
  /-- The relation is symmetric. -/
  get?_comm : ∀ x y : Fin n, m.get? x y = m.get? y x
  /-- Every write has an answer. -/
  length_olds : olds.length = writes.length
  /-- The answer of a write is the bit that was written last to its pair before it. -/
  olds_eq : ∀ i w, writes[i]? = some w →
    olds[i]? = some ((lastAt? (writes.take i) w.pair).getD false)
  /-- A further write answers what is read at its pair, and changes what is read there and at no other
  pair. -/
  replace?_eq : ∀ w : Write n, ∃ old m', m.replace? w.first w.second w.value = some (old, m') ∧
    m.get? w.first w.second = some old ∧ m'.get? w.first w.second = some w.value ∧
    ∀ x y : Fin n, s(x, y) ≠ w.pair → m'.get? x y = m.get? x y

/-- A number is not paired with itself. -/
theorem get?_self (m : PairMatrix) (x : Nat) : m.get? x x = none :=
  if_pos (.inl rfl)

/-- A store can be made for fewer than `2 ^ 31` numbers, and for no more. -/
theorem isSome_ofSize?_iff {n : Nat} : (ofSize? n).isSome = true ↔ n < 2 ^ 31 := by
  have limit : (n * n + 1) / 2 ≤ 0x1fffffffffffffff ↔ n < 2 ^ 31 := by
    constructor
    · intro h
      by_contra hn
      have := Nat.mul_le_mul (Nat.le_of_not_lt hn) (Nat.le_of_not_lt hn)
      omega
    · intro h
      have hn : n ≤ 2 ^ 31 - 1 := by omega
      have := Nat.mul_le_mul hn hn
      omega
  rw [← limit, ofSize?, Option.isSome_ite]
  rfl

/-- The store that is made is the one of the relation that holds of no pair. -/
theorem eq_ofSize_of_ofSize? {n : Nat} {empty : PairMatrix} (h : ofSize? n = some empty) : empty = ofSize n :=
  (Option.some.inj (Option.ite_none_right_eq_some.mp h).2).symm

/-- Stores are made for fewer than `2 ^ 31` numbers. Whatever is written at pairs of different numbers below `n`, in
whatever order, no write is refused for a bit past the store. Every pair then has the bit written to it last, in
whichever order its numbers are given; each write answers the bit that it replaced; and it changes no other
pair. -/
theorem isFaithful_replaceAll (n : Nat) :
    ((ofSize? n).isSome = true ↔ n < 2 ^ 31) ∧
      ∀ empty, ofSize? n = some empty → ∀ writes : List (Write n),
        ∃ olds m, empty.replaceAll writes = some (olds, m) ∧ IsFaithful writes olds m := by
  refine ⟨isSome_ofSize?_iff, fun empty hempty writes => ?_⟩
  rw [eq_ofSize_of_ofSize? hempty]
  obtain ⟨olds, m, hrun, hm, hlength, holds⟩ := (records_ofSize n).replaceAll writes
  refine ⟨olds, m, hrun, ?_⟩
  exact {
    bitCapacity_eq := by rw [bitCapacity, hm.size_eq]
    index_lt := fun x y hxy =>
      index_lt_bitCapacity (hm.val_lt_size x) (hm.val_lt_size y) (Fin.val_ne_of_ne hxy)
    get?_eq := fun x y => hm.get?_eq
    get?_comm := fun x y => by simp only [get?, index_comm x.val, eq_comm (a := x.val)]
    length_olds := hlength
    olds_eq := holds
    replace?_eq := fun w => by
      obtain ⟨hwrite, hm'⟩ := hm.replace? w.first_ne_second w.value
      refine ⟨_, _, hwrite, hm.get?_eq w.first_ne_second, ?_, fun x y hother => ?_⟩
      · rw [hm'.get?_eq w.first_ne_second, Function.update_self]
      · by_cases hxy : x = y
        · rw [hxy, get?_self, get?_self]
        · rw [Write.pair] at hother
          rw [hm'.get?_eq hxy, hm.get?_eq hxy, Function.update_of_ne hother] }

/-- Three writes below 3, the last of which clears what the first one set. -/
def threeWrites : List (Write 3) :=
  [{ first := 0, second := 2, value := true }, { first := 1, second := 2, value := true },
    { first := 2, second := 0, value := false }]

/-- After the three writes the pair of 1 and 2 is related and that of 0 and 2 no more, and the last write answers
the bit of the first. -/
theorem isFaithful_replaceAll_threeWrites :
    ofSize? 3 = some (ofSize 3) ∧ ∃ olds m, (ofSize 3).replaceAll threeWrites = some (olds, m) ∧
      m.get? 2 1 = some true ∧ m.get? 0 2 = some false ∧ olds[2]? = some true := by
  have made : ofSize? 3 = some (ofSize 3) := rfl
  obtain ⟨olds, m, hrun, faithful⟩ := (isFaithful_replaceAll 3).2 _ made threeWrites
  exact ⟨made, olds, m, hrun, faithful.get?_eq 2 1 (by decide), faithful.get?_eq 0 2 (by decide),
    faithful.olds_eq 2 _ rfl⟩

end PairMatrix

end RegisterColoring
