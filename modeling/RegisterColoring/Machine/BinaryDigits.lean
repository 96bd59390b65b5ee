/-! # Binary digits

Where the binary digits of a number are set. A long number is taken apart in halves, and a half without
digits is passed over at once, so that a set of few registers out of many is listed quickly.

* `onesBefore`: the positions of the set digits, put before a list.
* `onesBefore_eq`: they are the positions below the length at which `Nat.testBit` answers true.
* `ones`: the positions of the set digits of a number of bounded length, ascending. -/

namespace RegisterColoring

/-- The positions of the set digits among the lowest `32 <<< halvings`, ascending, each moved up by
`start`, before the list `later`. -/
def onesBefore : (halvings start bits : Nat) → (later : List Nat) → List Nat
  | 0, start, bits, later => ((List.range 32).filter bits.testBit).map (start + ·) ++ later
  | halvings + 1, start, bits, later =>
    if bits = 0 then later
    else
      let half := 32 <<< halvings
      let high := bits >>> half
      onesBefore halvings start (bits ^^^ (high <<< half))
        (onesBefore halvings (start + half) high later)

/-- A number without its digits from `half` on has the digits below `half`. -/
theorem testBit_low_half (bits half i : Nat) :
    (bits ^^^ ((bits >>> half) <<< half)).testBit i = (decide (i < half) && bits.testBit i) := by
  rw [Nat.testBit_xor, Nat.testBit_shiftLeft, Nat.testBit_shiftRight]
  by_cases h : i < half
  · simp [h, Nat.not_le_of_lt h]
  · have : half + (i - half) = i := by omega
    simp [h, this, Nat.le_of_not_lt h]

/-- Listing by halves is listing digit by digit. -/
theorem onesBefore_eq (halvings start bits : Nat) (later : List Nat) :
    onesBefore halvings start bits later =
      ((List.range (32 <<< halvings)).filter bits.testBit).map (start + ·) ++ later := by
  induction halvings generalizing start bits later with
  | zero => rfl
  | succ k ih =>
    have double : 32 <<< (k + 1) = 32 <<< k + 32 <<< k := by
      rw [Nat.shiftLeft_succ]
      omega
    rw [onesBefore]
    split
    · rename_i h
      subst h
      simp
    · simp only [ih, double, List.range_add, List.filter_append, List.map_append,
        List.append_assoc, List.filter_map, List.map_map]
      congr 2
      · refine List.filter_congr fun i hi => ?_
        rw [testBit_low_half, decide_eq_true (List.mem_range.mp hi), Bool.true_and]
      · congr 1
        · simp only [Function.comp_def, Nat.add_assoc]
        · refine List.filter_congr fun i _ => ?_
          rw [Nat.testBit_shiftRight]
          rfl

/-- How often a number of `width` digits has to be halved until its parts have 32 digits. -/
def halvingsFor (width : Nat) : Nat :=
  if (width - 1) / 32 = 0 then 0 else ((width - 1) / 32).log2 + 1

/-- So many halvings are enough. -/
theorem le_shiftLeft_halvingsFor (width : Nat) : width ≤ 32 <<< halvingsFor width := by
  rw [halvingsFor]
  split
  · simp only [Nat.shiftLeft_zero]
    omega
  · have := Nat.lt_log2_self (n := (width - 1) / 32)
    rw [Nat.shiftLeft_eq]
    omega

/-- The positions of the set digits of a number that has none from `width` on, ascending. -/
def ones (width bits : Nat) : List Nat :=
  onesBefore (halvingsFor width) 0 bits []

/-- The positions of the set digits are those below `width` at which a digit is set. -/
theorem ones_eq_filter {width bits : Nat} (h : ∀ i, bits.testBit i = true → i < width) :
    ones width bits = (List.range width).filter bits.testBit := by
  obtain ⟨more, hmore⟩ := Nat.exists_eq_add_of_le (le_shiftLeft_halvingsFor width)
  have none_above : ((List.range more).map (width + ·)).filter bits.testBit = [] := by
    rw [List.filter_eq_nil_iff]
    intro i hi hbit
    obtain ⟨j, _, rfl⟩ := List.mem_map.mp hi
    have := h _ hbit
    omega
  rw [ones, onesBefore_eq, hmore, List.range_add, List.filter_append, none_above]
  simp

end RegisterColoring
