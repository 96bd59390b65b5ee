import RegisterColoring.Machine.BinaryDigits

/-! # Long binary numbers in blocks

A number that may have billions of binary digits but few that are set. Its digits are cut into blocks of
equal length, and only the blocks with a set digit are kept, so that the work on a number grows with what
is set in it and not with how far up the highest digit is.

* `blockAt`, `updateBlock`, `joinBlocks`: the block at a position, changing it, and combining the blocks of
  two numbers.
* `DigitBlocks`: a number by its blocks. Two of them with the same digits are equal (`ext_testBit`).
* `DigitBlocks.or`, `andNot`, `and`, `below`: operations digit by digit, each pinned by a `testBit` lemma.
* `DigitBlocks.ones`: the positions of the set digits, ascending. -/

namespace RegisterColoring

/-- How often a block is halved until its parts have 32 digits. -/
def blockHalvings : Nat := 7

/-- How many binary digits a block has. -/
def blockLength : Nat := 32 <<< blockHalvings

/-- A block has digits. -/
theorem blockLength_pos : 0 < blockLength := by decide

/-- Whether a number has its digits within one block. -/
def FitsBlock (d : Nat) : Prop :=
  ∀ i, d.testBit i = true → i < blockLength

/-- No digit is set outside a block where none is set at all. -/
theorem fitsBlock_zero : FitsBlock 0 := by
  simp [FitsBlock]

/-! ## Lists of blocks -/

/-- The digits of the block at position `k`. -/
def blockAt (k : Nat) : List (Nat × Nat) → Nat
  | [] => 0
  | (j, d) :: rest => if j = k then d else blockAt k rest

/-- Put the block at `k` in front, unless none of its digits is set. -/
def putBlock (k d : Nat) (rest : List (Nat × Nat)) : List (Nat × Nat) :=
  if d = 0 then rest else (k, d) :: rest

/-- Change the digits of the block at position `k` in an ascending list of blocks. -/
def updateBlock (k : Nat) (change : Nat → Nat) : List (Nat × Nat) → List (Nat × Nat)
  | [] => putBlock k (change 0) []
  | (j, d) :: rest =>
    if k < j then putBlock k (change 0) ((j, d) :: rest)
    else if j = k then putBlock k (change d) rest
    else (j, d) :: updateBlock k change rest

/-- Combine every block of the first list with the block of the second list at its position. Where the
second list has no block, that of the first list stays. -/
def joinBlocks (f : Nat → Nat → Nat) (xs ys : List (Nat × Nat)) : List (Nat × Nat) :=
  ys.foldl (fun xs y => updateBlock y.1 (f · y.2) xs) xs

/-- Blocks in ascending order, each with a set digit and none too long. -/
structure CanonicalBlocks (bs : List (Nat × Nat)) : Prop where
  /-- The positions ascend. -/
  ascending : bs.Pairwise fun a b => a.1 < b.1
  /-- Every block has a set digit. -/
  ne_zero : ∀ b ∈ bs, b.2 ≠ 0
  /-- Every block has its digits within its length. -/
  fits : ∀ b ∈ bs, FitsBlock b.2

namespace CanonicalBlocks

/-- The list without blocks is canonical. -/
theorem nil : CanonicalBlocks [] :=
  ⟨.nil, by simp, by simp⟩

/-- The blocks after the first are canonical. -/
theorem tail {b : Nat × Nat} {bs : List (Nat × Nat)} (h : CanonicalBlocks (b :: bs)) :
    CanonicalBlocks bs :=
  ⟨h.ascending.of_cons, fun c hc => h.ne_zero c (.tail _ hc), fun c hc => h.fits c (.tail _ hc)⟩

/-- The first block is the lowest. -/
theorem head_lt {b : Nat × Nat} {bs : List (Nat × Nat)} (h : CanonicalBlocks (b :: bs)) :
    ∀ c ∈ bs, b.1 < c.1 :=
  (List.pairwise_cons.mp h.ascending).1

/-- A block in front of higher ones. -/
theorem putBlock {k d : Nat} {bs : List (Nat × Nat)} (h : CanonicalBlocks bs)
    (hk : ∀ c ∈ bs, k < c.1) (hd : FitsBlock d) : CanonicalBlocks (putBlock k d bs) := by
  unfold RegisterColoring.putBlock
  split
  · exact h
  · rename_i hne
    refine ⟨List.pairwise_cons.mpr ⟨hk, h.ascending⟩, ?_, ?_⟩
    · intro b hb
      rcases List.mem_cons.mp hb with rfl | hb
      · exact hne
      · exact h.ne_zero b hb
    · intro b hb
      rcases List.mem_cons.mp hb with rfl | hb
      · exact hd
      · exact h.fits b hb

end CanonicalBlocks

/-- Where there is no block, no digit is set. -/
theorem blockAt_eq_zero {k : Nat} {bs : List (Nat × Nat)} (h : ∀ b ∈ bs, b.1 ≠ k) :
    blockAt k bs = 0 := by
  induction bs with
  | nil => rfl
  | cons b bs ih =>
    rw [blockAt, if_neg (h b (.head _)), ih fun c hc => h c (.tail _ hc)]

/-- Below the first position no digit is set. -/
theorem blockAt_eq_zero_of_lt {k : Nat} {bs : List (Nat × Nat)} (h : ∀ b ∈ bs, k < b.1) :
    blockAt k bs = 0 :=
  blockAt_eq_zero fun b hb => Nat.ne_of_gt (h b hb)

/-- The block at any position has its digits within its length. -/
theorem fitsBlock_blockAt {bs : List (Nat × Nat)} (h : CanonicalBlocks bs) (k : Nat) :
    FitsBlock (blockAt k bs) := by
  induction bs with
  | nil => exact fitsBlock_zero
  | cons b bs ih =>
    rw [blockAt]
    split
    · exact h.fits b (.head _)
    · exact ih h.tail

/-- Putting a block in front adds that block only. -/
theorem mem_putBlock {k d : Nat} {rest : List (Nat × Nat)} {b : Nat × Nat}
    (h : b ∈ putBlock k d rest) : b = (k, d) ∨ b ∈ rest := by
  unfold putBlock at h
  split at h
  · exact .inr h
  · exact List.mem_cons.mp h

/-- The block that is put in front of higher ones is found at its position, and they at theirs. -/
theorem blockAt_putBlock {k d : Nat} {rest : List (Nat × Nat)} (h : ∀ b ∈ rest, k < b.1) (j : Nat) :
    blockAt j (putBlock k d rest) = if j = k then d else blockAt j rest := by
  unfold putBlock
  split
  · rename_i hd
    split
    · rename_i hj
      rw [hj, hd, blockAt_eq_zero_of_lt h]
    · rfl
  · rw [blockAt]
    by_cases hj : j = k
    · rw [if_pos hj.symm, if_pos hj]
    · rw [if_neg (Ne.symm hj), if_neg hj]

/-- Changing a block adds no other position. -/
theorem position_updateBlock {k : Nat} {change : Nat → Nat} {bs : List (Nat × Nat)} {b : Nat × Nat}
    (h : b ∈ updateBlock k change bs) : b.1 = k ∨ b ∈ bs := by
  induction bs with
  | nil =>
    rcases mem_putBlock h with rfl | h
    · exact .inl rfl
    · exact .inr h
  | cons c bs ih =>
    rw [updateBlock] at h
    split at h
    · rcases mem_putBlock h with rfl | h
      · exact .inl rfl
      · exact .inr h
    · split at h
      · rcases mem_putBlock h with rfl | h
        · exact .inl rfl
        · exact .inr (.tail _ h)
      · rcases List.mem_cons.mp h with rfl | h
        · exact .inr (.head _)
        · exact (ih h).imp_right (.tail _)

/-- Changing a block keeps the list canonical. -/
theorem CanonicalBlocks.updateBlock {k : Nat} {change : Nat → Nat} {bs : List (Nat × Nat)}
    (h : CanonicalBlocks bs) (hc : ∀ d, FitsBlock d → FitsBlock (change d)) :
    CanonicalBlocks (updateBlock k change bs) := by
  induction bs with
  | nil => exact CanonicalBlocks.nil.putBlock (by simp) (hc 0 fitsBlock_zero)
  | cons b bs ih =>
    rw [RegisterColoring.updateBlock]
    split
    · rename_i hk
      refine h.putBlock (fun c hc => ?_) (hc 0 fitsBlock_zero)
      rcases List.mem_cons.mp hc with rfl | hc
      · exact hk
      · exact Nat.lt_trans hk (h.head_lt c hc)
    · split
      · rename_i hb
        exact h.tail.putBlock (fun c hc => hb ▸ h.head_lt c hc) (hc _ (h.fits b (.head _)))
      · rename_i hlt hne
        have rest := ih h.tail
        refine ⟨List.pairwise_cons.mpr ⟨fun c hc => ?_, rest.ascending⟩, ?_, ?_⟩
        · rcases position_updateBlock hc with hk | hc
          · omega
          · exact h.head_lt c hc
        · intro c hc
          rcases List.mem_cons.mp hc with rfl | hc
          · exact h.ne_zero _ (.head _)
          · exact rest.ne_zero c hc
        · intro c hc
          rcases List.mem_cons.mp hc with rfl | hc
          · exact h.fits _ (.head _)
          · exact rest.fits c hc

/-- Changing a block changes that block and no other. -/
theorem blockAt_updateBlock {k : Nat} {change : Nat → Nat} {bs : List (Nat × Nat)}
    (h : CanonicalBlocks bs) (j : Nat) :
    blockAt j (updateBlock k change bs) =
      if j = k then change (blockAt k bs) else blockAt j bs := by
  induction bs with
  | nil => rw [updateBlock, blockAt_putBlock (by simp)]; rfl
  | cons b bs ih =>
    rw [updateBlock]
    split
    · rename_i hk
      have above : ∀ c ∈ b :: bs, k < c.1 := by
        intro c hc
        rcases List.mem_cons.mp hc with rfl | hc
        · exact hk
        · exact Nat.lt_trans hk (h.head_lt c hc)
      rw [blockAt_putBlock above, blockAt_eq_zero_of_lt above]
    · split
      · rename_i hb
        rw [blockAt_putBlock fun c hc => hb ▸ h.head_lt c hc]
        by_cases hj : j = k
        · rw [if_pos hj, if_pos hj, blockAt, if_pos hb]
        · rw [if_neg hj, if_neg hj, blockAt, if_neg fun he => hj (he.symm.trans hb)]
      · rename_i hne
        rw [blockAt, ih h.tail]
        by_cases hj : j = k
        · rw [if_pos hj, if_pos hj, if_neg fun he => hne (he.trans hj), blockAt, if_neg hne]
        · rw [if_neg hj, if_neg hj, blockAt]

/-- Combining keeps lists canonical when it sets no digit that neither side has. -/
theorem CanonicalBlocks.joinBlocks {f : Nat → Nat → Nat} {xs ys : List (Nat × Nat)}
    (hx : CanonicalBlocks xs) (hy : CanonicalBlocks ys)
    (hf : ∀ a b i, (f a b).testBit i = true → a.testBit i = true ∨ b.testBit i = true) :
    CanonicalBlocks (joinBlocks f xs ys) := by
  induction ys generalizing xs with
  | nil => exact hx
  | cons y ys ih =>
    refine ih (hx.updateBlock fun d hd i hi => ?_) hy.tail
    rcases hf d y.2 i hi with h | h
    · exact hd i h
    · exact hy.fits y (.head _) i h

/-- Combining goes block by block. -/
theorem blockAt_joinBlocks {f : Nat → Nat → Nat} {xs ys : List (Nat × Nat)}
    (hx : CanonicalBlocks xs) (hy : CanonicalBlocks ys) (hzero : ∀ a, f a 0 = a)
    (hf : ∀ a b i, (f a b).testBit i = true → a.testBit i = true ∨ b.testBit i = true) (k : Nat) :
    blockAt k (joinBlocks f xs ys) = f (blockAt k xs) (blockAt k ys) := by
  induction ys generalizing xs with
  | nil => exact (hzero _).symm
  | cons y ys ih =>
    have updated : CanonicalBlocks (updateBlock y.1 (f · y.2) xs) :=
      hx.updateBlock fun d hd i hi => (hf d y.2 i hi).elim (hd i) (hy.fits y (.head _) i)
    have step := ih updated hy.tail
    rw [RegisterColoring.joinBlocks, List.foldl_cons]
    rw [RegisterColoring.joinBlocks] at step
    rw [step, blockAt_updateBlock hx, blockAt]
    by_cases hk : k = y.1
    · subst hk
      rw [if_pos rfl, if_pos rfl, blockAt_eq_zero_of_lt hy.head_lt, hzero]
    · rw [if_neg hk, if_neg (Ne.symm hk)]

/-- Canonical lists with the same block at every position are equal. -/
theorem eq_of_blockAt {xs ys : List (Nat × Nat)} (hx : CanonicalBlocks xs) (hy : CanonicalBlocks ys)
    (h : ∀ k, blockAt k xs = blockAt k ys) : xs = ys := by
  induction xs generalizing ys with
  | nil =>
    cases ys with
    | nil => rfl
    | cons y ys =>
      have := h y.1
      rw [blockAt, blockAt, if_pos rfl] at this
      exact absurd this.symm (hy.ne_zero y (.head _))
  | cons x xs ih =>
    cases ys with
    | nil =>
      have := h x.1
      rw [blockAt, blockAt, if_pos rfl] at this
      exact absurd this (hx.ne_zero x (.head _))
    | cons y ys =>
      have hxy : x.1 = y.1 := by
        rcases Nat.lt_trichotomy x.1 y.1 with hlt | heq | hgt
        · have := h x.1
          rw [blockAt, if_pos rfl, blockAt, if_neg (Nat.ne_of_gt hlt),
            blockAt_eq_zero_of_lt fun c hc => Nat.lt_trans hlt (hy.head_lt c hc)] at this
          exact absurd this (hx.ne_zero x (.head _))
        · exact heq
        · have := h y.1
          rw [blockAt, if_neg (Nat.ne_of_gt hgt), blockAt, if_pos rfl,
            blockAt_eq_zero_of_lt fun c hc => Nat.lt_trans hgt (hx.head_lt c hc)] at this
          exact absurd this.symm (hy.ne_zero y (.head _))
      have hdigits : x.2 = y.2 := by
        have := h x.1
        rwa [blockAt, if_pos rfl, blockAt, if_pos hxy.symm] at this
      have hrest : xs = ys := by
        refine ih hx.tail hy.tail fun k => ?_
        by_cases hk : x.1 = k
        · subst hk
          rw [blockAt_eq_zero_of_lt hx.head_lt, blockAt_eq_zero_of_lt fun c hc => hxy ▸ hy.head_lt c hc]
        · have := h k
          rwa [blockAt, if_neg hk, blockAt, if_neg (hxy ▸ hk)] at this
      rw [hrest, Prod.ext hxy hdigits]

/-! ## Numbers -/

/-- A number in binary, by the blocks of its digits. -/
structure DigitBlocks where
  /-- The positions and the digits of the blocks that have a set digit. -/
  blocks : List (Nat × Nat)
  /-- They are listed in the one way there is. -/
  canonical : CanonicalBlocks blocks
  deriving DecidableEq, Repr

namespace DigitBlocks

/-- The digit at `i`. -/
def testBit (s : DigitBlocks) (i : Nat) : Bool :=
  (blockAt (i / blockLength) s.blocks).testBit (i % blockLength)

/-- Numbers with the same digits are equal. -/
theorem ext_testBit {s t : DigitBlocks} (h : ∀ i, s.testBit i = t.testBit i) : s = t := by
  obtain ⟨xs, hx⟩ := s
  obtain ⟨ys, hy⟩ := t
  have : xs = ys := by
    refine eq_of_blockAt hx hy fun k => Nat.eq_of_testBit_eq fun i => ?_
    by_cases hi : i < blockLength
    · have := h (blockLength * k + i)
      rwa [testBit, testBit, Nat.mul_add_div blockLength_pos, Nat.div_eq_of_lt hi, Nat.add_zero,
        Nat.mul_add_mod, Nat.mod_eq_of_lt hi] at this
    · rw [Bool.eq_false_iff.mpr fun hb => hi (fitsBlock_blockAt hx k i hb),
        Bool.eq_false_iff.mpr fun hb => hi (fitsBlock_blockAt hy k i hb)]
  subst this
  rfl

/-- The number without set digits. -/
def zero : DigitBlocks :=
  ⟨[], .nil⟩

/-- Zero has no set digit. -/
@[simp] theorem testBit_zero (i : Nat) : zero.testBit i = false := by
  simp [testBit, zero, blockAt]

/-- Whether no digit is set. -/
def isZero (s : DigitBlocks) : Bool :=
  s.blocks.isEmpty

/-- A number is zero exactly if no digit is set. -/
theorem isZero_iff {s : DigitBlocks} : s.isZero = true ↔ ∀ i, s.testBit i = false := by
  constructor
  · intro h i
    rw [isZero, List.isEmpty_iff] at h
    simp [testBit, h, blockAt]
  · intro h
    have : s = zero := ext_testBit fun i => by rw [h, testBit_zero]
    rw [this]
    rfl

/-- The number whose only set digit is the one at `i`. -/
def single (i : Nat) : DigitBlocks :=
  ⟨[(i / blockLength, 1 <<< (i % blockLength))], by
    have low := Nat.mod_lt i blockLength_pos
    refine ⟨by simp, ?_, ?_⟩
    · intro b hb
      rw [List.mem_singleton] at hb
      subst hb
      simp [Nat.one_shiftLeft]
    · intro b hb j hj
      rw [List.mem_singleton] at hb
      subst hb
      rw [Nat.one_shiftLeft, Nat.testBit_two_pow, decide_eq_true_eq] at hj
      exact hj ▸ low⟩

/-- The only set digit of `single i` is the one at `i`. -/
theorem testBit_single (i j : Nat) : (single i).testBit j = decide (i = j) := by
  rw [testBit, single, blockAt, blockAt]
  split
  · rename_i h
    rw [Nat.one_shiftLeft, Nat.testBit_two_pow]
    congr 1
    refine propext ⟨fun hm => ?_, fun he => he ▸ rfl⟩
    rw [← Nat.div_add_mod i blockLength, ← Nat.div_add_mod j blockLength, h, hm]
  · rename_i h
    have : i ≠ j := fun he => h (he ▸ rfl)
    simp [this]

/-! ## Operations digit by digit -/

/-- The digits set in either number. -/
def or (s t : DigitBlocks) : DigitBlocks :=
  ⟨joinBlocks (· ||| ·) s.blocks t.blocks, s.canonical.joinBlocks t.canonical fun a b i h => by
    rwa [Nat.testBit_or, Bool.or_eq_true] at h⟩

/-- The digits set in the first number and not in the second. -/
def andNot (s t : DigitBlocks) : DigitBlocks :=
  ⟨joinBlocks (fun a b => a &&& (a ^^^ b)) s.blocks t.blocks,
    s.canonical.joinBlocks t.canonical fun a b i h => by
      rw [Nat.testBit_and, Bool.and_eq_true] at h
      exact .inl h.1⟩

/-- The digits set in both numbers: those of the first number that are not missing in the second. -/
def and (s t : DigitBlocks) : DigitBlocks :=
  s.andNot (s.andNot t)

/-- A digit of `s.or t` is set if it is in either number. -/
@[simp] theorem testBit_or (s t : DigitBlocks) (i : Nat) :
    (s.or t).testBit i = (s.testBit i || t.testBit i) := by
  rw [testBit, or, blockAt_joinBlocks s.canonical t.canonical (by simp)
    (fun a b i h => by rwa [Nat.testBit_or, Bool.or_eq_true] at h), Nat.testBit_or]
  rfl

/-- A digit of `s.andNot t` is set if it is in `s` and not in `t`. -/
@[simp] theorem testBit_andNot (s t : DigitBlocks) (i : Nat) :
    (s.andNot t).testBit i = (s.testBit i && !t.testBit i) := by
  rw [testBit, andNot, blockAt_joinBlocks s.canonical t.canonical (by simp)
    (fun a b i h => by rw [Nat.testBit_and, Bool.and_eq_true] at h; exact .inl h.1),
    Nat.testBit_and, Nat.testBit_xor]
  change (s.testBit i && (s.testBit i ^^ t.testBit i)) = _
  cases s.testBit i <;> cases t.testBit i <;> rfl

/-- A digit of `s.and t` is set if it is in both numbers. -/
@[simp] theorem testBit_and (s t : DigitBlocks) (i : Nat) :
    (s.and t).testBit i = (s.testBit i && t.testBit i) := by
  rw [and, testBit_andNot, testBit_andNot]
  cases s.testBit i <;> cases t.testBit i <;> rfl

/-- The number whose binary digits below `n`, within one block, are set. -/
def lowest (n : Nat) : Nat :=
  (1 <<< min n blockLength) - 1

/-- The digits of `lowest n` are those below `n` within the block. -/
theorem testBit_lowest (n i : Nat) : (lowest n).testBit i = decide (i < min n blockLength) := by
  rw [lowest, Nat.one_shiftLeft, Nat.testBit_two_pow_sub_one]

/-- The digits of a list of blocks that are below `n`. -/
def clipBlocks (n : Nat) : List (Nat × Nat) → List (Nat × Nat)
  | [] => []
  | (k, d) :: rest => putBlock k (d &&& lowest (n - blockLength * k)) (clipBlocks n rest)

/-- Clipping adds no position. -/
theorem position_clipBlocks {n : Nat} {bs : List (Nat × Nat)} {b : Nat × Nat}
    (h : b ∈ clipBlocks n bs) : ∃ c ∈ bs, c.1 = b.1 := by
  induction bs with
  | nil => exact absurd h List.not_mem_nil
  | cons c bs ih =>
    rcases mem_putBlock h with rfl | h
    · exact ⟨c, .head _, rfl⟩
    · obtain ⟨e, he, hp⟩ := ih h
      exact ⟨e, .tail _ he, hp⟩

/-- Clipped blocks are as high as they were. -/
theorem lt_position_clipBlocks {k n : Nat} {bs : List (Nat × Nat)} (h : ∀ c ∈ bs, k < c.1) :
    ∀ b ∈ clipBlocks n bs, k < b.1 := by
  intro b hb
  obtain ⟨c, hc, hp⟩ := position_clipBlocks hb
  exact hp ▸ h c hc

/-- Clipping keeps a list canonical. -/
theorem canonical_clipBlocks {n : Nat} {bs : List (Nat × Nat)} (h : CanonicalBlocks bs) :
    CanonicalBlocks (clipBlocks n bs) := by
  induction bs with
  | nil => exact .nil
  | cons b bs ih =>
    refine (ih h.tail).putBlock (lt_position_clipBlocks h.head_lt) fun i hi => ?_
    rw [Nat.testBit_and, Bool.and_eq_true] at hi
    exact h.fits b (.head _) i hi.1

/-- Clipping keeps of every block what lies below the bound. -/
theorem blockAt_clipBlocks {n : Nat} {bs : List (Nat × Nat)} (h : CanonicalBlocks bs) (k : Nat) :
    blockAt k (clipBlocks n bs) = blockAt k bs &&& lowest (n - blockLength * k) := by
  induction bs with
  | nil => simp [clipBlocks, blockAt]
  | cons b bs ih =>
    rw [clipBlocks, blockAt_putBlock (lt_position_clipBlocks h.head_lt), ih h.tail, blockAt]
    by_cases hk : k = b.1
    · subst hk
      rw [if_pos rfl, if_pos rfl]
    · rw [if_neg hk, if_neg (Ne.symm hk)]

/-- The digits below `n`. -/
def below (s : DigitBlocks) (n : Nat) : DigitBlocks :=
  ⟨clipBlocks n s.blocks, canonical_clipBlocks s.canonical⟩

/-- A digit of `s.below n` is set if it is in `s` and below `n`. -/
@[simp] theorem testBit_below (s : DigitBlocks) (n i : Nat) :
    (s.below n).testBit i = (s.testBit i && decide (i < n)) := by
  rw [testBit, below, blockAt_clipBlocks s.canonical, Nat.testBit_and, testBit_lowest, testBit]
  congr 2
  have low := Nat.mod_lt i blockLength_pos
  have split := Nat.div_add_mod i blockLength
  refine propext ⟨fun h => ?_, fun h => ?_⟩ <;> omega

/-! ## Positions of the set digits -/

/-- The positions of the set digits of a list of blocks. -/
def onesOfBlocks : List (Nat × Nat) → List Nat
  | [] => []
  | (k, d) :: rest => onesBefore blockHalvings (blockLength * k) d (onesOfBlocks rest)

/-- The positions that are listed are those of the set digits. -/
theorem mem_onesOfBlocks {bs : List (Nat × Nat)} (h : CanonicalBlocks bs) (i : Nat) :
    i ∈ onesOfBlocks bs ↔ (blockAt (i / blockLength) bs).testBit (i % blockLength) = true := by
  induction bs with
  | nil => simp [onesOfBlocks, blockAt]
  | cons b bs ih =>
    have low := Nat.mod_lt i blockLength_pos
    have split := Nat.div_add_mod i blockLength
    rw [onesOfBlocks, onesBefore_eq, List.mem_append, ih h.tail, blockAt]
    simp only [List.mem_map, List.mem_filter, List.mem_range]
    constructor
    · rintro (⟨j, ⟨hj, hd⟩, rfl⟩ | hrest)
      · have hj : j < blockLength := hj
        rw [Nat.mul_add_div blockLength_pos, Nat.div_eq_of_lt hj, Nat.add_zero, if_pos rfl,
          Nat.mul_add_mod, Nat.mod_eq_of_lt hj]
        exact hd
      · rw [if_neg]
        · exact hrest
        · intro he
          rw [blockAt_eq_zero_of_lt fun c hc => he ▸ h.head_lt c hc, Nat.zero_testBit] at hrest
          exact Bool.noConfusion hrest
    · intro hd
      split at hd
      · rename_i he
        exact .inl ⟨i % blockLength, ⟨low, hd⟩, by rw [he]; exact split⟩
      · exact .inr hd

/-- The positions of the set digits of a list of blocks ascend. -/
theorem pairwise_onesOfBlocks {bs : List (Nat × Nat)} (h : CanonicalBlocks bs) :
    (onesOfBlocks bs).Pairwise (· < ·) := by
  induction bs with
  | nil => exact .nil
  | cons b bs ih =>
    rw [onesOfBlocks, onesBefore_eq, List.pairwise_append]
    refine ⟨?_, ih h.tail, ?_⟩
    · refine List.Pairwise.map _ (fun a c hac => Nat.add_lt_add_left hac _) ?_
      exact List.Pairwise.filter _ List.pairwise_lt_range
    · intro i hi j hj
      obtain ⟨a, ha, rfl⟩ := List.mem_map.mp hi
      have ha : a < blockLength := List.mem_range.mp (List.mem_filter.mp ha).1
      rw [mem_onesOfBlocks h.tail] at hj
      have above : b.1 < j / blockLength := by
        apply Nat.lt_of_not_le
        intro hle
        rw [blockAt_eq_zero_of_lt fun c hc => Nat.lt_of_le_of_lt hle (h.head_lt c hc),
          Nat.zero_testBit] at hj
        exact Bool.noConfusion hj
      have := Nat.mul_le_mul_left blockLength above
      have := Nat.mul_div_le j blockLength
      rw [Nat.mul_succ] at *
      omega

/-- The positions of the set digits, ascending. -/
def ones (s : DigitBlocks) : List Nat :=
  onesOfBlocks s.blocks

/-- The positions in `s.ones` are those of the set digits. -/
@[simp] theorem mem_ones {s : DigitBlocks} {i : Nat} : i ∈ s.ones ↔ s.testBit i = true :=
  mem_onesOfBlocks s.canonical i

/-- The positions in `s.ones` ascend. -/
theorem pairwise_ones (s : DigitBlocks) : s.ones.Pairwise (· < ·) :=
  pairwise_onesOfBlocks s.canonical

/-! ## As one number -/

/-- The number that a list of blocks spells. -/
def numberOfBlocks : List (Nat × Nat) → Nat
  | [] => 0
  | (k, d) :: rest => (d <<< (blockLength * k)) ||| numberOfBlocks rest

/-- The number that a list of blocks spells has the digits of the blocks. -/
theorem testBit_numberOfBlocks {bs : List (Nat × Nat)} (h : CanonicalBlocks bs) (i : Nat) :
    (numberOfBlocks bs).testBit i = (blockAt (i / blockLength) bs).testBit (i % blockLength) := by
  induction bs with
  | nil => simp [numberOfBlocks, blockAt]
  | cons b bs ih =>
    have low := Nat.mod_lt i blockLength_pos
    have split := Nat.div_add_mod i blockLength
    rw [numberOfBlocks, Nat.testBit_or, Nat.testBit_shiftLeft, ih h.tail, blockAt]
    split
    · rename_i he
      rw [← he] at split ⊢
      have : i - blockLength * b.1 = i % blockLength := by omega
      rw [this, decide_eq_true (show blockLength * b.1 ≤ i by omega), Bool.true_and,
        blockAt_eq_zero_of_lt h.head_lt, Nat.zero_testBit, Bool.or_false]
    · rename_i hne
      suffices (decide (blockLength * b.1 ≤ i) && b.2.testBit (i - blockLength * b.1)) = false by
        rw [this, Bool.false_or]
      rw [Bool.eq_false_iff]
      intro hd
      rw [Bool.and_eq_true, decide_eq_true_eq] at hd
      have := h.fits b (.head _) _ hd.2
      refine hne (Nat.le_antisymm ?_ ?_)
      · exact (Nat.le_div_iff_mul_le blockLength_pos).mpr (by rw [Nat.mul_comm]; exact hd.1)
      · refine Nat.le_of_lt_succ ((Nat.div_lt_iff_lt_mul blockLength_pos).mpr ?_)
        rw [Nat.succ_mul, Nat.mul_comm b.1]
        omega

/-- The number in one piece. -/
def toNat (s : DigitBlocks) : Nat :=
  numberOfBlocks s.blocks

/-- The number in one piece has the same digits. -/
@[simp] theorem testBit_toNat (s : DigitBlocks) (i : Nat) : s.toNat.testBit i = s.testBit i :=
  testBit_numberOfBlocks s.canonical i

end DigitBlocks

end RegisterColoring
