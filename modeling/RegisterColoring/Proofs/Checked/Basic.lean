import Mathlib.Algebra.Order.BigOperators.Group.List
import Mathlib.Algebra.Order.Ring.Int
import Mathlib.Data.List.Perm.Subperm
import RegisterColoring.Machine.RegisterSet

/-! # Computations that check every step

The allocator looks numbers up in tables without asking whether they are there, and adds and multiplies in
words of a fixed width. A checked computation does the same and stops where a number is not in the table or a
result does not fit its word. When it gives a result, nothing of that kind has happened on the way.

* `Checked.word32`, `Checked.word64`: results that fit a word.
* `Checked.sum32`, `Checked.sum64`: sums all of whose parts fit.
* `Checked.setAt`, `Checked.allBelow`, `Checked.union`, `Checked.sdiff`: changes at places that are there.
* `Checked.mapM_eq_some`, `Checked.filterM_eq_some`, `Checked.filterMapM_eq_some`, `Checked.foldlM_eq_some`: a
  loop gives a result when each of its steps does. -/

namespace RegisterColoring.Checked

variable {α β : Type}

/-! ## Loops -/

/-- The elements of a list that pass a test which may stop. -/
def filterM (test : α → Option Bool) : List α → Option (List α)
  | [] => some []
  | a :: l => do
    let keep ← test a
    let rest ← filterM test l
    return if keep then a :: rest else rest

/-- Where every test gives a result, the elements that pass are found. -/
theorem filterM_eq_some {test : α → Option Bool} {P : α → Bool} {l : List α}
    (h : ∀ a ∈ l, test a = some (P a)) : filterM test l = some (l.filter P) := by
  induction l with
  | nil => rfl
  | cons a l ih =>
    rw [filterM, h a List.mem_cons_self, ih fun b hb => h b (List.mem_cons_of_mem a hb), List.filter_cons]
    rfl

/-- Where every step is known to give a result, so is the loop over a list. -/
theorem mapM_eq_pure {μ : Type → Type} [Monad μ] [LawfulMonad μ] {f : α → μ β} {g : α → β} {l : List α}
    (h : ∀ a ∈ l, f a = pure (g a)) : l.mapM f = pure (l.map g) := by
  induction l with
  | nil => exact List.mapM_nil
  | cons a l ih =>
    rw [List.mapM_cons, h a List.mem_cons_self, pure_bind, ih fun b hb => h b (List.mem_cons_of_mem a hb),
      pure_bind, List.map_cons]

theorem mapM_eq_some {f : α → Option β} {g : α → β} {l : List α} (h : ∀ a ∈ l, f a = some (g a)) :
    l.mapM f = some (l.map g) :=
  mapM_eq_pure h

/-- What a search that may stop finds in a list. -/
def filterMapM (f : α → Option (Option β)) (l : List α) : Option (List β) := do
  return (← l.mapM f).filterMap id

/-- Where every search gives a result, so does the search in a list. -/
theorem filterMapM_eq_some {f : α → Option (Option β)} {g : α → Option β} {l : List α}
    (h : ∀ a ∈ l, f a = some (g a)) : filterMapM f l = some (l.filterMap g) := by
  rw [filterMapM, mapM_eq_some h, Option.bind_eq_bind, Option.bind_some, List.filterMap_map]
  rfl

/-- Where everything that is looked up is there, all of it is found. -/
theorem mapM_eq_some_filterMap {f : α → Option β} {l : List α} (h : ∀ a ∈ l, (f a).isSome = true) :
    l.mapM f = some (l.filterMap f) := by
  induction l with
  | nil => rfl
  | cons a l ih =>
    obtain ⟨b, hb⟩ := Option.isSome_iff_exists.mp (h a List.mem_cons_self)
    rw [List.mapM_cons, hb, ih fun c hc => h c (List.mem_cons_of_mem a hc), List.filterMap_cons, hb]
    rfl

/-- Where every step gives a result from a state in which `inv` holds, and leaves one, so does the loop. -/
theorem foldlM_eq_some {f : β → α → Option β} {g : β → α → β} (inv : β → Prop) {l : List α} {b : β}
    (hb : inv b) (h : ∀ b, inv b → ∀ a ∈ l, f b a = some (g b a) ∧ inv (g b a)) :
    l.foldlM f b = some (l.foldl g b) ∧ inv (l.foldl g b) := by
  induction l generalizing b with
  | nil => exact ⟨rfl, hb⟩
  | cons a l ih =>
    obtain ⟨hstep, hnext⟩ := h b hb a List.mem_cons_self
    rw [List.foldlM_cons, hstep]
    exact ih hnext fun b hb a ha => h b hb a (List.mem_cons_of_mem _ ha)

/-! ## Words -/

/-- A number that fits 32 bits. -/
def word32 (n : Nat) : Option Nat :=
  if n < 2 ^ 32 then some n else none

/-- A number with a sign that fits 64 bits. -/
def word64 (x : Int) : Option Int :=
  if -2 ^ 63 ≤ x ∧ x < 2 ^ 63 then some x else none

theorem word32_eq_some {n : Nat} (h : n < 2 ^ 32) : word32 n = some n :=
  if_pos h

theorem word64_eq_some {x : Int} (h : -2 ^ 63 ≤ x) (h' : x < 2 ^ 63) : word64 x = some x :=
  if_pos ⟨h, h'⟩

/-- The sum of some numbers, added up from the left. -/
def sum32 (l : List Nat) : Option Nat :=
  l.foldlM (fun total n => word32 (total + n)) 0

/-- The sum of some numbers with signs, added up from the left. -/
def sum64 (l : List Int) : Option Int :=
  l.foldlM (fun total x => word64 (total + x)) 0

/-- Numbers whose sum fits can be added up. -/
theorem sum32_eq_some {l : List Nat} (h : l.sum < 2 ^ 32) : sum32 l = some l.sum := by
  have from_total : ∀ total, total + l.sum < 2 ^ 32 →
      l.foldlM (fun total n => word32 (total + n)) total = some (total + l.sum) := by
    clear h
    induction l with
    | nil => exact fun total _ => rfl
    | cons n l ih =>
      intro total h
      rw [List.sum_cons] at h ⊢
      rw [List.foldlM_cons, word32_eq_some (by omega)]
      exact (ih (total + n) (by omega)).trans (by rw [Nat.add_assoc])
  rw [sum32, from_total 0 (by omega), Nat.zero_add]

/-- Numbers can be added up when their sizes together fit. -/
theorem sum64_eq_some {l : List Int} (h : (l.map Int.natAbs).sum < 2 ^ 63) : sum64 l = some l.sum := by
  -- the total so far may have any sign, so its size stands in the bound with those of the parts to come
  have from_total : ∀ total : Int, total.natAbs + (l.map Int.natAbs).sum < 2 ^ 63 →
      l.foldlM (fun total x => word64 (total + x)) total = some (total + l.sum) := by
    clear h
    induction l with
    | nil => exact fun total _ => by rw [List.sum_nil, Int.add_zero]; rfl
    | cons x l ih =>
      intro total h
      rw [List.map_cons, List.sum_cons] at h
      rw [List.foldlM_cons, word64_eq_some (by omega) (by omega), List.sum_cons]
      exact (ih (total + x) (by omega)).trans (by rw [Int.add_assoc])
  rw [sum64, from_total 0 (by simpa using h), Int.zero_add]

/-- A sum is no larger than the sizes of its parts together. -/
theorem natAbs_sum_le (l : List Int) : l.sum.natAbs ≤ (l.map Int.natAbs).sum := by
  induction l with
  | nil => exact Nat.le_refl 0
  | cons x l ih =>
    rw [List.sum_cons, List.map_cons, List.sum_cons]
    exact (Int.natAbs_add_le x l.sum).trans (Nat.add_le_add_left ih _)

/-! ## Tables and sets -/

/-- Put `a` at a position of a table. -/
def setAt (table : Array α) (i : Nat) (a : α) : Option (Array α) :=
  if i < table.size then some (table.setIfInBounds i a) else none

theorem setAt_eq_some {table : Array α} {i : Nat} (h : i < table.size) (a : α) :
    setAt table i a = some (table.setIfInBounds i a) :=
  if_pos h

/-- Stop unless all positions are in a table of that size. -/
def allBelow (size : Nat) (positions : List Nat) : Option Unit :=
  if positions.all (· < size) then some () else none

theorem allBelow_eq_some {size : Nat} {positions : List Nat} (h : ∀ i ∈ positions, i < size) :
    allBelow size positions = some () :=
  if_pos (List.all_eq_true.mpr fun i hi => decide_eq_true (h i hi))

/-- Look up where the table is long enough. -/
theorem getElem?_eq_some_getD {table : Array α} {i : Nat} (h : i < table.size) (a : α) :
    table[i]? = some (table.getD i a) := by
  rw [Array.getD_eq_getD_getElem?, Array.getElem?_eq_getElem h, Option.getD_some]

/-- Different positions in a table are no more than it is long. -/
theorem length_le_of_nodup {positions : List Nat} {size : Nat} (hnodup : positions.Nodup)
    (h : ∀ i ∈ positions, i < size) : positions.length ≤ size := by
  have hsubset : positions ⊆ List.range size := fun i hi => List.mem_range.mpr (h i hi)
  exact (hnodup.subperm hsubset).length_le.trans_eq List.length_range

/-- A list that is not empty has a first element. -/
theorem head?_eq_some_headD {l : List α} (h : l ≠ []) (a : α) : l.head? = some (l.headD a) := by
  cases l with
  | nil => exact absurd rfl h
  | cons b l => rfl

/-- Every register of a set of no larger width is below the width. -/
theorem covers_of_width_le {s t : RegisterSet} (h : t.width ≤ s.width) : s.covers t = true := by
  rw [RegisterSet.covers, beq_iff_eq]
  -- what is below the width of `s` of the registers of `t` is all of them
  refine DigitBlocks.ext_testBit fun r => ?_
  rw [DigitBlocks.testBit_below, Bool.and_eq_left_iff_imp]
  exact fun hr => decide_eq_true ((t.lt_width r hr).trans_le h)

/-- Add the registers of `t` to `s`, all of which have to be below its width. -/
def union (s t : RegisterSet) : Option RegisterSet :=
  if s.covers t then some (s.union t) else none

/-- Take the registers of `t` out of `s`, all of which have to be below its width. -/
def sdiff (s t : RegisterSet) : Option RegisterSet :=
  if s.covers t then some (s.sdiff t) else none

theorem union_eq_some {s t : RegisterSet} (h : t.width ≤ s.width) : union s t = some (s.union t) :=
  if_pos (covers_of_width_le h)

theorem sdiff_eq_some {s t : RegisterSet} (h : t.width ≤ s.width) : sdiff s t = some (s.sdiff t) :=
  if_pos (covers_of_width_le h)

end RegisterColoring.Checked
