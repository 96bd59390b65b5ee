/-! # Arranging lists by a strict order

Stable sorting, the choice of a least element, and lists of numbers kept strictly ascending. All three
recurse on the list itself, so they also reduce inside a proof.

* `sortBy lt l`: the elements of `l`, sorted; elements that `lt` does not tell apart keep their order.
* `leastBy? lt l`: the first element of `l` that no other element is below.
* `insertAscending`, `unionAscending`: finite sets of numbers as strictly ascending lists. -/

namespace RegisterColoring

universe u

variable {α : Type u}

/-! ## Sorting -/

/-- Put `a` in front of the first element of `l` that is not below it. -/
def insertBy (lt : α → α → Bool) (a : α) : List α → List α
  | [] => [a]
  | b :: l => if lt b a then b :: insertBy lt a l else a :: b :: l

/-- The elements of a list in the order of `lt`; ties keep the order of the list. -/
def sortBy (lt : α → α → Bool) : List α → List α
  | [] => []
  | a :: l => insertBy lt a (sortBy lt l)

/-- Inserting rearranges: nothing is lost and nothing appears. -/
theorem insertBy_perm (lt : α → α → Bool) (a : α) (l : List α) :
    List.Perm (insertBy lt a l) (a :: l) := by
  induction l with
  | nil => exact List.Perm.refl _
  | cons b l ih =>
    unfold insertBy
    split
    · exact (List.Perm.cons b ih).trans (List.Perm.swap a b l)
    · exact List.Perm.refl _

/-- Sorting rearranges: nothing is lost and nothing appears. -/
theorem sortBy_perm (lt : α → α → Bool) (l : List α) : List.Perm (sortBy lt l) l := by
  induction l with
  | nil => exact List.Perm.refl _
  | cons a l ih => exact (insertBy_perm lt a _).trans (List.Perm.cons a ih)

/-- A sorted list has the members of the list it came from. -/
@[simp] theorem mem_sortBy {lt : α → α → Bool} {a : α} {l : List α} :
    a ∈ sortBy lt l ↔ a ∈ l :=
  (sortBy_perm lt l).mem_iff

/-- Sorting keeps the number of elements. -/
@[simp] theorem length_sortBy (lt : α → α → Bool) (l : List α) :
    (sortBy lt l).length = l.length :=
  (sortBy_perm lt l).length_eq

/-! ## Choosing -/

/-- The first element that no other element of the list is below, if the list has any. -/
def leastBy? (lt : α → α → Bool) : List α → Option α
  | [] => none
  | a :: l => some (l.foldl (fun best b => if lt b best then b else best) a)

/-- Only the empty list has no least element. -/
theorem leastBy?_eq_none_iff {lt : α → α → Bool} {l : List α} :
    leastBy? lt l = none ↔ l = [] := by
  cases l <;> simp [leastBy?]

/-! ## Finite sets of numbers -/

/-- Add `n` to a strictly ascending list, in its place and at most once. -/
def insertAscending (n : Nat) : List Nat → List Nat
  | [] => [n]
  | m :: l => if n < m then n :: m :: l else if n = m then m :: l else m :: insertAscending n l

/-- The numbers of either list; strictly ascending when the second list is. -/
def unionAscending (l k : List Nat) : List Nat :=
  l.foldr insertAscending k

/-- Inserting adds the number and nothing else. -/
@[simp] theorem mem_insertAscending {n m : Nat} {l : List Nat} :
    m ∈ insertAscending n l ↔ m = n ∨ m ∈ l := by
  induction l with
  | nil => simp [insertAscending]
  | cons b l ih =>
    unfold insertAscending
    split
    · simp
    · split
      · rename_i h; subst h; simp
      · simp only [List.mem_cons, ih]
        grind

/-- A union has the members of both sides. -/
@[simp] theorem mem_unionAscending {m : Nat} {l k : List Nat} :
    m ∈ unionAscending l k ↔ m ∈ l ∨ m ∈ k := by
  induction l with
  | nil => simp [unionAscending]
  | cons b l ih =>
    simp only [unionAscending, List.foldr_cons, mem_insertAscending, List.mem_cons] at ih ⊢
    rw [ih, or_assoc]

end RegisterColoring
