import RegisterColoring.Arrange.Heap

/-! # Quicksort

Sorting long lists around pivots. Short lists, and lists that are in order already, are sorted stably; in
a long one, elements that the order does not tell apart end up where the pivots leave them. Where too many
pivots have divided badly, the rest is heapsorted.

* `pivotIndex`: where the pivot of a list stands, a median of medians.
* `divideAround`: the elements that pass a test and those that do not.
* `quickSortBy lt l`: the elements of `l`, sorted.
* `quickSortBy_perm`, `pairwise_quickSortBy`: nothing is lost, and no element is below one before it. -/

namespace RegisterColoring

universe u

variable {α : Type u}

/-! ## Pivots -/

/-- The middle one of three positions. -/
def medianOf (below : Nat → Nat → Bool) (a b c : Nat) : Nat :=
  if below a b == below a c then
    if below b c == below a b then b else c
  else a

/-- The middle one of three positions, each of which first gives way to the median of the run of `n`
elements that starts there, as long as such a run has at least eight elements. -/
def medianOfRuns (below : Nat → Nat → Bool) : (depth a b c n : Nat) → Nat
  | 0, a, b, c, _ => medianOf below a b c
  | depth + 1, a, b, c, n =>
    if n < 8 then medianOf below a b c
    else
      let step := n / 8
      let median (start : Nat) : Nat :=
        medianOfRuns below depth start (start + 4 * step) (start + 7 * step) step
      medianOf below (median a) (median b) (median c)

/-- Where the pivot of a list stands: the middle one of three runs of an eighth of the list, the first,
the fifth and the eighth. -/
def pivotIndex (lt : α → α → Bool) (l : Array α) : Nat :=
  let below (i j : Nat) : Bool :=
    match l[i]?, l[j]? with
    | some a, some b => lt a b
    | _, _ => false
  let step := l.size / 8
  medianOfRuns below l.size.log2 0 (4 * step) (7 * step) step

/-- The element at a position, and the others with the first of them in its place. -/
def takeOut? (i : Nat) : List α → Option (α × List α)
  | [] => none
  | a :: l =>
    if i = 0 then some (a, l)
    else (l[i - 1]?).map fun p => (p, l.set (i - 1) a)

/-! ## Dividing -/

/-- The list with its first element at the end. -/
def firstToEnd : List α → List α
  | [] => []
  | a :: l => l ++ [a]

/-- The list with its last element at the front. -/
def endToFirst (l : List α) : List α :=
  match l.getLast? with
  | none => []
  | some a => a :: l.dropLast

/-- Put an element to those that pass a test or to those that do not, of which the first goes to the end. -/
def sift (test : α → Bool) (parts : List α × List α) (a : α) : List α × List α :=
  if test a then (parts.1 ++ [a], firstToEnd parts.2) else (parts.1, a :: firstToEnd parts.2)

/-- The elements that pass a test, and those that do not. The first element is looked at last. -/
def divideAround (test : α → Bool) (l : List α) : List α × List α :=
  let parts := (firstToEnd l).foldl (sift test) ([], [])
  (endToFirst parts.1, parts.2)

/-! ## Sorting -/

/-- Lists up to this length are sorted by inserting. -/
def shortLength : Nat := 32

/-- Sort a list in at most `limit` rounds of division, none of whose elements is below `least`. A pivot
that is no higher than `least` is a least element, and all that is no higher than it is in place. What is
still long after the last round is heapsorted. -/
def quickWithin [Inhabited α] (lt : α → α → Bool) :
    (limit : Nat) → (least : Option α) → List α → List α
  | 0, _, l => if l.length ≤ shortLength then sortBy lt l else heapSortBy lt l
  | limit + 1, least, l =>
    if l.length ≤ shortLength then sortBy lt l
    else
      match takeOut? (pivotIndex lt l.toArray) l with
      | none => sortBy lt l
      | some (p, rest) =>
        if least.any fun a => !lt a p then
          let (low, high) := divideAround (fun a => !lt p a) rest
          low ++ p :: quickWithin lt limit none high
        else
          let (low, high) := divideAround (fun a => lt a p) rest
          quickWithin lt limit least low ++ p :: quickWithin lt limit (some p) high

/-- Whether no element is below the one before it. -/
def isAscending (lt : α → α → Bool) (l : List α) : Bool :=
  (l.zip l.tail).all fun (a, b) => !lt b a

/-- The elements of a list in the order of `lt`. -/
def quickSortBy [Inhabited α] (lt : α → α → Bool) (l : List α) : List α :=
  if isAscending lt l then sortBy lt l else quickWithin lt (2 * l.length.log2) none l

/-! ## Nothing is lost -/

/-- Moving the first element rearranges. -/
theorem firstToEnd_perm (l : List α) : List.Perm (firstToEnd l) l := by
  cases l with
  | nil => exact .refl _
  | cons a l => exact List.perm_append_comm

/-- Moving the last element rearranges. -/
theorem endToFirst_perm (l : List α) : List.Perm (endToFirst l) l := by
  rw [endToFirst]
  split
  · rename_i h
    rw [List.getLast?_eq_none_iff.mp h]
  · rename_i a h
    obtain ⟨init, rfl⟩ := List.getLast?_eq_some_iff.mp h
    rw [List.dropLast_concat]
    exact (List.perm_append_singleton a init).symm

/-- An element goes to one of the two parts, and nothing else comes or goes. -/
theorem sift_perm (test : α → Bool) (parts : List α × List α) (a : α) :
    List.Perm ((sift test parts a).1 ++ (sift test parts a).2) (a :: (parts.1 ++ parts.2)) := by
  rw [sift]
  split
  · rw [List.append_assoc]
    exact List.perm_middle.trans
      (.cons a (List.Perm.append_left parts.1 (firstToEnd_perm parts.2)))
  · exact List.perm_middle.trans
      (.cons a (List.Perm.append_left parts.1 (firstToEnd_perm parts.2)))

/-- What has been put to the two parts is in them, with what they held before. -/
theorem foldl_sift_perm (test : α → Bool) (l : List α) (parts : List α × List α) :
    List.Perm ((l.foldl (sift test) parts).1 ++ (l.foldl (sift test) parts).2)
      (l ++ (parts.1 ++ parts.2)) := by
  induction l generalizing parts with
  | nil => exact .refl _
  | cons a l ih =>
    exact (ih (sift test parts a)).trans
      ((List.Perm.append_left l (sift_perm test parts a)).trans List.perm_middle)

/-- Dividing rearranges. -/
theorem divideAround_perm (test : α → Bool) (l : List α) :
    List.Perm ((divideAround test l).1 ++ (divideAround test l).2) l := by
  have h := foldl_sift_perm test (firstToEnd l) ([], [])
  simp only [List.append_nil] at h
  exact ((endToFirst_perm _).append_right _).trans (h.trans (firstToEnd_perm l))

/-- Taking out rearranges. -/
theorem perm_of_takeOut? {i : Nat} {l rest : List α} {p : α} (h : takeOut? i l = some (p, rest)) :
    List.Perm (p :: rest) l := by
  cases l with
  | nil => exact absurd h (by simp [takeOut?])
  | cons a l =>
    rw [takeOut?] at h
    split at h
    · obtain ⟨rfl, rfl⟩ := Prod.mk.inj (Option.some.inj h)
      exact .refl _
    · obtain ⟨q, hq, hr⟩ := Option.map_eq_some_iff.mp h
      obtain ⟨rfl, rfl⟩ := Prod.mk.inj hr
      obtain ⟨hi, rfl⟩ := List.getElem?_eq_some_iff.mp hq
      rw [List.set_eq_take_append_cons_drop, if_pos hi]
      calc
        List.Perm (l[i - 1] :: (l.take (i - 1) ++ a :: l.drop (i - 1 + 1)))
            (l[i - 1] :: a :: (l.take (i - 1) ++ l.drop (i - 1 + 1))) := .cons _ List.perm_middle
        List.Perm _ (a :: l[i - 1] :: (l.take (i - 1) ++ l.drop (i - 1 + 1))) := .swap _ _ _
        List.Perm _ (a :: (l.take (i - 1) ++ l[i - 1] :: l.drop (i - 1 + 1))) :=
          .cons _ List.perm_middle.symm
        List.Perm _ (a :: l) := by rw [← List.drop_eq_getElem_cons hi, List.take_append_drop]

/-- Sorting rearranges, in however many rounds. -/
theorem quickWithin_perm [Inhabited α] (lt : α → α → Bool) (limit : Nat) (least : Option α)
    (l : List α) : List.Perm (quickWithin lt limit least l) l := by
  induction limit generalizing least l with
  | zero =>
    rw [quickWithin]
    split
    · exact sortBy_perm lt l
    · exact heapSortBy_perm lt l
  | succ limit ih =>
    rw [quickWithin]
    split
    · exact sortBy_perm lt l
    · split
      · exact sortBy_perm lt l
      · rename_i p rest h
        have whole := perm_of_takeOut? h
        split
        · refine List.perm_middle.trans (.trans (.cons p ?_) whole)
          exact ((ih _ _).append_left _).trans (divideAround_perm _ rest)
        · refine List.perm_middle.trans (.trans (.cons p ?_) whole)
          exact ((ih _ _).append (ih _ _)).trans (divideAround_perm _ rest)

/-- Sorting rearranges: nothing is lost and nothing appears. -/
theorem quickSortBy_perm [Inhabited α] (lt : α → α → Bool) (l : List α) :
    List.Perm (quickSortBy lt l) l := by
  rw [quickSortBy]
  split
  · exact sortBy_perm lt l
  · exact quickWithin_perm lt _ none l

/-- Sorting keeps the members. -/
@[simp] theorem mem_quickSortBy [Inhabited α] {lt : α → α → Bool} {a : α} {l : List α} :
    a ∈ quickSortBy lt l ↔ a ∈ l :=
  (quickSortBy_perm lt l).mem_iff

/-- Sorting keeps the length. -/
@[simp] theorem length_quickSortBy [Inhabited α] (lt : α → α → Bool) (l : List α) :
    (quickSortBy lt l).length = l.length :=
  (quickSortBy_perm lt l).length_eq

/-! ## The result is in order -/

/-- While elements are put to the two parts, the first part passes the test and the second does not. -/
theorem foldl_sift_test (test : α → Bool) (l : List α) (parts : List α × List α)
    (h : (∀ a ∈ parts.1, test a = true) ∧ ∀ a ∈ parts.2, test a = false) :
    (∀ a ∈ (l.foldl (sift test) parts).1, test a = true) ∧
      ∀ a ∈ (l.foldl (sift test) parts).2, test a = false := by
  induction l generalizing parts with
  | nil => exact h
  | cons b l ih =>
    refine ih (sift test parts b) ?_
    rw [sift]
    split
    · rename_i hb
      refine ⟨fun a ha => ?_, fun a ha => h.2 a ((firstToEnd_perm _).mem_iff.mp ha)⟩
      rcases List.mem_append.mp ha with ha | ha
      · exact h.1 a ha
      · exact List.mem_singleton.mp ha ▸ hb
    · rename_i hb
      refine ⟨h.1, fun a ha => ?_⟩
      rcases List.mem_cons.mp ha with rfl | ha
      · exact Bool.eq_false_iff.mpr hb
      · exact h.2 a ((firstToEnd_perm _).mem_iff.mp ha)

/-- Dividing tells the elements that pass the test from those that do not. -/
theorem divideAround_test (test : α → Bool) (l : List α) :
    (∀ a ∈ (divideAround test l).1, test a = true) ∧
      ∀ a ∈ (divideAround test l).2, test a = false := by
  have h := foldl_sift_test test (firstToEnd l) ([], []) ⟨by simp, by simp⟩
  exact ⟨fun a ha => h.1 a ((endToFirst_perm _).mem_iff.mp ha), h.2⟩

/-- What either part holds was in the list. -/
theorem mem_of_mem_divideAround {test : α → Bool} {l : List α} {a : α}
    (h : a ∈ (divideAround test l).1 ∨ a ∈ (divideAround test l).2) : a ∈ l :=
  (divideAround_perm test l).mem_iff.mp (List.mem_append.mpr h)

/-- Two sorted lists around a pivot make a sorted list. -/
theorem pairwise_around {lt : α → α → Bool} {low high : List α} {p : α}
    (trans : ∀ a b c, lt b a = false → lt c b = false → lt c a = false)
    (hlow : low.Pairwise fun a b => lt b a = false) (hhigh : high.Pairwise fun a b => lt b a = false)
    (below : ∀ a ∈ low, lt p a = false) (above : ∀ a ∈ high, lt a p = false) :
    (low ++ p :: high).Pairwise fun a b => lt b a = false := by
  refine List.pairwise_append.mpr ⟨hlow, List.pairwise_cons.mpr ⟨above, hhigh⟩, fun a ha b hb => ?_⟩
  rcases List.mem_cons.mp hb with rfl | hb
  · exact below a ha
  · exact trans a p b (below a ha) (above b hb)

/-- Inserting into a sorted list leaves it sorted. -/
theorem pairwise_insertBy {lt : α → α → Bool} (asymm : ∀ a b, lt a b = true → lt b a = false)
    (trans : ∀ a b c, lt b a = false → lt c b = false → lt c a = false) (a : α) {l : List α}
    (h : l.Pairwise fun a b => lt b a = false) :
    (insertBy lt a l).Pairwise fun a b => lt b a = false := by
  induction l with
  | nil => simp [insertBy]
  | cons b l ih =>
    rw [insertBy]
    split
    · rename_i hba
      refine List.pairwise_cons.mpr ⟨fun c hc => ?_, ih h.of_cons⟩
      rcases List.mem_cons.mp ((insertBy_perm lt a l).mem_iff.mp hc) with rfl | hc
      · exact asymm b c hba
      · exact (List.pairwise_cons.mp h).1 c hc
    · rename_i hba
      have hba : lt b a = false := Bool.eq_false_iff.mpr hba
      refine List.pairwise_cons.mpr ⟨fun c hc => ?_, h⟩
      rcases List.mem_cons.mp hc with rfl | hc
      · exact hba
      · exact trans a b c hba ((List.pairwise_cons.mp h).1 c hc)

/-- In a list that is sorted by inserting no element is below one before it. -/
theorem pairwise_sortBy {lt : α → α → Bool} (asymm : ∀ a b, lt a b = true → lt b a = false)
    (trans : ∀ a b c, lt b a = false → lt c b = false → lt c a = false) (l : List α) :
    (sortBy lt l).Pairwise fun a b => lt b a = false := by
  induction l with
  | nil => exact .nil
  | cons a l ih => exact pairwise_insertBy asymm trans a ih

/-- In a list that is sorted in rounds no element is below one before it, when none is below `least`. -/
theorem pairwise_quickWithin [Inhabited α] {lt : α → α → Bool}
    (asymm : ∀ a b, lt a b = true → lt b a = false)
    (trans : ∀ a b c, lt b a = false → lt c b = false → lt c a = false)
    (limit : Nat) (least : Option α) (l : List α)
    (hleast : ∀ a ∈ least, ∀ b ∈ l, lt b a = false) :
    (quickWithin lt limit least l).Pairwise fun a b => lt b a = false := by
  induction limit generalizing least l with
  | zero =>
    rw [quickWithin]
    split
    · exact pairwise_sortBy asymm trans l
    · exact pairwise_heapSortBy asymm trans l
  | succ limit ih =>
    rw [quickWithin]
    split
    · exact pairwise_sortBy asymm trans l
    · split
      · exact pairwise_sortBy asymm trans l
      · rename_i p rest h
        have whole := perm_of_takeOut? h
        have inRest : ∀ a ∈ rest, a ∈ l := fun a ha => whole.mem_iff.mp (.tail _ ha)
        split
        · rename_i hp
          have tested := divideAround_test (fun a => !lt p a) rest
          have lowest : ∀ a ∈ l, lt a p = false := by
            cases least with
            | none => exact absurd hp (by simp)
            | some q => exact fun a ha => trans p q a (by simpa using hp) (hleast q rfl a ha)
          have low : ∀ a ∈ (divideAround (fun a => !lt p a) rest).1, lt p a = false := fun a ha => by
            simpa using tested.1 a ha
          refine pairwise_around trans ?_ (ih none _ (by simp)) low fun a ha => ?_
          · refine List.Pairwise.imp_of_mem (fun {a b} ha hb _ => ?_)
              (List.pairwise_of_forall (R := fun _ _ => True) fun _ _ => trivial)
            exact trans a p b (low a ha) (lowest b (inRest b (mem_of_mem_divideAround (.inl hb))))
          · have ha := (quickWithin_perm lt limit none _).mem_iff.mp ha
            exact lowest a (inRest a (mem_of_mem_divideAround (.inr ha)))
        · have tested := divideAround_test (fun a => lt a p) rest
          refine pairwise_around trans (ih least _ fun a ha b hb => ?_) (ih (some p) _ ?_)
            (fun a ha => ?_) fun a ha => ?_
          · exact hleast a ha b (inRest b (mem_of_mem_divideAround (.inl hb)))
          · intro a ha b hb
            obtain rfl : p = a := by simpa using ha
            exact tested.2 b hb
          · exact asymm a p (tested.1 a ((quickWithin_perm lt limit least _).mem_iff.mp ha))
          · exact tested.2 a ((quickWithin_perm lt limit (some p) _).mem_iff.mp ha)

/-- In a sorted list no element is below one before it. -/
theorem pairwise_quickSortBy [Inhabited α] {lt : α → α → Bool}
    (asymm : ∀ a b, lt a b = true → lt b a = false)
    (trans : ∀ a b c, lt b a = false → lt c b = false → lt c a = false) (l : List α) :
    (quickSortBy lt l).Pairwise fun a b => lt b a = false := by
  rw [quickSortBy]
  split
  · exact pairwise_sortBy asymm trans l
  · exact pairwise_quickWithin asymm trans _ none l (by simp)

end RegisterColoring
