/-! # Searching by halves

Where the elements of an array that pass a test come before those that do not, the place between the two is found
by halving the stretch in which it can lie.

* `partitionPoint passes a`: how many elements from the start of `a` on pass, if all that pass come first.
* `Partitioned`: all elements that pass come first.
* `partitionPoint_eq`: the search finds the length of the longest stretch of elements that pass.
* `between`: the stretch of elements that pass one test and no longer another, and which elements these are. -/

namespace RegisterColoring

universe u

variable {α : Type u}

/-- Halve the stretch from `low` up to `high`, which is left out, at most the given number of times: an element in
the middle that passes leaves what comes after it, and one that does not what comes before it. -/
def bisectWithin (passes : α → Bool) (a : Array α) : (steps low high : Nat) → Nat
  | 0, low, _ => low
  | steps + 1, low, high =>
    if low < high then
      if a[(low + high) / 2]?.any passes then bisectWithin passes a steps ((low + high) / 2 + 1) high
      else bisectWithin passes a steps low ((low + high) / 2)
    else low

/-- The first place whose element does not pass, if all that pass come first. A stretch gets shorter each time it
is halved, so the size of the array bounds the search. -/
def partitionPoint (passes : α → Bool) (a : Array α) : Nat :=
  bisectWithin passes a a.size 0 a.size

/-- Whether all elements that pass come before those that do not. -/
def Partitioned (passes : α → Bool) (l : List α) : Prop :=
  l.Pairwise fun a b => passes b = true → passes a = true

/-- The first element is before all others: if it does not pass, none does. -/
theorem Partitioned.takeWhile_eq_filter {passes : α → Bool} {l : List α} (h : Partitioned passes l) :
    l.takeWhile passes = l.filter passes := by
  induction l with
  | nil => rfl
  | cons a l ih =>
    obtain ⟨ha, hl⟩ := List.pairwise_cons.mp h
    rw [List.takeWhile_cons, List.filter_cons]
    cases hpass : passes a with
    | true => rw [if_pos rfl, if_pos rfl, ih hl]
    | false =>
      rw [if_neg Bool.false_ne_true, if_neg Bool.false_ne_true, eq_comm, List.filter_eq_nil_iff]
      exact fun b hb hpass' => Bool.false_ne_true (hpass.symm.trans (ha b hb hpass'))

/-- What comes after the elements that pass are those that do not. -/
theorem Partitioned.drop_length_filter {passes : α → Bool} {l : List α} (h : Partitioned passes l) :
    l.drop (l.filter passes).length = l.filter fun a => !passes a := by
  induction l with
  | nil => rfl
  | cons a l ih =>
    obtain ⟨ha, hl⟩ := List.pairwise_cons.mp h
    rw [List.filter_cons, List.filter_cons]
    cases hpass : passes a with
    | true => exact ih hl
    | false =>
      have hnone : ∀ b ∈ l, passes b = false := fun b hb => by
        have := ha b hb
        rw [hpass] at this
        simpa using this
      rw [if_neg Bool.false_ne_true, List.filter_eq_nil_iff.mpr fun b hb => by rw [hnone b hb]; simp]
      exact congrArg (a :: ·) (List.filter_eq_self.mpr fun b hb => by rw [hnone b hb]; rfl).symm

/-- The elements before the first that does not pass, by their places. -/
theorem Partitioned.any_getElem?_iff {passes : α → Bool} {l : List α} (h : Partitioned passes l) (i : Nat) :
    l[i]?.any passes = true ↔ i < (l.takeWhile passes).length := by
  induction l generalizing i with
  | nil => simp
  | cons a l ih =>
    obtain ⟨ha, hl⟩ := List.pairwise_cons.mp h
    rw [List.takeWhile_cons]
    cases hpass : passes a with
    | true =>
      cases i with
      | zero => simp [hpass]
      | succ i => simpa using ih hl i
    | false =>
      simp only [Bool.false_eq_true, if_false, List.length_nil, Nat.not_lt_zero, iff_false]
      cases i with
      | zero => simp [hpass]
      | succ i =>
        rw [List.getElem?_cons_succ, Option.any_eq_true]
        rintro ⟨b, hb, hpass'⟩
        exact Bool.false_ne_true (hpass.symm.trans (ha b (List.mem_of_getElem? hb) hpass'))

/-- As long as the place that is looked for lies in the stretch, enough halvings find it. -/
theorem bisectWithin_eq {passes : α → Bool} {a : Array α} {place : Nat}
    (hplace : ∀ i, a[i]?.any passes = true ↔ i < place) {steps low high : Nat} (hlow : low ≤ place)
    (hhigh : place ≤ high) (hsteps : high - low ≤ steps) : bisectWithin passes a steps low high = place := by
  induction steps generalizing low high with
  | zero =>
    rw [bisectWithin]
    omega
  | succ steps ih =>
    rw [bisectWithin]
    by_cases hlt : low < high
    · rw [if_pos hlt]
      by_cases hmiddle : (low + high) / 2 < place
      · rw [if_pos ((hplace _).mpr hmiddle)]
        exact ih hmiddle hhigh (by omega)
      · rw [if_neg fun hpass => hmiddle ((hplace _).mp hpass)]
        exact ih hlow (by omega) (by omega)
    · rw [if_neg hlt]
      omega

/-- The search finds the length of the longest stretch of elements that pass, from the first on. -/
theorem partitionPoint_eq {passes : α → Bool} {a : Array α} (h : Partitioned passes a.toList) :
    partitionPoint passes a = (a.toList.takeWhile passes).length := by
  refine bisectWithin_eq (fun i => ?_) (Nat.zero_le _) ?_ (Nat.le_refl _)
  · rw [← Array.getElem?_toList]
    exact h.any_getElem?_iff i
  · exact (List.takeWhile_prefix passes).length_le

example : partitionPoint (· < 4) #[1, 2, 2, 4, 4, 9] = 3 := by decide

/-- The stretch from the first element that does not pass `before` up to the last that passes `upTo`. -/
def between (before upTo : α → Bool) (a : Array α) : List α :=
  (a.extract (partitionPoint before a) (partitionPoint upTo a)).toList

/-- The stretch has all elements that pass `upTo` and not `before`. -/
theorem between_eq_filter {before upTo : α → Bool} {a : Array α} (hbefore : Partitioned before a.toList)
    (hupTo : Partitioned upTo a.toList) (h : ∀ x, before x = true → upTo x = true) :
    between before upTo a = a.toList.filter fun x => upTo x && !before x := by
  have low : a.toList.filter before = (a.toList.filter upTo).filter before := by
    rw [List.filter_filter]
    refine List.filter_congr fun x _ => ?_
    rw [eq_comm, Bool.and_eq_left_iff_imp]
    exact h x
  have upper : a.toList.take (a.toList.filter upTo).length = a.toList.filter upTo := by
    rw [← hupTo.takeWhile_eq_filter]
    exact (List.prefix_iff_eq_take.mp (List.takeWhile_prefix upTo)).symm
  have rest : Partitioned before (a.toList.filter upTo) := List.Pairwise.filter upTo hbefore
  rw [between, partitionPoint_eq hbefore, partitionPoint_eq hupTo, hbefore.takeWhile_eq_filter,
    hupTo.takeWhile_eq_filter, Array.toList_extract, List.extract_eq_take_drop, ← List.drop_take, upper, low,
    rest.drop_length_filter, List.filter_filter]
  simp only [Bool.and_comm]

end RegisterColoring
