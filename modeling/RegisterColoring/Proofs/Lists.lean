import Mathlib.Data.List.Forall2
import Mathlib.Order.Lattice
import RegisterColoring.Arrange.Quick

/-! # Lists and computations that can fail

What the proofs about the allocator ask of lists in general: how a computation that succeeded was put
together, and where a chosen element comes from.

* `bind_eq_ok`, `exists_mapM_ok_iff`: a sequence of computations succeeds if and only if all of them do.
* `mapM_eq_ok_iff`, `mapM_eq_error_iff`: its results, and its first failure.
* `leastBy?_mem`, `exists_of_leastBy?`: the chosen element is in the list, and the first least one.
* `key_le_of_leastBy?`, `le_key_of_leastBy?`: no element has a smaller key, or none a larger one.
* `rel_of_leastBy?`: of the elements with its key, the chosen one is the first.
* `pairwise_key_sortBy`: elements that are sorted by their keys have ascending keys.
* `leastBy?_perm`: among elements with different keys, the choice does not depend on their order.
* `mem_foldl_unionAscending`: what is in a union of ascending lists.
* `pairwise_unionAscending`: unions are strictly ascending.
* `le_foldl_of_mem`: how large folds are.
* `getD_modify`: what is in an array after one of its elements was changed. -/

namespace RegisterColoring

universe u

variable {α : Type u}

/-- Two computations in a row succeed exactly when the first does and the second does after it. -/
theorem bind_eq_ok {ε : Type} {γ δ : Type} {x : Except ε γ} {f : γ → Except ε δ} {b : δ} :
    (x >>= f) = .ok b ↔ ∃ a, x = .ok a ∧ f a = .ok b := by
  cases x with
  | error e =>
    refine ⟨fun h => absurd h (by simp [bind, Except.bind]), ?_⟩
    rintro ⟨_, h, _⟩
    cases h
  | ok a =>
    refine ⟨fun h => ⟨a, rfl, h⟩, ?_⟩
    rintro ⟨a', h, h'⟩
    cases h
    exact h'

/-- Two computations in a row fail when the first does, or the second does after it. -/
theorem bind_eq_error {ε : Type} {γ δ : Type} {x : Except ε γ} {f : γ → Except ε δ} {e : ε} :
    (x >>= f) = .error e ↔ x = .error e ∨ ∃ a, x = .ok a ∧ f a = .error e := by
  cases x with
  | error e' => simp [bind, Except.bind]
  | ok a => simp [bind, Except.bind]

/-- A sequence of computations succeeds with the results of all elements, in their order. -/
theorem mapM_eq_ok_iff {ε γ δ : Type} {f : γ → Except ε δ} {l : List γ} {l' : List δ} :
    l.mapM f = .ok l' ↔ List.Forall₂ (fun a b => f a = .ok b) l l' := by
  induction l generalizing l' with
  | nil =>
    rw [List.forall₂_nil_left_iff]
    exact ⟨fun h => by cases h; rfl, fun h => by rw [h]; rfl⟩
  | cons a l ih =>
    rw [List.mapM_cons, bind_eq_ok, List.forall₂_cons_left_iff]
    simp only [bind_eq_ok, ih]
    constructor
    · rintro ⟨b, hb, bs, hbs, h⟩
      cases h
      exact ⟨b, bs, hb, hbs, rfl⟩
    · rintro ⟨b, bs, hb, hbs, rfl⟩
      exact ⟨b, hb, bs, hbs, rfl⟩

/-- When a computation succeeds for every element of a list, the results stand in the order of the
elements. -/
theorem forall₂_of_mapM_ok {ε γ δ : Type} {f : γ → Except ε δ} {l : List γ} {l' : List δ}
    (h : l.mapM f = .ok l') : List.Forall₂ (fun a b => f a = .ok b) l l' :=
  mapM_eq_ok_iff.mp h

/-- Every result of such a sequence comes from an element. -/
theorem exists_of_mem_mapM_ok {ε γ δ : Type} {f : γ → Except ε δ} {l : List γ} {l' : List δ}
    (h : l.mapM f = .ok l') {b : δ} (hb : b ∈ l') : ∃ a ∈ l, f a = .ok b := by
  have paired := forall₂_of_mapM_ok h
  clear h
  induction paired with
  | nil => cases hb
  | cons hfirst _ ih =>
    rcases List.mem_cons.mp hb with rfl | hb
    · exact ⟨_, List.mem_cons_self, hfirst⟩
    · obtain ⟨a, ha, hfa⟩ := ih hb
      exact ⟨a, List.mem_cons_of_mem _ ha, hfa⟩

/-- A sequence of computations fails as the first of them does that fails. -/
theorem mapM_eq_error_iff {ε γ δ : Type} {f : γ → Except ε δ} {l : List γ} {e : ε} :
    l.mapM f = .error e ↔ ∃ (i : Nat) (a : γ), l[i]? = some a ∧ f a = .error e ∧
      ∀ j b, j < i → l[j]? = some b → ∃ c, f b = .ok c := by
  induction l with
  | nil =>
    refine iff_of_false (fun h => by cases h) ?_
    rintro ⟨i, a, ha, -⟩
    simp at ha
  | cons first l ih =>
    rw [List.mapM_cons, bind_eq_error]
    simp only [bind_eq_error, ih]
    constructor
    · rintro (hfirst | ⟨c, hfirst, ⟨i, a, ha, hfails, hbefore⟩ | ⟨bs, -, h⟩⟩)
      · exact ⟨0, first, rfl, hfirst, fun j b hj => absurd hj (Nat.not_lt_zero j)⟩
      · refine ⟨i + 1, a, ha, hfails, fun j b hj hb => ?_⟩
        cases j with
        | zero =>
          obtain rfl : first = b := by simpa using hb
          exact ⟨c, hfirst⟩
        | succ j => exact hbefore j b (Nat.lt_of_succ_lt_succ hj) hb
      · cases h
    · rintro ⟨i, a, ha, hfails, hbefore⟩
      cases i with
      | zero =>
        obtain rfl : first = a := by simpa using ha
        exact .inl hfails
      | succ i =>
        obtain ⟨c, hfirst⟩ := hbefore 0 first (Nat.succ_pos i) rfl
        exact .inr ⟨c, hfirst, .inl ⟨i, a, ha, hfails, fun j b hj => hbefore (j + 1) b (Nat.succ_lt_succ hj)⟩⟩

/-- A sequence of computations fails for one of its elements. -/
theorem exists_of_mapM_error {ε γ δ : Type} {f : γ → Except ε δ} {l : List γ} {e : ε}
    (h : l.mapM f = .error e) : ∃ a ∈ l, f a = .error e := by
  obtain ⟨i, a, ha, hfails, -⟩ := mapM_eq_error_iff.mp h
  exact ⟨a, List.mem_of_getElem? ha, hfails⟩

/-- Every element of such a sequence has its result. -/
theorem exists_mem_of_mapM_ok {ε γ δ : Type} {f : γ → Except ε δ} {l : List γ} {l' : List δ}
    (h : l.mapM f = .ok l') {a : γ} (ha : a ∈ l) : ∃ b ∈ l', f a = .ok b := by
  have paired := forall₂_of_mapM_ok h
  clear h
  induction paired with
  | nil => cases ha
  | cons hfirst _ ih =>
    rcases List.mem_cons.mp ha with rfl | ha
    · exact ⟨_, List.mem_cons_self, hfirst⟩
    · obtain ⟨b, hb, hfb⟩ := ih ha
      exact ⟨b, List.mem_cons_of_mem _ hb, hfb⟩

/-- A sequence of computations succeeds exactly when each of them does. -/
theorem exists_mapM_ok_iff {ε γ δ : Type} {f : γ → Except ε δ} {l : List γ} :
    (∃ l', l.mapM f = .ok l') ↔ ∀ a ∈ l, ∃ b, f a = .ok b := by
  constructor
  · rintro ⟨l', h⟩ a ha
    obtain ⟨b, -, hb⟩ := exists_mem_of_mapM_ok h ha
    exact ⟨b, hb⟩
  · intro hall
    cases h : l.mapM f with
    | ok l' => exact ⟨l', rfl⟩
    | error e =>
      obtain ⟨a, ha, hfa⟩ := exists_of_mapM_error h
      obtain ⟨b, hb⟩ := hall a ha
      cases hfa.symm.trans hb

/-- A step that keeps one of its two arguments ends at the start or in the list. -/
theorem foldl_choice_mem {f : α → α → α} (hf : ∀ a b, f a b = a ∨ f a b = b) (l : List α) (a : α) :
    l.foldl f a = a ∨ l.foldl f a ∈ l := by
  induction l generalizing a with
  | nil => exact .inl rfl
  | cons b l ih =>
    rw [List.foldl_cons]
    rcases ih (f a b) with h | h
    · rw [h]
      rcases hf a b with h' | h'
      · exact .inl h'
      · rw [h']
        exact .inr List.mem_cons_self
    · exact .inr (List.mem_cons_of_mem b h)

/-- The least element of a list is in it. -/
theorem leastBy?_mem {lt : α → α → Bool} {l : List α} {a : α} (h : leastBy? lt l = some a) : a ∈ l := by
  cases l with
  | nil => cases h
  | cons b l =>
    rw [leastBy?, Option.some.injEq] at h
    rcases foldl_choice_mem (f := fun best b => if lt b best then b else best)
      (fun a b => by split <;> simp) l b with h' | h'
    · rw [← h, h']
      exact List.mem_cons_self
    · rw [← h]
      exact List.mem_cons_of_mem b h'

/-- A list with an element has a least one. -/
theorem exists_leastBy? (lt : α → α → Bool) {l : List α} (h : l ≠ []) : ∃ a, leastBy? lt l = some a := by
  cases l with
  | nil => exact absurd rfl h
  | cons b l => exact ⟨_, rfl⟩

/-- A least element of changed elements is the changed least element. -/
theorem leastBy?_map {α β : Type*} {lt : β → β → Bool} {lt' : α → α → Bool} {g : α → β}
    (h : ∀ a b, lt (g a) (g b) = lt' a b) (l : List α) :
    leastBy? lt (l.map g) = (leastBy? lt' l).map g := by
  -- the best so far is a changed element on both sides
  have general : ∀ (l : List α) (a : α),
      (l.map g).foldl (fun best b => if lt b best then b else best) (g a) =
        g (l.foldl (fun best b => if lt' b best then b else best) a) := by
    intro l
    induction l with
    | nil => exact fun a => rfl
    | cons b l ih =>
      intro a
      rw [List.map_cons, List.foldl_cons, List.foldl_cons, h, ← ih]
      split <;> rfl
  cases l with
  | nil => rfl
  | cons a l => exact congrArg some (general l a)

/-- What a choice that has been made stays with: an element that no later one is below. -/
theorem foldl_choice_eq {lt : α → α → Bool} {a : α} {l : List α} (h : ∀ x ∈ l, lt x a = false) :
    l.foldl (fun best b => if lt b best then b else best) a = a := by
  induction l with
  | nil => rfl
  | cons b l ih =>
    rw [List.foldl_cons, h b List.mem_cons_self]
    exact ih fun x hx => h x (List.mem_cons_of_mem b hx)

/-- An element that is below all before it, and that none after it is below, is chosen. -/
theorem leastBy?_of_split {lt : α → α → Bool} {before after : List α} {a : α}
    (hbefore : ∀ x ∈ before, lt a x = true) (hafter : ∀ x ∈ after, lt x a = false) :
    leastBy? lt (before ++ a :: after) = some a := by
  cases before with
  | nil => rw [List.nil_append, leastBy?, foldl_choice_eq hafter]
  | cons b before =>
    have chosen : lt a (before.foldl (fun best b => if lt b best then b else best) b) = true := by
      rcases foldl_choice_mem (f := fun best b => if lt b best then b else best)
        (fun a b => by split <;> simp) before b with h | h
      · rw [h]
        exact hbefore b List.mem_cons_self
      · exact hbefore _ (List.mem_cons_of_mem b h)
    rw [List.cons_append, leastBy?, List.foldl_append, List.foldl_cons, chosen]
    exact congrArg some (foldl_choice_eq hafter)

/-- When `lt` compares by some measure, the chosen element is below all before it, and none after it is
below it. -/
theorem exists_of_leastBy? {lt : α → α → Bool} (asymm : ∀ a b, lt a b = true → lt b a = false)
    (trans : ∀ a b c, lt b a = false → lt c b = false → lt c a = false) {l : List α} {a : α}
    (h : leastBy? lt l = some a) : ∃ before after, l = before ++ a :: after ∧
      (∀ x ∈ before, lt a x = true) ∧ ∀ x ∈ after, lt x a = false := by
  -- the choice among the elements read so far has this property at every moment
  have general : ∀ (l before after : List α) (a : α), (∀ x ∈ before, lt a x = true) →
      (∀ x ∈ after, lt x a = false) → ∃ before' after',
        before ++ a :: after ++ l = before' ++
          l.foldl (fun best b => if lt b best then b else best) a :: after' ∧
        (∀ x ∈ before', lt (l.foldl (fun best b => if lt b best then b else best) a) x = true) ∧
        ∀ x ∈ after', lt x (l.foldl (fun best b => if lt b best then b else best) a) = false := by
    intro l
    induction l with
    | nil =>
      intro before after a hbefore hafter
      exact ⟨before, after, List.append_nil _, hbefore, hafter⟩
    | cons b l ih =>
      intro before after a hbefore hafter
      rw [List.foldl_cons]
      cases hb : lt b a with
      | false =>
        have := ih before (after ++ [b]) a hbefore fun x hx => by
          rcases List.mem_append.mp hx with hx | hx
          · exact hafter x hx
          · rw [List.mem_singleton.mp hx]
            exact hb
        simpa using this
      | true =>
        have below : ∀ x, lt x a = false → lt b x = true := by
          intro x hx
          by_contra hbx
          rw [trans a x b hx (by simpa using hbx)] at hb
          cases hb
        have := ih (before ++ a :: after) [] b (fun x hx => by
          rcases List.mem_append.mp hx with hx | hx
          · exact below x (asymm a x (hbefore x hx))
          · rcases List.mem_cons.mp hx with rfl | hx
            · exact hb
            · exact below x (hafter x hx)) (by simp)
        simpa using this
  cases l with
  | nil => cases h
  | cons b l =>
    obtain ⟨before, after, heq, hbefore, hafter⟩ := general l [] [] b (by simp) (by simp)
    rw [leastBy?, Option.some.injEq] at h
    rw [h] at heq hbefore hafter
    exact ⟨before, after, heq, hbefore, hafter⟩

/-! ## Comparing by keys -/

section Keys

variable {β : Type*} [LinearOrder β] {f : α → β} {lt : α → α → Bool} {l : List α} {a b c x : α}

theorem eq_false_iff_key_le (hlt : ∀ a b, lt a b = true ↔ f a < f b) : lt a b = false ↔ f b ≤ f a := by
  rw [← Bool.not_eq_true, hlt, not_lt]

theorem asymm_of_key (hlt : ∀ a b, lt a b = true ↔ f a < f b) (a b : α) (h : lt a b = true) :
    lt b a = false :=
  (eq_false_iff_key_le hlt).mpr ((hlt a b).mp h).le

theorem trans_of_key (hlt : ∀ a b, lt a b = true ↔ f a < f b) (a b c : α) (hab : lt b a = false)
    (hbc : lt c b = false) : lt c a = false := by
  rw [eq_false_iff_key_le hlt] at hab hbc ⊢
  exact hab.trans hbc

/-- Before the chosen element all keys are larger, and after it none is smaller. -/
theorem split_of_leastBy? (hlt : ∀ a b, lt a b = true ↔ f a < f b) (h : leastBy? lt l = some a) :
    ∃ before after, l = before ++ a :: after ∧ (∀ x ∈ before, f a < f x) ∧ ∀ x ∈ after, f a ≤ f x := by
  obtain ⟨before, after, hl, hbefore, hafter⟩ :=
    exists_of_leastBy? (asymm_of_key hlt) (trans_of_key hlt) h
  exact ⟨before, after, hl, fun x hx => (hlt a x).mp (hbefore x hx),
    fun x hx => (eq_false_iff_key_le hlt).mp (hafter x hx)⟩

/-- Where elements are compared by their keys, no key is below that of the chosen one. -/
theorem key_le_of_leastBy? (hlt : ∀ a b, lt a b = true ↔ f a < f b) (h : leastBy? lt l = some a)
    (hx : x ∈ l) : f a ≤ f x := by
  obtain ⟨before, after, rfl, hbefore, hafter⟩ := split_of_leastBy? hlt h
  rcases List.mem_append.mp hx with hx | hx
  · exact (hbefore x hx).le
  · rcases List.mem_cons.mp hx with rfl | hx
    · exact le_rfl
    · exact hafter x hx

/-- Where larger keys come first, no key is above that of the chosen one. -/
theorem le_key_of_leastBy? (hlt : ∀ a b, lt a b = true ↔ f b < f a) (h : leastBy? lt l = some a)
    (hx : x ∈ l) : f x ≤ f a :=
  key_le_of_leastBy? (f := fun a => OrderDual.toDual (f a)) hlt h hx

/-- An element with the key of the chosen one is that one or stands after it. -/
theorem rel_of_leastBy? (hlt : ∀ a b, lt a b = true ↔ f a < f b) {R : α → α → Prop} (hl : l.Pairwise R)
    (h : leastBy? lt l = some a) (hx : x ∈ l) (hkey : f x = f a) : x = a ∨ R a x := by
  obtain ⟨before, after, rfl, hbefore, -⟩ := split_of_leastBy? hlt h
  rcases List.mem_append.mp hx with hx | hx
  · exact absurd hkey (hbefore x hx).ne'
  · rcases List.mem_cons.mp hx with rfl | hx
    · exact .inl rfl
    · exact .inr (List.rel_of_pairwise_cons (List.pairwise_append.mp hl).2.1 hx)

/-- Sorting by keys makes the keys ascending. -/
theorem pairwise_key_sortBy (hlt : ∀ a b, lt a b = true ↔ f a < f b) (l : List α) :
    (sortBy lt l).Pairwise fun a b => f a ≤ f b :=
  (pairwise_sortBy (asymm_of_key hlt) (trans_of_key hlt) l).imp (eq_false_iff_key_le hlt).mp

end Keys

/-- Where no two elements have the same key, it does not matter in which order they are listed. -/
theorem leastBy?_perm {β : Type*} [LinearOrder β] {f : α → β} {lt : α → α → Bool}
    (hlt : ∀ a b, lt a b = true ↔ f a < f b) {l l' : List α} (hkeys : ∀ a ∈ l, ∀ b ∈ l, f a = f b → a = b)
    (h : l'.Perm l) : leastBy? lt l' = leastBy? lt l := by
  cases hl : leastBy? lt l with
  | none =>
    rw [leastBy?_eq_none_iff] at hl ⊢
    exact (hl ▸ h).eq_nil
  | some a =>
    have ha := leastBy?_mem hl
    obtain ⟨a', ha'⟩ := exists_leastBy? lt (List.ne_nil_of_mem (h.mem_iff.mpr ha))
    have hmem := h.mem_iff.mp (leastBy?_mem ha')
    have same : f a' = f a :=
      (key_le_of_leastBy? hlt ha' (h.mem_iff.mpr ha)).antisymm (key_le_of_leastBy? hlt hl hmem)
    rw [ha', hkeys a' hmem a ha same]

/-- The union of the lists that belong to some elements has the members of each of them. -/
theorem mem_foldl_unionAscending {f : α → List Nat} {l : List α} {found : List Nat} {n : Nat} :
    n ∈ l.foldl (fun found a => unionAscending (f a) found) found ↔ n ∈ found ∨ ∃ a ∈ l, n ∈ f a := by
  induction l generalizing found with
  | nil => simp
  | cons a l ih =>
    rw [List.foldl_cons, ih, mem_unionAscending, or_comm (a := n ∈ f a), or_assoc]
    simp only [List.mem_cons, exists_eq_or_imp]

/-- Inserting keeps a list strictly ascending. -/
theorem pairwise_insertAscending {n : Nat} {l : List Nat} (h : l.Pairwise (· < ·)) :
    (insertAscending n l).Pairwise (· < ·) := by
  induction l with
  | nil => exact List.pairwise_singleton _ n
  | cons b l ih =>
    obtain ⟨hb, hl⟩ := List.pairwise_cons.mp h
    unfold insertAscending
    split
    · rename_i hlt
      refine .cons (fun x hx => ?_) h
      rcases List.mem_cons.mp hx with rfl | hx
      · exact hlt
      · exact Nat.lt_trans hlt (hb x hx)
    · split
      · exact h
      · refine .cons (fun x hx => ?_) (ih hl)
        rcases mem_insertAscending.mp hx with rfl | hx
        · omega
        · exact hb x hx

/-- A union with a strictly ascending list is strictly ascending. -/
theorem pairwise_unionAscending {l k : List Nat} (h : k.Pairwise (· < ·)) :
    (unionAscending l k).Pairwise (· < ·) := by
  induction l with
  | nil => exact h
  | cons n l ih => exact pairwise_insertAscending ih

/-- Inserting adds one element at most. -/
theorem length_insertAscending_le (n : Nat) (l : List Nat) : (insertAscending n l).length ≤ l.length + 1 := by
  induction l with
  | nil => exact le_rfl
  | cons b l ih =>
    unfold insertAscending
    split
    · exact le_rfl
    · split
      · exact Nat.le_succ _
      · exact Nat.succ_le_succ ih

/-- Inserting what a strictly ascending list has changes nothing. -/
theorem insertAscending_of_mem {n : Nat} {l : List Nat} (h : l.Pairwise (· < ·)) (hn : n ∈ l) :
    insertAscending n l = l := by
  induction l with
  | nil => cases hn
  | cons b l ih =>
    obtain ⟨hb, hl⟩ := List.pairwise_cons.mp h
    unfold insertAscending
    rcases List.mem_cons.mp hn with rfl | hn
    · rw [if_neg (Nat.lt_irrefl n), if_pos rfl]
    · have hlt := hb n hn
      rw [if_neg (Nat.lt_asymm hlt), if_neg (Nat.ne_of_gt hlt), ih hl hn]

/-- A list without its repetitions has none. -/
theorem nodup_eraseDups [BEq α] [LawfulBEq α] (l : List α) : l.eraseDups.Nodup := by
  induction hlength : l.length using Nat.strongRecOn generalizing l with
  | ind n ih =>
    cases l with
    | nil => exact List.nodup_nil
    | cons a l =>
      rw [List.eraseDups_cons, List.nodup_cons]
      constructor
      · rw [List.mem_eraseDups, List.mem_filter]
        simp
      · refine ih _ ?_ _ rfl
        rw [← hlength]
        exact Nat.lt_succ_of_le (List.length_filter_le _ _)

/-- A fold whose steps never lose anything ends with no less than it started with. -/
theorem le_foldl {f : Nat → α → Nat} (hf : ∀ a x, a ≤ f a x) (l : List α) (a : Nat) :
    a ≤ l.foldl f a := by
  induction l generalizing a with
  | nil => exact Nat.le_refl a
  | cons x l ih => exact Nat.le_trans (hf a x) (ih (f a x))

/-- A fold whose steps never lose anything ends with no less than any one step gives. -/
theorem le_foldl_of_mem {f : Nat → α → Nat} (hf : ∀ a x, a ≤ f a x) {l : List α} {x : α} (hx : x ∈ l)
    {k : Nat} (hk : ∀ a, k ≤ f a x) (a : Nat) : k ≤ l.foldl f a := by
  induction l generalizing a with
  | nil => cases hx
  | cons y l ih =>
    rw [List.foldl_cons]
    rcases List.mem_cons.mp hx with rfl | hx
    · exact Nat.le_trans (hk a) (le_foldl hf l _)
    · exact ih hx (f a y)

/-- Changing one element of an array changes no other. -/
theorem getD_modify {a : Array α} {f : α → α} {i j : Nat} {x : α} (hj : j < a.size) :
    (a.modify i f).getD j x = if i = j then f (a.getD j x) else a.getD j x := by
  rw [Array.getD_eq_getD_getElem?, Array.getD_eq_getD_getElem?, Array.getElem?_modify,
    Array.getElem?_eq_getElem hj]
  split <;> rfl

end RegisterColoring
