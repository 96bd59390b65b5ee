import Std.Data.TreeMap

/-! # Gathering by keys

The values of a list under the keys that they have, in the order of the list under every key.

* `gatherBy cmp key value l`: for every key of an element of `l`, the values of the elements that have it.
* `toList_getD_gatherBy`, `mem_gatherBy`: what is found under a key, and which keys there are.
* `pairOrder`: pairs of numbers by the first of them, then by the second. -/

namespace RegisterColoring

universe u v w

variable {α : Type u} {κ : Type v} {β : Type w}

/-- Add a value at the end of those that are under a key already. -/
def gatherInto {cmp : κ → κ → Ordering} (found : Std.TreeMap κ (Array β) cmp) (k : κ) (b : β) :
    Std.TreeMap κ (Array β) cmp :=
  found.alter k fun old => some ((old.getD #[]).push b)

/-- The values of the elements of a list under their keys. -/
def gatherBy (cmp : κ → κ → Ordering) (key : α → κ) (value : α → β) (l : List α) :
    Std.TreeMap κ (Array β) cmp :=
  l.foldl (fun found a => gatherInto found (key a) (value a)) ∅

section

variable {cmp : κ → κ → Ordering} [Std.TransCmp cmp] [Std.LawfulEqCmp cmp] [DecidableEq κ]

/-- A value that is added stands at the end under its key, and what is under other keys stays as it is. -/
theorem toList_getD_gatherInto (found : Std.TreeMap κ (Array β) cmp) (k k' : κ) (b : β) :
    ((gatherInto found k b).getD k' #[]).toList =
      (found.getD k' #[]).toList ++ if k = k' then [b] else [] := by
  rw [gatherInto, Std.TreeMap.getD_alter]
  by_cases hk : k = k'
  · subst hk
    rw [if_pos Std.ReflCmp.compare_self, if_pos rfl, Option.getD_some, Array.toList_push,
      Std.TreeMap.getD_eq_getD_getElem?]
  · rw [if_neg (fun heq => hk (Std.LawfulEqCmp.eq_of_compare heq)), if_neg hk, List.append_nil]

/-- With a value its key is there. -/
theorem mem_gatherInto {found : Std.TreeMap κ (Array β) cmp} {k k' : κ} {b : β} :
    k' ∈ gatherInto found k b ↔ k = k' ∨ k' ∈ found := by
  rw [gatherInto, Std.TreeMap.mem_alter]
  by_cases hk : k = k'
  · subst hk
    simp [Std.ReflCmp.compare_self]
  · rw [if_neg (fun heq => hk (Std.LawfulEqCmp.eq_of_compare heq))]
    simp [hk]

/-- Under a key there are the values of the elements that have it, in the order of the list. -/
theorem toList_getD_gatherBy (key : α → κ) (value : α → β) (l : List α) (k : κ) :
    ((gatherBy cmp key value l).getD k #[]).toList = (l.filter fun a => key a = k).map value := by
  -- whatever was gathered before
  have all (found : Std.TreeMap κ (Array β) cmp) :
      ((l.foldl (fun found a => gatherInto found (key a) (value a)) found).getD k #[]).toList =
        (found.getD k #[]).toList ++ (l.filter fun a => key a = k).map value := by
    induction l generalizing found with
    | nil => simp
    | cons a l ih =>
      rw [List.foldl_cons, ih, toList_getD_gatherInto, List.filter_cons]
      by_cases hk : key a = k <;> simp [hk]
  rw [gatherBy, all, Std.TreeMap.getD_emptyc]
  rfl

/-- The keys are those of the elements. -/
theorem mem_gatherBy {key : α → κ} {value : α → β} {l : List α} {k : κ} :
    k ∈ gatherBy cmp key value l ↔ ∃ a ∈ l, key a = k := by
  have all (found : Std.TreeMap κ (Array β) cmp) :
      k ∈ l.foldl (fun found a => gatherInto found (key a) (value a)) found ↔
        k ∈ found ∨ ∃ a ∈ l, key a = k := by
    induction l generalizing found with
    | nil => simp
    | cons a l ih =>
      rw [List.foldl_cons, ih, mem_gatherInto]
      simp only [List.mem_cons, exists_eq_or_imp]
      grind
  rw [gatherBy, all]
  simp

/-- What is found under a key. -/
theorem getElem?_gatherBy_eq_some_iff {key : α → κ} {value : α → β} {l : List α} {k : κ} {a : Array β} :
    (gatherBy cmp key value l)[k]? = some a ↔
      (∃ x ∈ l, key x = k) ∧ a.toList = (l.filter fun x => key x = k).map value := by
  have hkey : k ∈ gatherBy cmp key value l ↔ ∃ x ∈ l, key x = k := mem_gatherBy
  have hvalues : ((gatherBy cmp key value l).getD k #[]).toList = (l.filter fun x => key x = k).map value :=
    toList_getD_gatherBy key value l k
  rw [← hkey, ← hvalues, Array.toList_inj, Std.TreeMap.getD_eq_getD_getElem?,
    Std.TreeMap.mem_iff_isSome_getElem?]
  cases (gatherBy cmp key value l)[k]? with
  | none => simp
  | some b => simp [eq_comm]

end

/-! ## Pairs of numbers -/

/-- The order of pairs by their first number, and by their second where the first is the same. -/
def pairOrder : Nat × Nat → Nat × Nat → Ordering :=
  compareLex (compareOn Prod.fst) (compareOn Prod.snd)

instance : Std.TransCmp pairOrder :=
  inferInstanceAs (Std.TransCmp (compareLex (compareOn Prod.fst) (compareOn Prod.snd)))

instance : Std.LawfulEqCmp pairOrder where
  eq_of_compare {a b} h := by
    obtain ⟨hfirst, hsecond⟩ := compareLex_eq_eq.mp h
    exact Prod.ext (Nat.compare_eq_eq.mp hfirst) (Nat.compare_eq_eq.mp hsecond)

/-- A pair is before another if its first number is smaller, or equal and its second number smaller. -/
theorem pairOrder_eq_lt {a b : Nat × Nat} :
    pairOrder a b = .lt ↔ a.1 < b.1 ∨ a.1 = b.1 ∧ a.2 < b.2 := by
  rw [pairOrder, compareLex, compareOn, compareOn, Ordering.then_eq_lt, Nat.compare_eq_lt, Nat.compare_eq_eq,
    Nat.compare_eq_lt]

end RegisterColoring
