import Mathlib.Order.Monotone.Basic
import RegisterColoring.Proofs.Lists

/-! # What a list shows of another

A part of a program has its own numbers for uses, linkages and groups. `Shows sees hidden whole part` says
that `part` is what is left of `whole` when the hidden elements are passed over, each of the others seen
as an element of the part.

* `Shows`: the relation, and how `map`, `filter`, `erase` and `++` keep it.
* `Shows.of_sorted`: lists that are sorted by keys of one order show each other.
* `Shows.leastBy?`: the first least element of the whole is hidden or the first least of the part.
* `Shows.exists_positions`: the positions in the whole of the elements of the part. -/

namespace RegisterColoring

/-- The part is what is left of the whole when hidden elements are passed over. -/
inductive Shows {α β : Type} (sees : α → β → Prop) (hidden : α → Prop) : List α → List β → Prop
  /-- Nothing shows nothing. -/
  | nil : Shows sees hidden [] []
  /-- An element is seen as one of the part. -/
  | hit {a : α} {b : β} {whole : List α} {part : List β} :
      sees a b → Shows sees hidden whole part → Shows sees hidden (a :: whole) (b :: part)
  /-- A hidden element is passed over. -/
  | miss {a : α} {whole : List α} {part : List β} :
      hidden a → Shows sees hidden whole part → Shows sees hidden (a :: whole) part

namespace Shows

variable {α β γ δ : Type} {sees : α → β → Prop} {hidden : α → Prop} {whole : List α} {part : List β}

/-! ## Lists made of lists -/

/-- Nothing shows only nothing. -/
theorem eq_nil (h : Shows sees hidden [] part) : part = [] := by
  cases h
  rfl

/-- Lists in a row show the parts in a row. -/
theorem append {whole' : List α} {part' : List β} (h : Shows sees hidden whole part)
    (h' : Shows sees hidden whole' part') : Shows sees hidden (whole ++ whole') (part ++ part') := by
  induction h with
  | nil => exact h'
  | hit hsees _ ih => exact .hit hsees ih
  | miss hhidden _ ih => exact .miss hhidden ih

/-- Changing the elements of both lists keeps what they show, if it keeps what is seen and hidden. -/
theorem map {sees' : γ → δ → Prop} {hidden' : γ → Prop} {f : α → γ} {g : β → δ}
    (h : Shows sees hidden whole part) (hsees : ∀ a b, sees a b → sees' (f a) (g b))
    (hhidden : ∀ a, hidden a → hidden' (f a)) :
    Shows sees' hidden' (whole.map f) (part.map g) := by
  induction h with
  | nil => exact .nil
  | hit hab _ ih => exact .hit (hsees _ _ hab) ih
  | miss ha _ ih => exact .miss (hhidden _ ha) ih

/-- Keeping the same elements of both lists keeps what they show. -/
theorem filter {keep : α → Bool} {keep' : β → Bool} (h : Shows sees hidden whole part)
    (hkeep : ∀ a b, sees a b → a ∈ whole → b ∈ part → keep a = keep' b) :
    Shows sees hidden (whole.filter keep) (part.filter keep') := by
  induction h with
  | nil => exact .nil
  | @hit a b whole part hab _ ih =>
    have rest := ih fun a' b' hsees ha hb =>
      hkeep a' b' hsees (List.mem_cons_of_mem a ha) (List.mem_cons_of_mem b hb)
    rw [List.filter_cons, List.filter_cons, hkeep a b hab List.mem_cons_self List.mem_cons_self]
    split
    · exact .hit hab rest
    · exact rest
  | @miss a whole part ha _ ih =>
    have rest := ih fun a' b' hsees ha' hb => hkeep a' b' hsees (List.mem_cons_of_mem a ha') hb
    rw [List.filter_cons]
    split
    · exact .miss ha rest
    · exact rest

/-- What is not seen in the whole is hidden, and what is seen is in the part. -/
theorem of_mem_whole (h : Shows sees hidden whole part) {a : α} (ha : a ∈ whole) :
    hidden a ∨ ∃ b ∈ part, sees a b := by
  induction h with
  | nil => cases ha
  | hit hab _ ih =>
    rcases List.mem_cons.mp ha with rfl | ha
    · exact .inr ⟨_, List.mem_cons_self, hab⟩
    · exact (ih ha).imp id fun ⟨b, hb, hsees⟩ => ⟨b, List.mem_cons_of_mem _ hb, hsees⟩
  | miss hhidden _ ih =>
    rcases List.mem_cons.mp ha with rfl | ha
    · exact .inl hhidden
    · exact ih ha

/-- The elements of the part are seen in the whole. -/
theorem of_mem_part (h : Shows sees hidden whole part) {b : β} (hb : b ∈ part) :
    ∃ a ∈ whole, sees a b := by
  induction h with
  | nil => cases hb
  | hit hab _ ih =>
    rcases List.mem_cons.mp hb with rfl | hb
    · exact ⟨_, List.mem_cons_self, hab⟩
    · obtain ⟨a, ha, hsees⟩ := ih hb
      exact ⟨a, List.mem_cons_of_mem _ ha, hsees⟩
  | miss _ _ ih =>
    obtain ⟨a, ha, hsees⟩ := ih hb
    exact ⟨a, List.mem_cons_of_mem _ ha, hsees⟩

/-- Around an element of the whole, the part shows what is before and what is after it. -/
theorem split {before after : List α} {a : α} (h : Shows sees hidden (before ++ a :: after) part) :
    (hidden a ∧ Shows sees hidden (before ++ after) part) ∨
      ∃ b before' after', sees a b ∧ part = before' ++ b :: after' ∧
        Shows sees hidden before before' ∧ Shows sees hidden after after' := by
  induction before generalizing part with
  | nil =>
    cases h with
    | hit hab hafter => exact .inr ⟨_, [], _, hab, rfl, .nil, hafter⟩
    | miss ha hafter => exact .inl ⟨ha, hafter⟩
  | cons c before ih =>
    cases h with
    | @hit _ d _ rest hcd hrest =>
      rcases ih hrest with ⟨ha, hothers⟩ | ⟨b, before', after', hab, rfl, hbefore, hafter⟩
      · exact .inl ⟨ha, .hit hcd hothers⟩
      · exact .inr ⟨b, d :: before', after', hab, rfl, .hit hcd hbefore, hafter⟩
    | miss hc hrest =>
      rcases ih hrest with ⟨ha, hothers⟩ | ⟨b, before', after', hab, rfl, hbefore, hafter⟩
      · exact .inl ⟨ha, .miss hc hothers⟩
      · exact .inr ⟨b, before', after', hab, rfl, .miss hc hbefore, hafter⟩

/-- Elements that are not hidden are counted in the part. -/
theorem countP {count : α → Bool} {count' : β → Bool} (h : Shows sees hidden whole part)
    (hseen : ∀ a b, sees a b → count a = count' b) (hhidden : ∀ a, hidden a → count a = false) :
    whole.countP count = part.countP count' := by
  induction h with
  | nil => rfl
  | hit hab _ ih => rw [List.countP_cons, List.countP_cons, ih, hseen _ _ hab]
  | miss ha _ ih => rw [List.countP_cons, ih, hhidden _ ha, if_neg Bool.false_ne_true, Nat.add_zero]

/-- Taking away an element that is seen takes it away from the part. -/
theorem erase [DecidableEq α] [DecidableEq β] (h : Shows sees hidden whole part) {a : α} {b : β}
    (hiff : ∀ a' b', sees a' b' → (a' = a ↔ b' = b)) (hhidden : ¬ hidden a) :
    Shows sees hidden (whole.erase a) (part.erase b) := by
  induction h with
  | nil => exact .nil
  | @hit a' b' whole part hab hrest ih =>
    -- both lists lose their heads, or both keep them
    by_cases heq : a' = a
    · rw [heq, (hiff a' b' hab).mp heq, List.erase_cons_head, List.erase_cons_head]
      exact hrest
    · rw [List.erase_cons_tail (by simpa using heq),
        List.erase_cons_tail (by simpa using fun hb => heq ((hiff a' b' hab).mpr hb))]
      exact .hit hab ih
  | @miss a' whole part ha' hrest ih =>
    have hne : a' ≠ a := fun heq => hhidden (heq ▸ ha')
    rw [List.erase_cons_tail (by simpa using hne)]
    exact .miss ha' ih

/-- Taking away a hidden element changes nothing of the part. -/
theorem erase_hidden [DecidableEq α] (h : Shows sees hidden whole part) {a : α}
    (hseen : ∀ b, ¬ sees a b) : Shows sees hidden (whole.erase a) part := by
  induction h with
  | nil => exact .nil
  | @hit a' b' whole part hab _ ih =>
    have hne : a' ≠ a := fun heq => hseen b' (heq ▸ hab)
    rw [List.erase_cons_tail (by simpa using hne)]
    exact .hit hab ih
  | @miss a' whole part ha' hrest ih =>
    by_cases heq : a' = a
    · rw [heq, List.erase_cons_head]
      exact hrest
    · rw [List.erase_cons_tail (by simpa using heq)]
      exact .miss ha' ih

/-! ## Sorted lists -/

/-- Two lists that are sorted by keys of one order, where all that is not hidden in the one is seen in the
other, show each other. -/
theorem of_sorted {key : α → Nat} {key' : β → Nat} {f : Nat → Nat} (hf : StrictMono f)
    (hwhole : whole.Pairwise fun a a' => key a < key a')
    (hpart : part.Pairwise fun b b' => key' b < key' b')
    (hkey : ∀ a b, a ∈ whole → b ∈ part → sees a b → key a = f (key' b) ∧ ¬ hidden a)
    (hseen : ∀ a ∈ whole, hidden a ∨ ∃ b ∈ part, sees a b) (hall : ∀ b ∈ part, ∃ a ∈ whole, sees a b) :
    Shows sees hidden whole part := by
  induction whole generalizing part with
  | nil =>
    cases part with
    | nil => exact .nil
    | cons b part =>
      obtain ⟨a, ha, -⟩ := hall b List.mem_cons_self
      cases ha
  | cons a whole ih =>
    obtain ⟨hlater, hwhole⟩ := List.pairwise_cons.mp hwhole
    rcases hseen a List.mem_cons_self with ha | ⟨b, hb, hab⟩
    · refine .miss ha (ih hwhole hpart (fun a' b' ha' => hkey a' b' (List.mem_cons_of_mem a ha'))
        (fun a' ha' => hseen a' (List.mem_cons_of_mem a ha')) fun b hb => ?_)
      obtain ⟨a', ha', hab'⟩ := hall b hb
      rcases List.mem_cons.mp ha' with rfl | ha'
      · exact absurd ha (hkey a' b List.mem_cons_self hb hab').2
      · exact ⟨a', ha', hab'⟩
    · cases part with
      | nil => cases hb
      | cons c part =>
        obtain ⟨hlater', hrest⟩ := List.pairwise_cons.mp hpart
        have hkab := (hkey a b List.mem_cons_self hb hab).1
        -- what the first element of the whole is seen as comes first in the part
        obtain rfl : b = c := by
          rcases List.mem_cons.mp hb with rfl | hb'
          · rfl
          · obtain ⟨a', ha', hac⟩ := hall c List.mem_cons_self
            have hkac := (hkey a' c ha' List.mem_cons_self hac).1
            have hless := hf (hlater' b hb')
            rcases List.mem_cons.mp ha' with rfl | ha'
            · omega
            · have := hlater a' ha'
              omega
        refine .hit hab (ih hwhole hrest ?_ ?_ ?_)
        · exact fun a' b' ha' hb' =>
            hkey a' b' (List.mem_cons_of_mem a ha') (List.mem_cons_of_mem b hb')
        · intro a' ha'
          refine (hseen a' (List.mem_cons_of_mem a ha')).imp id ?_
          rintro ⟨b', hb', hab'⟩
          rcases List.mem_cons.mp hb' with rfl | hb'
          · have := (hkey a' b' (List.mem_cons_of_mem a ha') List.mem_cons_self hab').1
            have := hlater a' ha'
            omega
          · exact ⟨b', hb', hab'⟩
        · intro b' hb'
          obtain ⟨a', ha', hab'⟩ := hall b' (List.mem_cons_of_mem b hb')
          rcases List.mem_cons.mp ha' with rfl | ha'
          · have := (hkey a' b' List.mem_cons_self (List.mem_cons_of_mem b hb') hab').1
            have := hf (hlater' b' hb')
            omega
          · exact ⟨a', ha', hab'⟩

/-! ## Choosing -/

/-- When both lists are compared in one way, the first least element of the whole is hidden, or it is seen
as the first least element of the part. -/
theorem leastBy? {lt : α → α → Bool} {lt' : β → β → Bool}
    (asymm : ∀ a b, lt a b = true → lt b a = false)
    (trans : ∀ a b c, lt b a = false → lt c b = false → lt c a = false)
    (h : Shows sees hidden whole part)
    (hlt : ∀ a b a' b', b ∈ part → b' ∈ part → sees a b → sees a' b' → lt a a' = lt' b b')
    {a : α} (ha : RegisterColoring.leastBy? lt whole = some a) :
    hidden a ∨ ∃ b, sees a b ∧ RegisterColoring.leastBy? lt' part = some b := by
  -- what is before the least element is greater, and what is after it is not less
  obtain ⟨before, after, rfl, hbefore, hafter⟩ := exists_of_leastBy? asymm trans ha
  rcases h.split with ⟨hhidden, -⟩ | ⟨b, before', after', hab, rfl, hshows, hshows'⟩
  · exact .inl hhidden
  · refine .inr ⟨b, hab, leastBy?_of_split ?_ ?_⟩
    · intro c hc
      obtain ⟨x, hx, hxc⟩ := hshows.of_mem_part hc
      rw [← hlt a b x c (by simp) (by simp [hc]) hab hxc]
      exact hbefore x hx
    · intro c hc
      obtain ⟨x, hx, hxc⟩ := hshows'.of_mem_part hc
      rw [← hlt x c a b (by simp [hc]) (by simp) hxc hab]
      exact hafter x hx

/-! ## Positions -/

/-- The elements of the part have positions in the whole, in the same order. Beyond the end of the part
the positions are beyond the end of the whole. -/
theorem exists_positions (h : Shows sees hidden whole part) :
    ∃ k : Nat → Nat, StrictMono k ∧
      (∀ i b, part[i]? = some b → ∃ a, whole[k i]? = some a ∧ sees a b) ∧
      ∀ i, part.length ≤ i → whole.length ≤ k i := by
  induction h with
  | nil =>
    refine ⟨id, strictMono_id, ?_, fun i _ => Nat.zero_le _⟩
    intro i b hi
    cases hi
  | @hit a b whole part hab _ ih =>
    obtain ⟨k, hmono, hseen, hend⟩ := ih
    -- the new head is at 0, and all others have moved on by one
    refine ⟨fun i => i.casesOn 0 fun i => k i + 1, ?_, ?_, ?_⟩
    · refine strictMono_nat_of_lt_succ fun i => ?_
      cases i with
      | zero => exact Nat.succ_pos _
      | succ i => exact Nat.succ_lt_succ (hmono (Nat.lt_succ_self i))
    · intro i c hi
      cases i with
      | zero =>
        cases hi
        exact ⟨a, rfl, hab⟩
      | succ i => exact hseen i c hi
    · intro i hi
      cases i with
      | zero => cases hi
      | succ i => exact Nat.succ_le_succ (hend i (Nat.le_of_succ_le_succ hi))
  | miss _ _ ih =>
    obtain ⟨k, hmono, hseen, hend⟩ := ih
    exact ⟨fun i => k i + 1, fun i j hij => Nat.succ_lt_succ (hmono hij), hseen,
      fun i hi => Nat.succ_le_succ (hend i hi)⟩

end Shows

end RegisterColoring
