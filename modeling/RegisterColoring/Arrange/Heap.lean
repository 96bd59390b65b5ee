import RegisterColoring.Arrange

/-! # Heapsort

Sorting in a number of steps that does not depend on how the elements are mixed. The elements are kept in
an array that is read as a tree: the children of position `i` are at `2 * i + 1` and `2 * i + 2`. In a heap
no element is below its children, so that the first element is a highest one.

* `siftDown`: let an element sink to its place.
* `buildHeap`, `unloadHeap`: make the array a heap, and take the highest element off it again and again.
* `heapSortBy lt l`: the elements of `l`, sorted.
* `heapSortBy_perm`, `pairwise_heapSortBy`: nothing is lost, and no element is below one before it. -/

namespace RegisterColoring

universe u

variable {α : Type u}

/-! ## Slots -/

/-- The element at a position. -/
def slot [Inhabited α] (v : Array α) (i : Nat) : α :=
  v.getD i default

/-- The array with two elements in each other's place. -/
def exchange (v : Array α) (i j : Nat) : Array α :=
  v.swapIfInBounds i j

/-- Exchanging keeps the size. -/
@[simp] theorem size_exchange (v : Array α) (i j : Nat) : (exchange v i j).size = v.size := by
  simp [exchange]

/-- Exchanging rearranges. -/
theorem exchange_perm (v : Array α) (i j : Nat) : List.Perm (exchange v i j).toList v.toList := by
  rw [exchange, Array.swapIfInBounds]
  split
  · split
    · exact Array.perm_iff_toList_perm.mp (Array.swap_perm _ _)
    · exact .refl _
  · exact .refl _

variable [Inhabited α]

/-- Inside the array, a slot holds the element there. -/
theorem slot_eq_getElem {v : Array α} {i : Nat} (h : i < v.size) : slot v i = v[i] := by
  simp [slot, h]

/-- Exchanging changes two slots and no other. -/
theorem slot_exchange {v : Array α} {i j : Nat} (hi : i < v.size) (hj : j < v.size) (k : Nat) :
    slot (exchange v i j) k = if k = i then slot v j else if k = j then slot v i else slot v k := by
  by_cases hk : k < v.size
  · rw [slot_eq_getElem (by simpa using hk), slot_eq_getElem hi, slot_eq_getElem hj,
      slot_eq_getElem hk]
    simp only [exchange, Array.swapIfInBounds, hi, hj, dite_true, Array.getElem_swap]
  · have hki : k ≠ i := by omega
    have hkj : k ≠ j := by omega
    rw [if_neg hki, if_neg hkj, slot, slot]
    simp [hk, Array.getD]

/-! ## Sinking -/

/-- The higher one of the children of a position that has one, the first on ties. -/
def higherChild (lt : α → α → Bool) (v : Array α) (size node : Nat) : Nat :=
  if 2 * node + 2 < size ∧ lt (slot v (2 * node + 1)) (slot v (2 * node + 2)) = true then 2 * node + 2
  else 2 * node + 1

/-- Let the element at `node` sink, among the first `size` elements, until it is below none of its
children; the number of steps is bounded. -/
def siftDown (lt : α → α → Bool) : (steps : Nat) → Array α → (size node : Nat) → Array α
  | 0, v, _, _ => v
  | steps + 1, v, size, node =>
    if 2 * node + 1 < size then
      let child := higherChild lt v size node
      if lt (slot v node) (slot v child) then siftDown lt steps (exchange v node child) size child
      else v
    else v

/-- Make the first positions heads of heaps, when those from `count` on are. -/
def buildHeap (lt : α → α → Bool) : (count : Nat) → Array α → Array α
  | 0, v => v
  | node + 1, v => buildHeap lt node (siftDown lt v.size v v.size node)

/-- Sort the first `size` elements, which are a heap: the highest one goes behind the others, and they
are made a heap again. -/
def unloadHeap (lt : α → α → Bool) : (size : Nat) → Array α → Array α
  | 0, v => v
  | last + 1, v => unloadHeap lt last (siftDown lt last (exchange v 0 last) last 0)

/-- The elements of a list in the order of `lt`. -/
def heapSortBy (lt : α → α → Bool) (l : List α) : List α :=
  (unloadHeap lt l.length (buildHeap lt (l.length / 2) l.toArray)).toList

/-! ## Nothing is lost -/

/-- Sinking rearranges. -/
theorem siftDown_perm (lt : α → α → Bool) (steps : Nat) (v : Array α) (size node : Nat) :
    List.Perm (siftDown lt steps v size node).toList v.toList := by
  induction steps generalizing v node with
  | zero => exact .refl _
  | succ steps ih =>
    rw [siftDown]
    split
    · dsimp only
      split
      · exact (ih _ _).trans (exchange_perm v _ _)
      · exact .refl _
    · exact .refl _

/-- Making a heap rearranges. -/
theorem buildHeap_perm (lt : α → α → Bool) (count : Nat) (v : Array α) :
    List.Perm (buildHeap lt count v).toList v.toList := by
  induction count generalizing v with
  | zero => exact .refl _
  | succ node ih => exact (ih _).trans (siftDown_perm lt _ v _ _)

/-- Unloading a heap rearranges. -/
theorem unloadHeap_perm (lt : α → α → Bool) (size : Nat) (v : Array α) :
    List.Perm (unloadHeap lt size v).toList v.toList := by
  induction size generalizing v with
  | zero => exact .refl _
  | succ last ih => exact (ih _).trans ((siftDown_perm lt _ _ _ _).trans (exchange_perm v _ _))

/-- Sorting rearranges: nothing is lost and nothing appears. -/
theorem heapSortBy_perm (lt : α → α → Bool) (l : List α) : List.Perm (heapSortBy lt l) l :=
  (unloadHeap_perm lt _ _).trans (buildHeap_perm lt _ l.toArray)

/-- Sinking keeps the size. -/
@[simp] theorem size_siftDown (lt : α → α → Bool) (steps : Nat) (v : Array α) (size node : Nat) :
    (siftDown lt steps v size node).size = v.size := by
  simpa using (siftDown_perm lt steps v size node).length_eq

/-- Making a heap keeps the size. -/
@[simp] theorem size_buildHeap (lt : α → α → Bool) (count : Nat) (v : Array α) :
    (buildHeap lt count v).size = v.size := by
  simpa using (buildHeap_perm lt count v).length_eq

/-! ## Where sinking reaches -/

/-- The higher child of a position that has one is inside. -/
theorem higherChild_lt (lt : α → α → Bool) (v : Array α) {size node : Nat}
    (h : 2 * node + 1 < size) : higherChild lt v size node < size := by
  rw [higherChild]
  split
  · rename_i hr
    exact hr.1
  · exact h

/-- The higher child comes after its parent, and the parent is read off its position. -/
theorem lt_higherChild (lt : α → α → Bool) (v : Array α) (size node : Nat) :
    node < higherChild lt v size node ∧ (higherChild lt v size node - 1) / 2 = node := by
  rw [higherChild]
  split <;> omega

/-- Sinking leaves the elements behind the first `size` where they are. -/
theorem slot_siftDown_of_le {lt : α → α → Bool} (steps : Nat) {v : Array α} {size node i : Nat}
    (hv : size ≤ v.size) (hi : size ≤ i) : slot (siftDown lt steps v size node) i = slot v i := by
  induction steps generalizing v node with
  | zero => rfl
  | succ steps ih =>
    rw [siftDown]
    split
    · rename_i hc
      have child := higherChild_lt lt v hc
      dsimp only
      split
      · rw [ih (by simpa using hv), slot_exchange (by omega) (by omega), if_neg (by omega),
          if_neg (by omega)]
      · rfl
    · rfl

/-- Sinking brings into the first `size` slots only what is there already. -/
theorem exists_slot_siftDown (lt : α → α → Bool) (steps : Nat) (v : Array α) {size i : Nat}
    (node : Nat) (hv : size ≤ v.size) (hi : i < size) :
    ∃ j, j < size ∧ slot (siftDown lt steps v size node) i = slot v j := by
  induction steps generalizing v node with
  | zero => exact ⟨i, hi, rfl⟩
  | succ steps ih =>
    rw [siftDown]
    split
    · rename_i hc
      have child := higherChild_lt lt v hc
      dsimp only
      split
      · obtain ⟨j, hj, he⟩ := ih (exchange v node (higherChild lt v size node))
          (higherChild lt v size node) (by simpa using hv)
        rw [he, slot_exchange (by omega) (by omega)]
        split
        · exact ⟨_, child, rfl⟩
        · split
          · exact ⟨node, by omega, rfl⟩
          · exact ⟨j, hj, rfl⟩
      · exact ⟨i, hi, rfl⟩
    · exact ⟨i, hi, rfl⟩

/-! ## Heaps -/

/-- Among the first `size` elements, none from position `start` on is below a child of it. -/
def IsHeap (lt : α → α → Bool) (v : Array α) (size start : Nat) : Prop :=
  ∀ c, 0 < c → c < size → start ≤ (c - 1) / 2 → lt (slot v ((c - 1) / 2)) (slot v c) = false

/-- The same but for `node`, whose children are not above its parent. -/
structure IsHeapBut (lt : α → α → Bool) (v : Array α) (size start node : Nat) : Prop where
  /-- All other elements are not below their children. -/
  others : ∀ c, 0 < c → c < size → start ≤ (c - 1) / 2 → (c - 1) / 2 ≠ node →
    lt (slot v ((c - 1) / 2)) (slot v c) = false
  /-- The parent is not below the children of `node`. -/
  parent : 0 < node → start ≤ (node - 1) / 2 → ∀ c, 0 < c → c < size → (c - 1) / 2 = node →
    lt (slot v ((node - 1) / 2)) (slot v c) = false

/-- The higher child is not below the other one. -/
theorem not_higherChild_lt {lt : α → α → Bool} (asymm : ∀ a b, lt a b = true → lt b a = false)
    {v : Array α} {size node c : Nat} (hc : 0 < c) (hs : c < size) (hp : (c - 1) / 2 = node) :
    lt (slot v (higherChild lt v size node)) (slot v c) = false := by
  have irrefl : ∀ a, lt a a = false := fun a => by
    cases h : lt a a with
    | false => rfl
    | true => exact h.symm.trans (asymm a a h)
  have hc : c = 2 * node + 1 ∨ c = 2 * node + 2 := by omega
  rw [higherChild]
  split
  · rename_i h
    rcases hc with rfl | rfl
    · exact asymm _ _ h.2
    · exact irrefl _
  · rename_i h
    rcases hc with rfl | rfl
    · exact irrefl _
    · exact Bool.eq_false_iff.mpr fun hlt => h ⟨hs, hlt⟩

/-- Sinking makes a heap of what is one but for the element that sinks. -/
theorem isHeap_siftDown {lt : α → α → Bool} (asymm : ∀ a b, lt a b = true → lt b a = false)
    (trans : ∀ a b c, lt b a = false → lt c b = false → lt c a = false)
    (steps : Nat) {v : Array α} {size start node : Nat} (hv : size ≤ v.size) (hn : start ≤ node)
    (hsteps : size ≤ node + steps) (h : IsHeapBut lt v size start node) :
    IsHeap lt (siftDown lt steps v size node) size start := by
  induction steps generalizing v node with
  | zero =>
    intro c hc hs hp
    exact h.others c hc hs hp (by omega)
  | succ steps ih =>
    rw [siftDown]
    split
    · rename_i hchild
      have inSize := higherChild_lt lt v hchild
      have place := lt_higherChild lt v size node
      have higher {c : Nat} (hc : 0 < c) (hs : c < size) (hp : (c - 1) / 2 = node) :=
        not_higherChild_lt asymm (v := v) hc hs hp
      dsimp only
      generalize hm : higherChild lt v size node = m at inSize place higher
      have swapped := slot_exchange (v := v) (i := node) (j := m) (by omega) (by omega)
      split
      · rename_i hlt
        refine ih (by simpa using hv) (by omega) (by omega) ⟨?_, ?_⟩
        · intro c hc hs hp hne
          rw [swapped, swapped]
          by_cases hpn : (c - 1) / 2 = node
          · rw [if_pos hpn]
            by_cases hcm : c = m
            · rw [if_neg (by omega), if_pos hcm]
              exact asymm _ _ hlt
            · rw [if_neg (by omega), if_neg hcm]
              exact higher hc hs hpn
          · rw [if_neg hpn, if_neg hne]
            by_cases hcn : c = node
            · rw [if_pos hcn, hcn]
              rw [hcn] at hc hp
              exact h.parent hc hp m (by omega) inSize place.2
            · rw [if_neg hcn, if_neg (by omega)]
              exact h.others c hc hs hp hpn
        · intro _ _ c hc hs hp
          rw [swapped, swapped, if_pos place.2, if_neg (by omega), if_neg (by omega)]
          have := h.others c hc hs (by omega) (by omega)
          rwa [hp] at this
      · rename_i hlt
        intro c hc hs hp
        by_cases hpn : (c - 1) / 2 = node
        · rw [hpn]
          exact trans _ _ _ (higher hc hs hpn) (Bool.eq_false_iff.mpr hlt)
        · exact h.others c hc hs hp hpn
    · rename_i hchild
      intro c hc hs hp
      exact h.others c hc hs hp (by omega)

/-- When the positions from `count` on head heaps, making a heap leaves all of them doing so. -/
theorem isHeap_buildHeap {lt : α → α → Bool} (asymm : ∀ a b, lt a b = true → lt b a = false)
    (trans : ∀ a b c, lt b a = false → lt c b = false → lt c a = false) (count : Nat) (v : Array α)
    (h : IsHeap lt v v.size count) : IsHeap lt (buildHeap lt count v) v.size 0 := by
  induction count generalizing v with
  | zero => exact h
  | succ node ih =>
    have sunk : IsHeap lt (siftDown lt v.size v v.size node) v.size node :=
      isHeap_siftDown asymm trans v.size (Nat.le_refl _) (Nat.le_refl _) (by omega)
        ⟨fun c hc hs hp hne => h c hc hs (by omega), fun hp hs => by omega⟩
    have := ih (siftDown lt v.size v v.size node) (by simpa using sunk)
    simpa [buildHeap] using this

/-- The first element of a heap is a highest one. -/
theorem not_slot_zero_lt {lt : α → α → Bool} (asymm : ∀ a b, lt a b = true → lt b a = false)
    (trans : ∀ a b c, lt b a = false → lt c b = false → lt c a = false) {v : Array α} {size : Nat}
    (h : IsHeap lt v size 0) (i : Nat) (hi : i < size) : lt (slot v 0) (slot v i) = false := by
  induction i using Nat.strongRecOn with
  | ind i ih =>
    by_cases h0 : i = 0
    · rw [h0]
      cases hlt : lt (slot v 0) (slot v 0) with
      | false => rfl
      | true => exact hlt.symm.trans (asymm _ _ hlt)
    · exact trans _ _ _ (h i (by omega) hi (Nat.zero_le _)) (ih ((i - 1) / 2) (by omega) (by omega))

/-! ## The result is in order -/

/-- From position `size` on the elements are in order, and none of them is below one of the first `size`. -/
def IsSortedFrom (lt : α → α → Bool) (v : Array α) (size : Nat) : Prop :=
  ∀ i j, i < j → size ≤ j → j < v.size → lt (slot v j) (slot v i) = false

/-- Unloading a heap in front of sorted elements that are no lower sorts the whole array. -/
theorem isSortedFrom_unloadHeap {lt : α → α → Bool}
    (asymm : ∀ a b, lt a b = true → lt b a = false)
    (trans : ∀ a b c, lt b a = false → lt c b = false → lt c a = false) (size : Nat) (v : Array α)
    (hv : size ≤ v.size) (heap : IsHeap lt v size 0) (sorted : IsSortedFrom lt v size) :
    IsSortedFrom lt (unloadHeap lt size v) 0 := by
  induction size generalizing v with
  | zero => exact sorted
  | succ last ih =>
    have highest := not_slot_zero_lt asymm trans heap
    have swapped := slot_exchange (v := v) (i := 0) (j := last) (by omega) (by omega)
    rw [unloadHeap]
    refine ih _ (by simp; omega) ?_ ?_
    · refine isHeap_siftDown asymm trans last (by simp; omega) (Nat.le_refl _) (by omega) ⟨?_, ?_⟩
      · intro c hc hs _ hne
        rw [swapped, swapped, if_neg hne, if_neg (by omega), if_neg (by omega), if_neg (by omega)]
        exact heap c hc (by omega) (Nat.zero_le _)
      · intro h0
        omega
    · intro i j hij hlj hj
      have hj : j < v.size := by simpa using hj
      rw [slot_siftDown_of_le last (by simp; omega) hlj, swapped j, if_neg (by omega)]
      by_cases hi : i < last
      · obtain ⟨k, hk, he⟩ := exists_slot_siftDown lt last (exchange v 0 last) 0
          (by simp; omega) hi
        rw [he, swapped k]
        by_cases hjl : j = last
        · rw [if_pos hjl]
          split
          · exact highest last (by omega)
          · rw [if_neg (by omega)]
            exact highest k (by omega)
        · rw [if_neg hjl]
          split
          · exact sorted last j (by omega) (by omega) hj
          · rw [if_neg (by omega)]
            exact sorted k j (by omega) (by omega) hj
      · rw [slot_siftDown_of_le last (by simp; omega) (by omega), swapped i, if_neg (by omega)]
        split
        · exact sorted last j (by omega) (by omega) hj
        · split
          · exact sorted 0 j (by omega) (by omega) hj
          · exact sorted i j hij (by omega) hj

/-- In a sorted list no element is below one before it. -/
theorem pairwise_heapSortBy {lt : α → α → Bool} (asymm : ∀ a b, lt a b = true → lt b a = false)
    (trans : ∀ a b c, lt b a = false → lt c b = false → lt c a = false) (l : List α) :
    (heapSortBy lt l).Pairwise fun a b => lt b a = false := by
  have built : IsHeap lt (buildHeap lt (l.length / 2) l.toArray) l.length 0 := by
    have := isHeap_buildHeap asymm trans (l.length / 2) l.toArray
      (fun c hc hs hp => by simp at hs; omega)
    simpa using this
  have sorted := isSortedFrom_unloadHeap asymm trans l.length
    (buildHeap lt (l.length / 2) l.toArray) (by simp) built
    (fun i j _ hlj hj => by simp at hj; omega)
  rw [List.pairwise_iff_getElem]
  intro i j hi hj hij
  have := sorted i j hij (Nat.zero_le _) (by simpa [heapSortBy] using hj)
  rw [slot_eq_getElem (by simpa [heapSortBy] using hj),
    slot_eq_getElem (by simpa [heapSortBy] using hi)] at this
  simp only [heapSortBy, Array.getElem_toList]
  exact this

end RegisterColoring
