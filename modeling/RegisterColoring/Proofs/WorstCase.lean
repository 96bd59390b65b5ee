import Mathlib.Algebra.Order.BigOperators.Group.List
import Mathlib.Algebra.Order.Group.Nat
import RegisterColoring.Proofs.Frontier

/-! # The most that picks block

A row of coverage says how many registers picks out of a class can block at worst. As long as the search follows
all sets, its values are what some picks really block. Once there are too many sets, the largest shares are
added up instead. Across the two, the values are an upper bound, do not fall with more picks, grow by no more
than the largest share with each, and end with everything that the class can reach.

* `sum_le_sum_take`: the beginning of a descending list adds up to the most.
* `Rated`: what the value for a number of picks is, before and after the search was cut off.
* `CoverageRow.Follows`, `follows_followFrontier`: the values of a row, by induction on the search.
* `Surveys.card_le_get`, `Surveys.get_mono`, `Surveys.get_le_mul`, `Surveys.get_eq_reachable`: what follows.
* `Surveys.cutoff_eq_none_iff`: when the search is not cut off.
* `mostBlocked_sharp`: all of this for the classes of a machine. -/

namespace RegisterColoring

variable {share : RegisterId → RegisterSet} {rs : List RegisterId} {k width reachable : Nat}

/-! ## The largest shares -/

/-- No part of a descending list adds up to more than the beginning of the list of that length. -/
theorem sum_le_sum_take {l t : List Nat} (hl : l.Pairwise (· ≥ ·)) (ht : t.Sublist l)
    (hk : t.length ≤ k) : t.sum ≤ (l.take k).sum := by
  induction l generalizing t k with
  | nil => simp [List.sublist_nil.mp ht]
  | cons a l ih =>
    obtain ⟨ha, hl⟩ := List.pairwise_cons.mp hl
    cases t with
    | nil => exact Nat.zero_le _
    | cons b t =>
      cases k with
      | zero => simp at hk
      | succ k =>
        have hba : b ≤ a := by
          rcases List.mem_cons.mp (ht.subset List.mem_cons_self) with rfl | hb
          · exact le_rfl
          · exact ha b hb
        rw [List.take_succ_cons, List.sum_cons, List.sum_cons]
        exact Nat.add_le_add hba (ih hl ht.tail (Nat.le_of_succ_le_succ hk))

/-- The sizes of the shares, descending. -/
def sizesOf (share : RegisterId → RegisterSet) (rs : List RegisterId) : List Nat :=
  sortBy (fun a b => b < a) ((rs.map share).map RegisterSet.card)

theorem pairwise_sizesOf (share : RegisterId → RegisterSet) (rs : List RegisterId) :
    (sizesOf share rs).Pairwise (· ≥ ·) :=
  -- larger sizes come first
  pairwise_key_sortBy (f := OrderDual.toDual) (fun _ _ => decide_eq_true_iff) _

/-- Picks have shares that add up to no more than as many of the largest. -/
theorem sum_card_le {S : Finset RegisterId} (hS : S ⊆ rs.toFinset) (hcard : S.card ≤ k) :
    ∑ r ∈ S, (share r).card ≤ ((sizesOf share rs).take k).sum := by
  have inside : S.toList.Subperm rs :=
    List.subperm_of_subset S.nodup_toList fun r hr => List.mem_toFinset.mp (hS (Finset.mem_toList.mp hr))
  obtain ⟨t, ht, hsub⟩ := inside
  obtain ⟨sizes, hsizes, hsub⟩ := ((hsub.map share).map RegisterSet.card).subperm.trans
    (sortBy_perm (fun a b => decide (b < a)) _).symm.subperm
  calc ∑ r ∈ S, (share r).card = (S.toList.map fun r => (share r).card).sum := (Finset.sum_map_toList S _).symm
    _ = ((t.map share).map RegisterSet.card).sum := by
      rw [List.map_map]
      exact (ht.map _).sum_eq.symm
    _ = sizes.sum := hsizes.sum_eq.symm
    _ ≤ ((sizesOf share rs).take k).sum := by
      refine sum_le_sum_take (pairwise_sizesOf share rs) hsub ?_
      rw [hsizes.length_eq, List.length_map, List.length_map, ht.length_eq, Finset.length_toList]
      exact hcard

/-- What the search is about: registers that are listed once, with shares of one width, and how much all of
them block together. -/
structure Surveys (share : RegisterId → RegisterSet) (rs : List RegisterId) (width reachable : Nat) :
    Prop where
  /-- No register is listed twice. -/
  nodup : rs.Nodup
  /-- The shares have that width. -/
  width_eq : ∀ r ∈ rs, (share r).width = width
  /-- All registers together block so many. -/
  reachable_eq : (jointShare share rs.toFinset).card = reachable

namespace Surveys

variable (h : Surveys share rs width reachable)

include h

/-- No picks block more than all registers together. -/
theorem card_le_reachable {S : Finset RegisterId} (hS : S ⊆ rs.toFinset) :
    (jointShare share S).card ≤ reachable := by
  rw [← h.reachable_eq]
  exact Finset.card_le_card (jointShare_mono hS)

/-- The largest shares, added up, are no less than what picks block together. -/
theorem card_le_greedyBound {S : Finset RegisterId} (hS : S ⊆ rs.toFinset) (hcard : S.card ≤ k) :
    (jointShare share S).card ≤ greedyBound (sizesOf share rs) reachable k := by
  refine le_min ?_ (h.card_le_reachable hS)
  calc (jointShare share S).card ≤ ∑ r ∈ S, (share r).toFinset.card := Finset.card_biUnion_le
    _ = ∑ r ∈ S, (share r).card := by simp only [RegisterSet.card_toFinset]
    _ ≤ ((sizesOf share rs).take k).sum := sum_card_le hS hcard

end Surveys

/-- More picks give no smaller bound. -/
theorem greedyBound_mono (sizes : List Nat) (reachable : Nat) : Monotone (greedyBound sizes reachable) := by
  intro j k hjk
  refine min_le_min_right reachable ?_
  exact (List.take_sublist_take_left hjk).sum_le_sum fun _ _ => Nat.zero_le _

/-- The bound grows with each pick by the largest share at most. -/
theorem greedyBound_le_mul {sizes : List Nat} {v : Nat} (hv : ∀ size ∈ sizes, size ≤ v) :
    greedyBound sizes reachable k ≤ k * v := by
  calc greedyBound sizes reachable k ≤ (sizes.take k).sum := min_le_left _ _
    _ ≤ (sizes.take k).length * v :=
      List.sum_le_card_nsmul _ _ fun size hsize => hv size (List.mem_of_mem_take hsize)
    _ ≤ k * v := Nat.mul_le_mul_right v (List.length_take_le k sizes)

/-! ## The values of a row -/

/-- What the value `v` for a number of picks is, when the search was cut off at `cutoff` picks, if at all. -/
structure Rated (share : RegisterId → RegisterSet) (rs : List RegisterId) (reachable : Nat)
    (cutoff : Option Nat) (picks v : Nat) : Prop where
  /-- Up to there it is what some picks block at most. -/
  peak : (∀ c ∈ cutoff, picks ≤ c) → Peak share rs picks v
  /-- After that it is what the largest shares add up to. -/
  greedy : ∀ c ∈ cutoff, c < picks → v = greedyBound (sizesOf share rs) reachable picks
  /-- The search goes on only if there are not too many sets. -/
  few : (∀ c ∈ cutoff, picks < c) → v ≠ reachable → (blockable share rs picks).card ≤ exactLimit

/-- Whether the values of a row are those for `first` picks, one more, and so on. -/
structure CoverageRow.Follows (share : RegisterId → RegisterSet) (rs : List RegisterId) (reachable : Nat)
    (first : Nat) (row : CoverageRow) : Prop where
  /-- What the values are. -/
  rated : ∀ i v, row.values[i]? = some v → Rated share rs reachable row.cutoff (first + i) v
  /-- The search was cut off where there were too many sets and something was left to reach. -/
  cut : ∀ c ∈ row.cutoff, exactLimit < (blockable share rs c).card ∧
    ∃ i v, c = first + i ∧ row.values[i]? = some v ∧ v ≠ reachable

/-- Once everything is reached, more picks block no more. -/
theorem Peak.of_reachable (h : Surveys share rs width reachable) (hpeak : Peak share rs k reachable) {j : Nat}
    (hkj : k ≤ j) : Peak share rs j reachable := by
  obtain ⟨S, hS, hcard, hjoint⟩ := hpeak.attained
  exact ⟨fun S hS _ => h.card_le_reachable hS, S, hS, hcard.trans hkj, hjoint⟩

/-- A row in which everything is reached. -/
theorem CoverageRow.follows_replicate (h : Surveys share rs width reachable)
    (hpeak : Peak share rs k reachable) (count : Nat) :
    Follows share rs reachable k ⟨List.replicate count reachable, none⟩ where
  rated i v hv := by
    obtain ⟨-, rfl⟩ := by simpa [List.getElem?_replicate] using hv
    exact ⟨fun _ => hpeak.of_reachable h (Nat.le_add_right k i), by simp, fun _ hne => absurd rfl hne⟩
  cut := by simp

/-- A row that is cut off after its first value. -/
theorem CoverageRow.follows_cut {best : Nat} (hpeak : Peak share rs k best) (hbest : best ≠ reachable)
    (hmany : exactLimit < (blockable share rs k).card) (count : Nat) :
    Follows share rs reachable k ⟨best :: (List.range count).map fun i =>
      greedyBound (sizesOf share rs) reachable (k + 1 + i), some k⟩ where
  rated i v hv := by
    cases i with
    | zero =>
      obtain rfl : best = v := by simpa using hv
      exact ⟨fun _ => hpeak, by simp, by simp⟩
    | succ i =>
      rw [List.getElem?_cons_succ, List.getElem?_map] at hv
      obtain ⟨j, hj, rfl⟩ := Option.map_eq_some_iff.mp hv
      obtain ⟨-, rfl⟩ := List.getElem?_eq_some_iff.mp hj
      rw [List.getElem_range, show k + (i + 1) = k + 1 + i by omega]
      refine ⟨fun hle => absurd (hle k rfl) (by omega), fun _ _ _ => rfl, fun hlt => ?_⟩
      exact absurd (hlt k rfl) (by omega)
  cut := by
    simp only [Option.mem_def, Option.some.injEq]
    rintro c rfl
    exact ⟨hmany, 0, best, rfl, rfl, hbest⟩

/-- A row that goes on after its first value. -/
theorem CoverageRow.Follows.cons {row : CoverageRow} {best : Nat}
    (hrow : Follows share rs reachable (k + 1) row) (hpeak : Peak share rs k best)
    (hfew : (blockable share rs k).card ≤ exactLimit) :
    Follows share rs reachable k ⟨best :: row.values, row.cutoff⟩ where
  rated i v hv := by
    cases i with
    | zero =>
      obtain rfl : best = v := by simpa using hv
      refine ⟨fun _ => hpeak, fun c hc hlt => ?_, fun _ _ => hfew⟩
      obtain ⟨-, i, -, rfl, -⟩ := hrow.cut c hc
      omega
    | succ i =>
      have hrated := hrow.rated i v (by simpa using hv)
      rwa [show k + 1 + i = k + (i + 1) by omega] at hrated
  cut c hc := by
    obtain ⟨hmany, i, v, rfl, hv, hne⟩ := hrow.cut c hc
    exact ⟨hmany, i + 1, v, by omega, by simpa using hv, hne⟩

theorem length_followFrontier {shares : List RegisterSet} {remaining picks : Nat} {frontier : Frontier} :
    (followFrontier width shares reachable remaining picks frontier).values.length = remaining := by
  induction remaining generalizing picks frontier with
  | zero => rfl
  | succ remaining ih =>
    rw [followFrontier]
    split
    · exact List.length_replicate
    · split
      · simp
      · simp [ih]

/-- The values that the search gives from a number of picks on, when it starts with all sets that one pick less
can block. -/
theorem follows_followFrontier (h : Surveys share rs width reachable) (remaining : Nat) {frontier : Frontier}
    (hfrontier : frontier.Lists (blockable share rs k)) :
    CoverageRow.Follows share rs reachable (k + 1)
      (followFrontier width (rs.map share) reachable remaining (k + 1) frontier) := by
  induction remaining generalizing k frontier with
  | zero => exact ⟨by simp [followFrontier], by simp [followFrontier]⟩
  | succ remaining ih =>
    have hpeak := peak_mostWith hfrontier h.width_eq
    rw [followFrontier]
    split
    · rename_i hreachable
      rw [hreachable] at hpeak
      exact CoverageRow.follows_replicate h hpeak (remaining + 1)
    · rename_i hbest
      split
      · -- even if sets were left out, those that were kept are too many
        rename_i hlimit
        refine CoverageRow.follows_cut hpeak hbest ?_ remaining
        exact hlimit.trans_le (Frontier.size_le_card (Frontier.sound_widen hfrontier.sound))
      · rename_i hlimit
        have hnext := hfrontier.widen (Nat.le_of_not_lt hlimit)
        refine CoverageRow.Follows.cons (ih hnext) hpeak ?_
        exact (Frontier.card_le_size hnext.complete).trans (Nat.le_of_not_lt hlimit)

namespace Surveys

variable (h : Surveys share rs width reachable) {row : CoverageRow}
  (hrow : row = .ofShares width (rs.map share) reachable)

include hrow

omit h in
theorem length_values : row.values.length = rs.length + 1 := by
  simp [hrow, CoverageRow.ofShares, length_followFrontier]

omit h in
/-- Past the number of registers the value stays. -/
theorem getElem?_values_min (picks : Nat) : row.values[min picks rs.length]? = some (row.get picks) := by
  have hlength := length_values hrow
  have hlt : min picks rs.length < row.values.length := by omega
  rw [CoverageRow.get, hlength, Nat.add_sub_cancel, List.getD_eq_getElem?_getD, List.getElem?_eq_getElem hlt,
    Option.getD_some]

include h

/-- The values of a row are those for no pick, one, and so on. -/
theorem follows : row.Follows share rs reachable 0 := by
  subst hrow
  have hlist := Frontier.lists_noneBlocked share rs
  refine CoverageRow.Follows.cons (follows_followFrontier h _ hlist) ?_ ?_
  · refine ⟨fun S _ hcard => ?_, ∅, Finset.empty_subset _, le_rfl, rfl⟩
    rw [Finset.card_eq_zero.mp (Nat.le_zero.mp hcard)]
    exact le_rfl
  · exact Nat.one_le_iff_ne_zero.mpr (by decide)

/-- What the value for a number of picks is. -/
theorem rated_get (picks : Nat) :
    Rated share rs reachable row.cutoff (min picks rs.length) (row.get picks) := by
  have hrated := (h.follows hrow).rated _ _ (getElem?_values_min hrow picks)
  rwa [Nat.zero_add] at hrated

/-- A value is what some picks block at most, or the search was cut off before. -/
theorem peak_or_cut (picks : Nat) : Peak share rs (min picks rs.length) (row.get picks) ∨
    ∃ c ∈ row.cutoff, c < min picks rs.length := by
  by_cases hcut : ∀ c ∈ row.cutoff, min picks rs.length ≤ c
  · exact .inl ((h.rated_get hrow picks).peak hcut)
  · push Not at hcut
    exact .inr hcut

/-! ## What the values say -/

/-- Picks block together no more than the value for their number. -/
theorem card_le_get {S : Finset RegisterId} (hS : S ⊆ rs.toFinset) {picks : Nat} (hcard : S.card ≤ picks) :
    (jointShare share S).card ≤ row.get picks := by
  have hmin : S.card ≤ min picks rs.length :=
    le_min hcard ((Finset.card_le_card hS).trans (List.toFinset_card_le rs))
  rcases h.peak_or_cut hrow picks with hpeak | ⟨c, hc, hlt⟩
  · exact hpeak.le S hS hmin
  · rw [(h.rated_get hrow picks).greedy c hc hlt]
    exact h.card_le_greedyBound hS hmin

/-- No value is above what all registers block together. -/
theorem get_le_reachable (picks : Nat) : row.get picks ≤ reachable := by
  rcases h.peak_or_cut hrow picks with hpeak | ⟨c, hc, hlt⟩
  · obtain ⟨S, hS, -, hjoint⟩ := hpeak.attained
    rw [← hjoint]
    exact h.card_le_reachable hS
  · rw [(h.rated_get hrow picks).greedy c hc hlt]
    exact min_le_right _ _

/-- The values end with what all registers block together. -/
theorem get_eq_reachable {picks : Nat} (hpicks : rs.length ≤ picks) : row.get picks = reachable := by
  refine le_antisymm (h.get_le_reachable hrow picks) ?_
  have hall := h.card_le_get hrow (Finset.Subset.refl rs.toFinset) ((List.toFinset_card_le rs).trans hpicks)
  rwa [h.reachable_eq] at hall

/-- More picks have no smaller value, also where the search was cut off between the two. -/
theorem get_mono : Monotone row.get := by
  intro j k hjk
  have hmin : min j rs.length ≤ min k rs.length := min_le_min_right rs.length hjk
  rcases h.peak_or_cut hrow j with hpeak | ⟨c, hc, hlt⟩
  · -- some picks block so many, and the value for more picks is a bound on them
    obtain ⟨S, hS, hcard, hjoint⟩ := hpeak.attained
    rw [← hjoint]
    exact h.card_le_get hrow hS ((hcard.trans (min_le_left j rs.length)).trans hjk)
  · rw [(h.rated_get hrow j).greedy c hc hlt, (h.rated_get hrow k).greedy c hc (hlt.trans_le hmin)]
    exact greedyBound_mono _ _ hmin

/-- No share is larger than the value for one pick. -/
theorem card_share_le_get_one {r : RegisterId} (hr : r ∈ rs) : (share r).card ≤ row.get 1 := by
  have hone := h.card_le_get hrow (Finset.singleton_subset_iff.mpr (List.mem_toFinset.mpr hr))
    (Finset.card_singleton r).le
  rwa [jointShare, Finset.singleton_biUnion, RegisterSet.card_toFinset] at hone

/-- Each pick counts for no more than the value for one. -/
theorem get_le_mul (picks : Nat) : row.get picks ≤ picks * row.get 1 := by
  refine le_trans ?_ (Nat.mul_le_mul_right _ (min_le_left picks rs.length))
  rcases h.peak_or_cut hrow picks with hpeak | ⟨c, hc, hlt⟩
  · obtain ⟨S, hS, hcard, hjoint⟩ := hpeak.attained
    calc row.get picks = (jointShare share S).card := hjoint.symm
      _ ≤ S.card * row.get 1 := by
        refine Finset.card_biUnion_le_card_mul S _ _ fun r hr => ?_
        rw [RegisterSet.card_toFinset]
        exact h.card_share_le_get_one hrow (List.mem_toFinset.mp (hS hr))
      _ ≤ min picks rs.length * row.get 1 := Nat.mul_le_mul_right _ hcard
  · rw [(h.rated_get hrow picks).greedy c hc hlt]
    refine greedyBound_le_mul fun size hsize => ?_
    obtain ⟨s, hs, rfl⟩ := List.mem_map.mp ((sortBy_perm _ _).mem_iff.mp hsize)
    obtain ⟨r, hr, rfl⟩ := List.mem_map.mp hs
    exact h.card_share_le_get_one hrow hr

/-- The search is cut off exactly if there are too many sets while something is left to reach. -/
theorem cutoff_eq_none_iff : row.cutoff = none ↔
    ∀ k ≤ rs.length, row.get k ≠ reachable → (blockable share rs k).card ≤ exactLimit := by
  constructor
  · intro hnone k hk hne
    have hrated := h.rated_get hrow k
    rw [hnone, min_eq_left hk] at hrated
    exact hrated.few (by simp) hne
  · intro hfew
    refine Option.eq_none_iff_forall_not_mem.mpr fun c hc => ?_
    obtain ⟨hmany, i, v, rfl, hv, hne⟩ := (h.follows hrow).cut c hc
    rw [Nat.zero_add] at hmany
    have hi : i ≤ rs.length := by
      have hlt := (List.getElem?_eq_some_iff.mp hv).1
      rw [length_values hrow] at hlt
      omega
    have hget := getElem?_values_min hrow i
    rw [min_eq_left hi, hv, Option.some.injEq] at hget
    exact absurd (hfew i hi (hget ▸ hne)) (Nat.not_le_of_gt hmany)

/-- If the search is not cut off, picks of each number block what the value says. -/
theorem exists_card_eq_get (hnone : row.cutoff = none) {k : Nat} (hk : k ≤ rs.length) :
    ∃ S ⊆ rs.toFinset, S.card = k ∧ (jointShare share S).card = row.get k := by
  have hrated := h.rated_get hrow k
  rw [hnone, min_eq_left hk] at hrated
  obtain ⟨S, hS, hcard, hjoint⟩ := (hrated.peak (by simp)).attained
  rw [← List.toFinset_card_of_nodup h.nodup] at hk
  -- picks that are left over may be any registers
  obtain ⟨S', hSS', hS', hcard'⟩ := Finset.exists_subsuperset_card_eq hS hcard hk
  refine ⟨S', hS', hcard', le_antisymm (h.card_le_get hrow hS' hcard'.le) ?_⟩
  rw [← hjoint]
  exact Finset.card_le_card (jointShare_mono hSS')

end Surveys

/-! ## Classes of a machine -/

namespace Machine

/-- The registers of class `n` that share storage with one of some picks. -/
def blockedBy (m : Machine) (n : ClassId) (picks : Finset RegisterId) : Finset RegisterId :=
  (m.members n).toFinset.filter fun q => ∃ r ∈ picks, q ∈ m.aliases r

/-- The registers of class `n` that share storage with a register. -/
def shareOf (m : Machine) (n : ClassId) (r : RegisterId) : RegisterSet :=
  (m.aliases r).inter (m.members n)

/-- The sets of registers of class `n` that so many picks out of class `c` can block. -/
def blockableBy (m : Machine) (n c : ClassId) (picks : Nat) : Finset (Finset RegisterId) :=
  blockable (m.shareOf n) (m.members c).toList picks

/-- The number of registers of class `n` that share storage with a register of class `c`. -/
def reachableFrom (m : Machine) (n c : ClassId) : Nat :=
  ((m.members n).inter (m.classAt c).aliases).card

variable {m : Machine}

theorem jointShare_shareOf (n : ClassId) (picks : Finset RegisterId) :
    jointShare (m.shareOf n) picks = m.blockedBy n picks := by
  ext q
  simp only [mem_jointShare, shareOf, RegisterSet.mem_inter, blockedBy, Finset.mem_filter,
    RegisterSet.mem_toFinset]
  tauto

theorem Consistent.surveys (hm : m.Consistent) (n c : ClassId) :
    Surveys (m.shareOf n) (m.members c).toList m.registerCount (m.reachableFrom n c) where
  nodup := (m.members c).nodup_toList
  width_eq r hr := by
    rw [shareOf, RegisterSet.width_inter]
    exact hm.width_aliases r (hm.lt_of_mem_members c r (RegisterSet.mem_toList.mp hr))
  reachable_eq := by
    rw [reachableFrom, ← RegisterSet.card_toFinset]
    congr 1
    ext q
    simp only [mem_jointShare, List.mem_toFinset, RegisterSet.mem_toList, shareOf, RegisterSet.mem_inter,
      RegisterSet.mem_toFinset, hm.mem_class_aliases]
    tauto

theorem Consistent.coverageRow_eq_ofShares (hm : m.Consistent) {n c : ClassId} (hn : n < m.classCount)
    (hc : c < m.classCount) : m.coverageRow n c =
      .ofShares m.registerCount ((m.members c).toList.map (m.shareOf n)) (m.reachableFrom n c) :=
  hm.coverageRow_eq n c hn hc

end Machine

/-- For two classes of an accepted machine: picks out of the second block no more registers of the first than the
table says. More picks have no smaller value, each counts for no more than the value for one, and as many as the
class has registers reach all that it can. The search is cut off exactly if, while something is left to reach,
more than 4096 sets can be blocked; if it is not, some picks of each number block what the table says. -/
theorem mostBlocked_sharp {d : MachineDescription} {m : Machine} (hm : Machine.ofDescription d = .ok m)
    {n c : ClassId} (hn : n < m.classCount) (hc : c < m.classCount) :
    (∀ picks ⊆ (m.members c).toFinset, ∀ k, picks.card ≤ k →
      (m.blockedBy n picks).card ≤ m.mostBlocked n c k) ∧
    Monotone (m.mostBlocked n c) ∧
    (∀ k, m.mostBlocked n c k ≤ k * m.mostBlocked n c 1) ∧
    (∀ k, m.capacity c ≤ k → m.mostBlocked n c k = m.reachableFrom n c) ∧
    ((m.coverageRow n c).cutoff = none ↔ ∀ k ≤ m.capacity c,
      m.mostBlocked n c k ≠ m.reachableFrom n c → (m.blockableBy n c k).card ≤ 4096) ∧
    ((m.coverageRow n c).cutoff = none → ∀ k ≤ m.capacity c, ∃ picks ⊆ (m.members c).toFinset,
      picks.card = k ∧ (m.blockedBy n picks).card = m.mostBlocked n c k) := by
  have hcon := Machine.consistent_of_ofDescription hm
  have hsurvey := hcon.surveys n c
  have hrow := hcon.coverageRow_eq_ofShares hn hc
  simp only [← Machine.jointShare_shareOf]
  exact ⟨fun picks hpicks k hk => hsurvey.card_le_get hrow hpicks hk, hsurvey.get_mono hrow,
    hsurvey.get_le_mul hrow, fun k hk => hsurvey.get_eq_reachable hrow hk, hsurvey.cutoff_eq_none_iff hrow,
    fun hnone k hk => hsurvey.exists_card_eq_get hrow hnone hk⟩

/-- One of the four bytes blocks one of the two words, and three of them can block no more than both. -/
theorem mostBlocked_sharp_quad : quadMachine.mostBlocked 1 0 1 = 1 ∧ quadMachine.mostBlocked 1 0 2 = 2 ∧
    (quadMachine.blockedBy 1 {1, 3}).card ≤ quadMachine.mostBlocked 1 0 2 ∧
    quadMachine.mostBlocked 1 0 9 = quadMachine.reachableFrom 1 0 ∧
    ∃ picks ⊆ (quadMachine.members 0).toFinset, picks.card = 3 ∧
      (quadMachine.blockedBy 1 picks).card = quadMachine.mostBlocked 1 0 3 := by
  have hn : 1 < quadMachine.classCount := by decide
  have hc : 0 < quadMachine.classCount := by decide
  obtain ⟨le, -, -, reach, -, attained⟩ := mostBlocked_sharp ofDescription_quad hn hc
  refine ⟨by decide +kernel, by decide +kernel, le {1, 3} ?_ 2 ?_, reach 9 ?_, attained ?_ 3 ?_⟩
  all_goals decide +kernel

end RegisterColoring
