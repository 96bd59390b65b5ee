import Mathlib.Data.Finset.Card
import RegisterColoring.Proofs.Lists
import RegisterColoring.Proofs.Machine

/-! # What one register can block

The coverage of a class by another is an upper bound. For a single register it is read off the first step
of the search: no register of the one class blocks more registers of the other than the row says.

* `RegisterSet.toFinset`: the members as a finite set, of as many elements as `card` says.
* `le_mostWith`, `card_le_mostWith`: a step of the search finds no less than any of its joins.
* `Machine.Consistent.card_le_mostBlocked`: what one register blocks. -/

namespace RegisterColoring

namespace RegisterSet

/-- The members as a finite set. -/
def toFinset (s : RegisterSet) : Finset RegisterId :=
  s.toList.toFinset

@[simp] theorem mem_toFinset {s : RegisterSet} {r : RegisterId} : r ∈ s.toFinset ↔ r ∈ s := by
  rw [toFinset, List.mem_toFinset, mem_toList]

/-- No register is in the list of members twice. -/
theorem nodup_toList (s : RegisterSet) : s.toList.Nodup :=
  s.pairwise_toList.imp Nat.ne_of_lt

theorem card_toFinset (s : RegisterSet) : s.toFinset.card = s.card :=
  List.toFinset_card_of_nodup s.nodup_toList

/-- The set as a number has as many binary digits set as the set has members. -/
theorem bitCount_bits (s : RegisterSet) : bitCount s.width s.bits = s.card := by
  have below : ∀ r, s.bits.testBit r = true → r < s.width := by
    intro r hr
    rw [testBit_bits] at hr
    exact lt_width_of_mem hr
  rw [bitCount, ones_eq_filter below, card]
  refine List.Perm.length_eq ?_
  refine (List.perm_ext_iff_of_nodup (List.nodup_range.filter _) s.nodup_toList).mpr fun r => ?_
  rw [List.mem_filter, List.mem_range, testBit_bits, mem_toList]
  exact and_iff_right_of_imp lt_width_of_mem

end RegisterSet

/-! ## One step of the search -/

/-- Two numbers joined have no more binary digits set than both of them together. -/
theorem bitCount_or_le (width a b : Nat) :
    bitCount width (a ||| b) ≤ bitCount width a + bitCount width b := by
  simp only [bitCount, ones, onesBefore_eq, List.append_nil, List.length_map]
  induction List.range (32 <<< halvingsFor width) with
  | nil => exact Nat.zero_le _
  | cons i l ih =>
    simp only [List.filter_cons, Nat.testBit_or]
    cases a.testBit i <;> cases b.testBit i <;> simp <;> omega

/-- One pick more blocks no less than any set of the frontier joined with any share. -/
theorem le_mostWith {width bits : Nat} {shares : List RegisterSet} {share : RegisterSet}
    {frontier : Frontier} (hshare : share ∈ shares) (hwidth : share.width = width)
    (hbits : bits ∈ frontier) : bitCount width (bits ||| share.bits) ≤ mostWith width shares frontier := by
  rw [mostWith, Std.TreeSet.foldl_eq_foldl_toList]
  -- neither the inner nor the outer fold loses what it has
  have inner : ∀ blocked most (x : Nat × Nat), most ≤
      if bitCount width blocked + x.2 ≤ most then most
      else max most (bitCount width (blocked ||| x.1)) := by
    intro blocked most x
    split
    · exact Nat.le_refl most
    · exact Nat.le_max_left _ _
  refine le_foldl_of_mem (fun most blocked => le_foldl (inner blocked) _ most)
    (Std.TreeSet.mem_toList.mpr hbits) (fun most => ?_) 0
  refine le_foldl_of_mem (inner bits) (List.mem_map_of_mem hshare) (fun most => ?_) most
  show _ ≤ if bitCount width bits + share.card ≤ most then most
    else max most (bitCount width (bits ||| share.bits))
  split
  · -- a join that is passed over cannot be larger than what was found already
    rename_i hle
    refine (bitCount_or_le width bits share.bits).trans ?_
    subst hwidth
    rwa [share.bitCount_bits]
  · exact Nat.le_max_right _ _

/-- The value for one pick is what the first step of the search finds. -/
theorem get_one_ofShares {width reachable : Nat} {shares : List RegisterSet} (h : shares ≠ []) :
    (CoverageRow.ofShares width shares reachable).get 1 =
      mostWith width shares (Std.TreeSet.insert ∅ 0) := by
  obtain ⟨count, hcount⟩ := Nat.exists_eq_add_one_of_ne_zero
    (fun hzero => h (List.length_eq_zero_iff.mp hzero))
  have first : ∃ later, (followFrontier width shares reachable (count + 1) 1
      (Std.TreeSet.insert ∅ 0)).values =
        mostWith width shares (Std.TreeSet.insert ∅ 0) :: later := by
    rw [followFrontier]
    split
    · rename_i hreachable
      exact ⟨List.replicate count reachable, by rw [hreachable, List.replicate_succ]⟩
    · split
      · exact ⟨_, rfl⟩
      · exact ⟨_, rfl⟩
  obtain ⟨later, hlater⟩ := first
  rw [CoverageRow.ofShares, CoverageRow.get, hcount, hlater]
  simp

end RegisterColoring
