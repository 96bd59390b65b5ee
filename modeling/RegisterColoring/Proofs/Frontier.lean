import Mathlib.Combinatorics.Enumerative.DoubleCounting
import RegisterColoring.Proofs.Coverage

/-! # What the frontier holds

The search for the most registers that picks can block goes from the sets that a number of picks can block to
those of one pick more. It keeps the sets as numbers, drops them once there are too many, and passes over
joins that cannot be the largest. Where there are not too many, the numbers are those of exactly the sets that
so many picks can block, and the largest join is the most that one pick more can block.

* `jointShare`, `blockable`: what some picks block together, and all that a number of picks can block.
* `mem_blockable_iff`: a register may be picked again, so these are the joint shares of at most so many.
* `IsNumberOf`, `Frontier.Lists`: numbers that stand for sets, and a frontier that has those of given sets.
* `Frontier.Lists.widen`: a step of the search leads to the sets of one pick more.
* `Peak`, `peak_mostWith`: the most that at most so many picks block, as a step of the search finds it. -/

namespace RegisterColoring

variable {share : RegisterId → RegisterSet} {rs : List RegisterId} {k width : Nat}

/-! ## Picks and what they block -/

/-- What some picks block together, when each register blocks its share. -/
def jointShare (share : RegisterId → RegisterSet) (picks : Finset RegisterId) : Finset RegisterId :=
  picks.biUnion fun r => (share r).toFinset

/-- A register is blocked if it is in the share of a pick. -/
@[simp] theorem mem_jointShare {S : Finset RegisterId} {q : RegisterId} :
    q ∈ jointShare share S ↔ ∃ r ∈ S, q ∈ share r := by
  simp [jointShare]

/-- More picks block no less. -/
theorem jointShare_mono {S T : Finset RegisterId} (h : S ⊆ T) :
    jointShare share S ⊆ jointShare share T :=
  Finset.biUnion_subset_biUnion_of_subset_left _ h

/-- One pick more adds its share. -/
theorem jointShare_insert (r : RegisterId) (S : Finset RegisterId) :
    jointShare share (insert r S) = jointShare share S ∪ (share r).toFinset := by
  rw [jointShare, Finset.biUnion_insert, Finset.union_comm]
  rfl

/-- The sets that so many picks out of a list can block together, when a register may be picked again. -/
def blockable (share : RegisterId → RegisterSet) (rs : List RegisterId) : Nat → Finset (Finset RegisterId)
  | 0 => {∅}
  | k + 1 => (blockable share rs k).biUnion fun T => rs.toFinset.image fun r => T ∪ (share r).toFinset

/-- One pick more joins a share to what could be blocked before. -/
theorem mem_blockable_succ {T : Finset RegisterId} : T ∈ blockable share rs (k + 1) ↔
    ∃ T' ∈ blockable share rs k, ∃ r ∈ rs, T' ∪ (share r).toFinset = T := by
  simp [blockable]

/-- The sets that so many picks can block are the joint shares of at most so many registers, and of at least one
unless there is no pick. -/
theorem mem_blockable_iff {T : Finset RegisterId} : T ∈ blockable share rs k ↔
    ∃ S ⊆ rs.toFinset, S.card ≤ k ∧ (k = 0 ∨ S.Nonempty) ∧ jointShare share S = T := by
  induction k generalizing T with
  | zero =>
    simp only [blockable, Finset.mem_singleton, Nat.le_zero, Finset.card_eq_zero, true_or, true_and]
    constructor
    · rintro rfl
      exact ⟨∅, Finset.empty_subset _, rfl, rfl⟩
    · rintro ⟨S, -, rfl, rfl⟩
      rfl
  | succ k ih =>
    rw [mem_blockable_succ]
    constructor
    · rintro ⟨T', hT', r, hr, rfl⟩
      obtain ⟨S, hS, hcard, -, rfl⟩ := ih.mp hT'
      refine ⟨insert r S, ?_, ?_, .inr (Finset.insert_nonempty r S), jointShare_insert r S⟩
      · exact Finset.insert_subset (List.mem_toFinset.mpr hr) hS
      · exact (Finset.card_insert_le r S).trans (Nat.succ_le_succ hcard)
    · rintro ⟨S, hS, hcard, hne, rfl⟩
      obtain ⟨r, hr⟩ := hne.resolve_left (Nat.succ_ne_zero k)
      have hmem : r ∈ rs := List.mem_toFinset.mp (hS hr)
      by_cases hle : S.card ≤ k
      · -- a pick is left over, and picks a register again
        refine ⟨jointShare share S, ih.mpr ⟨S, hS, hle, .inr ⟨r, hr⟩, rfl⟩, r, hmem, ?_⟩
        rw [← jointShare_insert, Finset.insert_eq_of_mem hr]
      · have hcard' : (S.erase r).card = k := by
          rw [Finset.card_erase_of_mem hr]
          omega
        refine ⟨jointShare share (S.erase r), ih.mpr ⟨S.erase r, ?_, hcard'.le, ?_, rfl⟩, r, hmem, ?_⟩
        · exact (Finset.erase_subset r S).trans hS
        · rcases Nat.eq_zero_or_pos k with hk | hk
          · exact .inl hk
          · exact .inr (Finset.card_pos.mp (hcard'.symm ▸ hk))
        · rw [← jointShare_insert, Finset.insert_erase hr]

/-- The most registers that at most `k` picks out of a list block together. -/
structure Peak (share : RegisterId → RegisterSet) (rs : List RegisterId) (k v : Nat) : Prop where
  /-- No such picks block more. -/
  le : ∀ S ⊆ rs.toFinset, S.card ≤ k → (jointShare share S).card ≤ v
  /-- Some such picks block so many. -/
  attained : ∃ S ⊆ rs.toFinset, S.card ≤ k ∧ (jointShare share S).card = v

/-! ## Numbers that stand for sets -/

/-- Whether the binary digits of a number that are set are the registers of a set. -/
def IsNumberOf (bits : Nat) (T : Finset RegisterId) : Prop :=
  ∀ q, bits.testBit q = true ↔ q ∈ T

namespace IsNumberOf

variable {bits bits' : Nat} {T T' : Finset RegisterId}

/-- A set has one number. -/
theorem eq_bits (h : IsNumberOf bits T) (h' : IsNumberOf bits' T) : bits = bits' :=
  Nat.eq_of_testBit_eq fun q => Bool.eq_iff_iff.mpr ((h q).trans (h' q).symm)

/-- A number stands for one set. -/
theorem eq_set (h : IsNumberOf bits T) (h' : IsNumberOf bits T') : T = T' :=
  Finset.ext fun q => (h q).symm.trans (h' q)

/-- The empty set has the number 0. -/
theorem zero : IsNumberOf 0 ∅ := by
  simp [IsNumberOf]

/-- Joining a number with that of a share stands for the union. -/
theorem or (h : IsNumberOf bits T) (s : RegisterSet) : IsNumberOf (bits ||| s.bits) (T ∪ s.toFinset) := by
  intro q
  rw [Nat.testBit_or, Bool.or_eq_true, h q, s.testBit_bits, Finset.mem_union, RegisterSet.mem_toFinset,
    RegisterSet.mem_def]

/-- A number that stands for a set has as many digits set as the set has members. -/
theorem bitCount_eq (h : IsNumberOf bits T) (hwidth : ∀ q ∈ T, q < width) :
    bitCount width bits = T.card := by
  have below : ∀ q, bits.testBit q = true → q < width := fun q hq => hwidth q ((h q).mp hq)
  rw [bitCount, ones_eq_filter below, ← List.toFinset_card_of_nodup (List.nodup_range.filter _)]
  congr 1
  ext q
  rw [List.mem_toFinset, List.mem_filter, List.mem_range, h q]
  exact and_iff_right_of_imp (hwidth q)

end IsNumberOf

/-! ## Frontiers -/

namespace Frontier

variable {frontier : Frontier} {sets : Finset (Finset RegisterId)} {joins : List Nat}

/-- Whether a frontier has the numbers of the given sets and no others. -/
structure Lists (frontier : Frontier) (sets : Finset (Finset RegisterId)) : Prop where
  /-- Every number stands for one of the sets. -/
  sound : ∀ bits ∈ frontier, ∃ T ∈ sets, IsNumberOf bits T
  /-- Every set has a number. -/
  complete : ∀ T ∈ sets, ∃ bits ∈ frontier, IsNumberOf bits T

/-- A frontier has as many numbers as its size says. -/
theorem card_toFinset_toList (frontier : Frontier) : frontier.toList.toFinset.card = frontier.size := by
  rw [List.toFinset_card_of_nodup, Std.TreeSet.length_toList]
  exact Std.TreeSet.distinct_toList.imp fun hne heq => hne (Nat.compare_eq_eq.mpr heq)

/-- A frontier that has numbers of the given sets only has no more than there are sets. -/
theorem size_le_card (h : ∀ bits ∈ frontier, ∃ T ∈ sets, IsNumberOf bits T) :
    frontier.size ≤ sets.card := by
  rw [← card_toFinset_toList]
  refine Finset.card_le_card_of_forall_subsingleton IsNumberOf (fun bits hbits => ?_) ?_
  · exact h bits (Std.TreeSet.mem_toList.mp (List.mem_toFinset.mp hbits))
  · rintro T - bits ⟨-, hbits⟩ bits' ⟨-, hbits'⟩
    exact hbits.eq_bits hbits'

/-- A frontier that has a number for each of the given sets has no fewer than there are sets. -/
theorem card_le_size (h : ∀ T ∈ sets, ∃ bits ∈ frontier, IsNumberOf bits T) :
    sets.card ≤ frontier.size := by
  rw [← card_toFinset_toList]
  refine Finset.card_le_card_of_forall_subsingleton (fun T bits => IsNumberOf bits T) (fun T hT => ?_) ?_
  · obtain ⟨bits, hbits, hT⟩ := h T hT
    exact ⟨bits, List.mem_toFinset.mpr (Std.TreeSet.mem_toList.mpr hbits), hT⟩
  · rintro bits - T ⟨-, hT⟩ T' ⟨-, hT'⟩
    exact hT.eq_set hT'

/-- Before the first pick nothing is blocked. -/
theorem lists_noneBlocked (share : RegisterId → RegisterSet) (rs : List RegisterId) :
    Lists (Std.TreeSet.insert ∅ 0) (blockable share rs 0) := by
  simp only [blockable]
  constructor
  · intro bits hbits
    refine ⟨∅, Finset.mem_singleton_self _, ?_⟩
    rcases Std.TreeSet.mem_insert.mp hbits with heq | hbits
    · rw [Nat.compare_eq_eq] at heq
      exact heq ▸ .zero
    · exact absurd hbits Std.TreeSet.not_mem_emptyc
  · intro T hT
    rw [Finset.mem_singleton.mp hT]
    exact ⟨0, Std.TreeSet.mem_insert_self, .zero⟩

/-! ## Adding up to the limit -/

/-- Adding adds that number only. -/
theorem mem_add {bits : Nat} {b : Nat} (h : b ∈ frontier.add bits) : b ∈ frontier ∨ b = bits := by
  rw [add] at h
  split at h
  · exact .inl h
  · rcases Std.TreeSet.mem_insert.mp h with heq | h
    · exact .inr (Nat.compare_eq_eq.mp heq).symm
    · exact .inl h

/-- Adding numbers adds no others. -/
theorem mem_of_mem_foldl_add {b : Nat} (h : b ∈ joins.foldl add frontier) : b ∈ frontier ∨ b ∈ joins := by
  induction joins generalizing frontier with
  | nil => exact .inl h
  | cons bits joins ih =>
    rcases ih h with h | h
    · rcases mem_add h with h | rfl
      · exact .inl h
      · exact .inr List.mem_cons_self
    · exact .inr (List.mem_cons_of_mem bits h)

/-- Past the limit nothing is added. -/
theorem foldl_add_of_limit (h : exactLimit < frontier.size) : joins.foldl add frontier = frontier := by
  induction joins with
  | nil => rfl
  | cons bits joins ih => rwa [List.foldl_cons, add, if_pos h]

/-- If there are not too many, all numbers are added. -/
theorem mem_foldl_add (hsize : (joins.foldl add frontier).size ≤ exactLimit) {b : Nat}
    (hb : b ∈ frontier ∨ b ∈ joins) : b ∈ joins.foldl add frontier := by
  induction joins generalizing frontier with
  | nil => simpa using hb
  | cons bits joins ih =>
    rw [List.foldl_cons] at hsize ⊢
    by_cases hlimit : exactLimit < frontier.size
    · rw [add, if_pos hlimit, foldl_add_of_limit hlimit] at hsize
      omega
    · refine ih hsize ?_
      rw [add, if_neg hlimit, Std.TreeSet.mem_insert, Nat.compare_eq_eq]
      rcases hb with hb | hb
      · exact .inl (.inr hb)
      · rcases List.mem_cons.mp hb with rfl | hb
        · exact .inl (.inl rfl)
        · exact .inr hb

/-! ## One pick more -/

/-- Every number of a frontier joined with every share. -/
def joinsWith (frontier : Frontier) (shares : List RegisterSet) : List Nat :=
  frontier.toList.flatMap fun bits => shares.map fun s => bits ||| s.bits

/-- The numbers of one pick more are those of the frontier, each joined with a share. -/
theorem mem_joinsWith {b : Nat} : b ∈ joinsWith frontier (rs.map share) ↔
    ∃ bits ∈ frontier, ∃ r ∈ rs, bits ||| (share r).bits = b := by
  simp [joinsWith]

/-- Widening adds the joined numbers one by one. -/
theorem widen_eq_foldl (frontier : Frontier) (shares : List RegisterSet) :
    widen shares frontier = (joinsWith frontier shares).foldl add ∅ := by
  rw [RegisterColoring.widen, joinsWith, Std.TreeSet.foldl_eq_foldl_toList, List.foldl_flatMap]
  simp only [List.foldl_map]

/-- Whether or not there are too many, a step of the search leads to sets of one pick more only. -/
theorem sound_widen (h : ∀ bits ∈ frontier, ∃ T ∈ blockable share rs k, IsNumberOf bits T) :
    ∀ bits ∈ widen (rs.map share) frontier, ∃ T ∈ blockable share rs (k + 1), IsNumberOf bits T := by
  intro b hb
  rw [widen_eq_foldl] at hb
  rcases mem_of_mem_foldl_add hb with hb | hb
  · exact absurd hb Std.TreeSet.not_mem_emptyc
  · obtain ⟨bits, hbits, r, hr, rfl⟩ := mem_joinsWith.mp hb
    obtain ⟨T, hT, hnumber⟩ := h bits hbits
    exact ⟨_, mem_blockable_succ.mpr ⟨T, hT, r, hr, rfl⟩, hnumber.or (share r)⟩

/-- If there are not too many, a step of the search leads to all sets of one pick more. -/
theorem Lists.widen (h : frontier.Lists (blockable share rs k))
    (hsize : (RegisterColoring.widen (rs.map share) frontier).size ≤ exactLimit) :
    Lists (RegisterColoring.widen (rs.map share) frontier) (blockable share rs (k + 1)) := by
  refine ⟨sound_widen h.sound, fun T hT => ?_⟩
  obtain ⟨T', hT', r, hr, rfl⟩ := mem_blockable_succ.mp hT
  obtain ⟨bits, hbits, hnumber⟩ := h.complete T' hT'
  refine ⟨bits ||| (share r).bits, ?_, hnumber.or (share r)⟩
  rw [widen_eq_foldl] at hsize ⊢
  exact mem_foldl_add hsize (.inr (mem_joinsWith.mpr ⟨bits, hbits, r, hr, rfl⟩))

end Frontier

/-- What a step of the search finds is a join, unless it is nothing. -/
theorem mostWith_eq_zero_or (width : Nat) (shares : List RegisterSet) (frontier : Frontier) :
    mostWith width shares frontier = 0 ∨ ∃ bits ∈ frontier, ∃ s ∈ shares,
      mostWith width shares frontier = bitCount width (bits ||| s.bits) := by
  rw [mostWith, Std.TreeSet.foldl_eq_foldl_toList]
  refine List.foldlRecOn (motive := fun most => most = 0 ∨ ∃ bits ∈ frontier, ∃ s ∈ shares,
    most = bitCount width (bits ||| s.bits)) _ _ (.inl rfl) ?_
  intro most hmost bits hbits
  refine List.foldlRecOn (motive := fun most => most = 0 ∨ ∃ bits ∈ frontier, ∃ s ∈ shares,
    most = bitCount width (bits ||| s.bits)) _ _ hmost ?_
  intro most hmost x hx
  obtain ⟨s, hs, rfl⟩ := List.mem_map.mp hx
  simp only
  split
  · exact hmost
  · rcases max_choice most (bitCount width (bits ||| s.bits)) with hmax | hmax
    · rwa [hmax]
    · rw [hmax]
      exact .inr ⟨bits, Std.TreeSet.mem_toList.mp hbits, s, hs, rfl⟩

/-- What a step of the search finds is the most that one pick more can block. -/
theorem peak_mostWith {frontier : Frontier} (h : frontier.Lists (blockable share rs k))
    (hwidth : ∀ r ∈ rs, (share r).width = width) :
    Peak share rs (k + 1) (mostWith width (rs.map share) frontier) := by
  have below : ∀ T ∈ blockable share rs (k + 1), ∀ q ∈ T, q < width := by
    intro T hT q hq
    obtain ⟨S, hS, -, -, rfl⟩ := mem_blockable_iff.mp hT
    obtain ⟨r, hr, hq⟩ := mem_jointShare.mp hq
    rw [← hwidth r (List.mem_toFinset.mp (hS hr))]
    exact RegisterSet.lt_width_of_mem hq
  constructor
  · intro S hS hcard
    rcases S.eq_empty_or_nonempty with rfl | hne
    · exact Nat.zero_le _
    have hT : jointShare share S ∈ blockable share rs (k + 1) :=
      mem_blockable_iff.mpr ⟨S, hS, hcard, .inr hne, rfl⟩
    obtain ⟨T', hT', r, hr, hjoin⟩ := mem_blockable_succ.mp hT
    obtain ⟨bits, hbits, hnumber⟩ := h.complete T' hT'
    have hjoined := hnumber.or (share r)
    rw [hjoin] at hjoined
    rw [← hjoined.bitCount_eq (below _ hT)]
    exact le_mostWith (List.mem_map_of_mem hr) (hwidth r hr) hbits
  · rcases mostWith_eq_zero_or width (rs.map share) frontier with hzero | ⟨bits, hbits, s, hs, hmost⟩
    · exact ⟨∅, Finset.empty_subset _, Nat.zero_le _, hzero.symm⟩
    · obtain ⟨r, hr, rfl⟩ := List.mem_map.mp hs
      obtain ⟨T, hT, hnumber⟩ := h.sound bits hbits
      have hT := mem_blockable_succ.mpr ⟨T, hT, r, hr, rfl⟩
      rw [hmost, (hnumber.or (share r)).bitCount_eq (below _ hT)]
      obtain ⟨S, hS, hcard, -, hjoint⟩ := mem_blockable_iff.mp hT
      exact ⟨S, hS, hcard, congrArg Finset.card hjoint⟩

end RegisterColoring
