import Mathlib.Data.List.Sort
import RegisterColoring.Proofs.Division
import RegisterColoring.Proofs.Grouping
import RegisterColoring.Proofs.Program

/-! # Separation of conflicts

A set with conflicts is divided with the number of linkages between two uses as the weight of their link.
A part has no use twice, so that no strength exceeds the number of linkages, and on a program whose ends
are all there separation comes to an end without a fault.

* `Program.mem_conflictPairs`: conflicts are between members.
* `Program.joins_joinedSets`, `Program.joins_separate`: the sets of a partition are the joined uses, in
  normal form.
* `Program.strength_linkCount_le`: strengths are bounded by the number of linkages.
* `Program.fault?_separate`: separation comes upon no fault.
* `Program.KeptTogether`: the ends of a linkage are in one part.
* `Program.getElem?_linkages_separate`: what separation does to each linkage.
* `Attempt.ofProgram_eq`: an attempt gets as far as its groups. -/

namespace RegisterColoring

/-- Sorting makes a list of uses without repetition strictly ascending. -/
theorem Partition.pairwise_sortBy_before {set : List UseId} (h : set.Nodup) :
    (sortBy before set).Pairwise (· < ·) := by
  have sorted : (sortBy before set).Pairwise (· ≤ ·) :=
    pairwise_key_sortBy (f := id) (fun _ _ => decide_eq_true_iff) set
  have nodup : (sortBy before set).Nodup := (sortBy_perm before set).nodup_iff.mpr h
  exact (sorted.and nodup).imp fun hab => Nat.lt_of_le_of_ne hab.1 hab.2

/-! ## Normal forms -/

namespace Partition

/-- Whether the sets of a partition are strictly ascending and ordered by their first uses. -/
structure Normal (part : Partition) : Prop where
  /-- Each set is strictly ascending. -/
  ascending : ∀ set ∈ part.sets, set.Pairwise (· < ·)
  /-- Sets come in the order of their first uses. -/
  ordered : part.sets.Pairwise fun s t => s.headD 0 < t.headD 0

/-- Sets that have no use in common have a normal form. -/
theorem normal_ofSets {sets : List (List UseId)} (h : sets.flatten.Nodup) : (ofSets sets).Normal := by
  have distinct := List.nodup_flatten.mp ((perm_flatten_ofSets sets).nodup_iff.mpr h)
  constructor
  · intro set hset
    obtain ⟨t, ht, -, rfl⟩ := mem_sets_ofSets.mp hset
    exact pairwise_sortBy_before ((List.nodup_flatten.mp h).1 t ht)
  · have sorted : (ofSets sets).sets.Pairwise fun s t => startsBefore t s = false := by
      refine pairwise_quickSortBy (fun s t hst => ?_) (fun s t r hts hrt => ?_) _
      · exact decide_eq_false (Nat.lt_asymm (of_decide_eq_true hst))
      · refine decide_eq_false (Nat.not_lt.mpr ?_)
        exact (Nat.not_lt.mp (of_decide_eq_false hts)).trans (Nat.not_lt.mp (of_decide_eq_false hrt))
    -- sets without a common use that are not empty have different first uses
    refine (sorted.and distinct.2).imp_of_mem fun {s t} hs ht hst => ?_
    refine Nat.lt_of_le_of_ne (Nat.not_lt.mp (of_decide_eq_false hst.1)) fun heq => ?_
    have first : ∀ set ∈ (ofSets sets).sets, set.headD 0 ∈ set := by
      intro set hset
      obtain ⟨r, -, hne, rfl⟩ := mem_sets_ofSets.mp hset
      cases hsorted : sortBy before r with
      | nil => exact absurd (hsorted ▸ (sortBy_perm before r).symm).eq_nil hne
      | cons u set => exact List.mem_cons_self
    exact hst.2 (first s hs) (heq ▸ first t ht)

/-- Partitions in normal form that have the same sets are the same. -/
theorem Normal.eq_of_mem_iff {part part' : Partition} (h : part.Normal) (h' : part'.Normal)
    (hsets : ∀ set, set ∈ part.sets ↔ set ∈ part'.sets) : part = part' := by
  have irrefl : Std.Irrefl fun s t : List UseId => s.headD 0 < t.headD 0 := ⟨fun _ => Nat.lt_irrefl _⟩
  have antisymm : Std.Antisymm fun s t : List UseId => s.headD 0 < t.headD 0 :=
    ⟨fun _ _ hst hts => absurd hts (Nat.lt_asymm hst)⟩
  have sets : part.sets = part'.sets := h.ordered.eq_of_mem_iff h'.ordered fun set => hsets set
  cases part
  cases part'
  exact congrArg Partition.mk sets

/-- Where no use is in two sets, two uses have one position if and only if they are in one set or in
none. -/
theorem indexOf?_eq_iff_of_nodup {part : Partition} (h : part.sets.flatten.Nodup) {u v : UseId} :
    part.indexOf? u = part.indexOf? v ↔
      (∃ set ∈ part.sets, u ∈ set ∧ v ∈ set) ∨ (u ∉ part.sets.flatten ∧ v ∉ part.sets.flatten) := by
  rw [indexOf?, indexOf?]
  generalize part.sets = sets at h
  induction sets with
  | nil => simp
  | cons set sets ih =>
    rw [List.flatten_cons, List.nodup_append] at h
    obtain ⟨-, hrest, hdisjoint⟩ := h
    have apart : ∀ w, w ∈ set → w ∉ sets.flatten := fun w hw hw' => hdisjoint w hw w hw' rfl
    have elsewhere : ∀ w, w ∈ set → ∀ t ∈ sets, w ∉ t := fun w hw t ht hwt =>
      apart w hw (List.mem_flatten.mpr ⟨t, ht, hwt⟩)
    simp only [List.findIdx?_cons, List.contains_iff_mem, List.mem_cons, exists_eq_or_imp,
      List.flatten_cons, List.mem_append]
    -- a use of the first set is in no other one
    by_cases hu : u ∈ set <;> by_cases hv : v ∈ set
    · simp [hu, hv]
    · have := elsewhere u hu
      simp only [hu, hv, if_true, if_false]
      cases hfound : sets.findIdx? fun t => t.contains v <;> simp
      all_goals exact fun t ht hut => absurd hut (this t ht)
    · have := elsewhere v hv
      simp only [hu, hv, if_true, if_false]
      cases hfound : sets.findIdx? fun t => t.contains u <;> simp
      all_goals exact fun t ht _ => this t ht
    · simp only [hu, hv, if_false, false_and, false_or]
      rw [← ih hrest]
      exact (Option.map_injective (Nat.succ_injective)).eq_iff

/-- The sets of a partition are the joined uses of a program, in normal form. -/
structure Joins (part : Partition) (p : Program) : Prop where
  /-- Uses are in one set if they have one root. -/
  sorted : part.SortedBy p.usesInPlay p.joined.root
  /-- The partition is in normal form. -/
  normal : part.Normal

/-- No set is empty. -/
theorem Joins.ne_nil {part : Partition} {p : Program} (h : part.Joins p) {set : List UseId}
    (hset : set ∈ part.sets) : set ≠ [] := by
  obtain ⟨u, hu, hiff⟩ := h.sorted.mem_iff set hset
  exact List.ne_nil_of_mem ((hiff u).mpr ⟨hu, rfl⟩)

/-- The sets have uses of the program only. -/
theorem Joins.lt_of_mem {part : Partition} {p : Program} (h : part.Joins p) {set : List UseId}
    (hset : set ∈ part.sets) {u : UseId} (hu : u ∈ set) : u < p.uses.size := by
  obtain ⟨v, -, hiff⟩ := h.sorted.mem_iff set hset
  exact (Program.mem_usesInPlay.mp ((hiff u).mp hu).1).1

/-- Sets with a use in common are one set. -/
theorem Joins.eq_of_mem {part : Partition} {p : Program} (h : part.Joins p) {s t : List UseId}
    (hs : s ∈ part.sets) (ht : t ∈ part.sets) {u : UseId} (hus : u ∈ s) (hut : u ∈ t) : s = t := by
  obtain ⟨a, -, hiff⟩ := h.sorted.mem_iff s hs
  obtain ⟨b, -, hiff'⟩ := h.sorted.mem_iff t ht
  have same := ((hiff u).mp hus).2.symm.trans ((hiff' u).mp hut).2
  refine (h.normal.ascending s hs).eq_of_mem_iff (h.normal.ascending t ht) fun v => ?_
  rw [hiff, hiff', same]

/-- The position of a use is the position of the set that has it. -/
theorem Joins.indexOf?_eq_some_iff {part : Partition} {p : Program} (h : part.Joins p) {u : UseId}
    {i : Nat} : part.indexOf? u = some i ↔ ∃ set, part.sets[i]? = some set ∧ u ∈ set := by
  refine ⟨mem_of_indexOf?, ?_⟩
  rintro ⟨set, hset, hu⟩
  have hmem := List.mem_of_getElem? hset
  obtain ⟨_, -, hiff⟩ := h.sorted.mem_iff set hmem
  obtain ⟨j, hj⟩ := Option.isSome_iff_exists.mp ((h.sorted.isSome_indexOf? u).mpr ((hiff u).mp hu).1)
  obtain ⟨t, ht, hut⟩ := mem_of_indexOf? hj
  rw [h.eq_of_mem (List.mem_of_getElem? ht) hmem hut hu, ← hset] at ht
  -- sets are ordered by their first uses, so that none is at two positions
  have nodup : part.sets.Nodup := h.normal.ordered.imp fun hlt heq => absurd (heq ▸ hlt) (Nat.lt_irrefl _)
  have hlt : i < part.sets.length := (List.getElem?_eq_some_iff.mp hset).1
  rw [hj, (List.getElem?_inj hlt nodup).mp ht.symm]

end Partition

namespace Program

variable {m : Machine} {p : Program}

/-! ## Conflicts -/

/-- Conflicts are between members. -/
theorem mem_conflictPairs {members : List UseId} {c : UseId × UseId}
    (h : c ∈ p.conflictPairs m members) : c.1 ∈ members ∧ c.2 ∈ members := by
  induction members with
  | nil => cases h
  | cons a rest ih =>
    rw [conflictPairs, List.mem_append] at h
    rcases h with h | h
    · obtain ⟨b, hb, rfl⟩ := List.mem_map.mp h
      exact ⟨List.mem_cons_self, List.mem_cons_of_mem a (List.mem_of_mem_filter hb)⟩
    · exact ⟨List.mem_cons_of_mem a (ih h).1, List.mem_cons_of_mem a (ih h).2⟩

/-! ## Joined sets -/

/-- Uses of different roots are in different sets. -/
theorem nodup_flatten_classesOf {s : UnionFind} {uses : List UseId} (h : uses.Nodup) :
    (classesOf s uses).flatten.Nodup := by
  refine List.nodup_flatten.mpr ⟨fun set hset => ?_, ?_⟩
  · obtain ⟨u, -, rfl⟩ := mem_classesOf.mp hset
    exact h.filter _
  · rw [classesOf, List.pairwise_map]
    refine (nodup_eraseDups _).imp fun {r r'} hne => ?_
    intro u hu hu'
    obtain ⟨⟨v, root⟩, hv, rfl⟩ := List.mem_map.mp hu
    obtain ⟨⟨v', root'⟩, hv', hvv'⟩ := List.mem_map.mp hu'
    obtain rfl : v' = v := hvv'
    obtain ⟨hmem, hroot⟩ := List.mem_filter.mp hv
    obtain ⟨hmem', hroot'⟩ := List.mem_filter.mp hv'
    -- both roots are that of the use
    obtain ⟨_, -, heq⟩ := List.mem_map.mp hmem
    obtain ⟨_, -, heq'⟩ := List.mem_map.mp hmem'
    cases heq
    cases heq'
    exact hne ((beq_iff_eq.mp hroot).symm.trans (beq_iff_eq.mp hroot'))

/-- No use is in two joined sets. -/
theorem nodup_flatten_joinedSets (p : Program) : p.joinedSets.sets.flatten.Nodup := by
  refine (Partition.perm_flatten_ofSets _).nodup_iff.mpr (nodup_flatten_classesOf ?_)
  exact List.nodup_range.filter _

/-- Joined sets are in normal form. -/
theorem normal_joinedSets (p : Program) : p.joinedSets.Normal :=
  Partition.normal_ofSets (nodup_flatten_classesOf (List.nodup_range.filter _))

/-- The uses of joined sets are those in play. -/
theorem mem_flatten_joinedSets {u : UseId} : u ∈ p.joinedSets.sets.flatten ↔ u ∈ p.usesInPlay := by
  rw [List.mem_flatten]
  constructor
  · rintro ⟨set, hset, hu⟩
    obtain ⟨_, -, hiff⟩ := p.sortedBy_joinedSets.mem_iff set hset
    exact ((hiff u).mp hu).1
  · exact p.sortedBy_joinedSets.covered u

/-- The partition that separation leaves is in normal form. -/
theorem normal_separate (m : Machine) (p : Program) :
    (p.separate m p.joinedSets).partition.Normal := by
  rw [separate]
  split
  · rename_i hnone
    have same : ((p.joinedSets.sets.map (p.divideSet m (linkCount p.linkedUses))).flatMap
        fun d => d.division.parts) = p.joinedSets.sets := flatMap_parts_divideSet hnone
    simp only [same]
    exact Partition.normal_ofSets p.nodup_flatten_joinedSets
  · exact normal_joinedSets _

/-- The joined sets are the joined uses of their program. -/
theorem joins_joinedSets (p : Program) : p.joinedSets.Joins p :=
  ⟨p.sortedBy_joinedSets, p.normal_joinedSets⟩

/-- The partition that separation leaves is the joined uses of the program that it leaves. -/
theorem joins_separate (m : Machine) (p : Program) :
    (p.separate m p.joinedSets).partition.Joins (p.separate m p.joinedSets).program :=
  ⟨sortedBy_separate m p, normal_separate m p⟩

/-! ## Weights -/

/-- How many active linkages join a use and another. -/
theorem linkCount_eq_countP {u v : UseId} (hu : u < p.uses.size) :
    linkCount p.linkedUses u v = p.activeLinkages.countP fun x =>
      (if x.1.first = u then some x.1.second else if x.1.second = u then some x.1.first else none) ==
        some v := by
  rw [linkCount, linkedUses, Array.getD_eq_getD_getElem?, List.getElem?_toArray, List.getElem?_map, useIds,
    List.getElem?_range hu, Option.map_some, Option.getD_some, List.count_filterMap]

/-- No active linkage is counted at a use that is not there. -/
theorem linkCount_eq_zero {u : UseId} (hu : ¬ u < p.uses.size) (v : UseId) :
    linkCount p.linkedUses u v = 0 := by
  rw [linkCount, linkedUses, Array.getD_eq_getD_getElem?, List.getElem?_toArray, List.getElem?_map, useIds,
    List.getElem?_eq_none (by simpa using hu), Option.map_none, Option.getD_none, List.count_nil]

/-- Each element of a list is counted by at most one element of another that has none twice. -/
theorem foldr_count_le {part : List UseId} (h : part.Nodup) (l : List UseId) :
    (part.map fun v => l.count v).foldr (· + ·) 0 ≤ l.length := by
  induction part generalizing l with
  | nil => exact Nat.zero_le _
  | cons v part ih =>
    obtain ⟨hv, hpart⟩ := List.nodup_cons.mp h
    -- what is counted by the first element is counted by no other one
    have others : part.map (fun w => l.count w) = part.map fun w => (l.filter (· != v)).count w := by
      refine List.map_congr_left fun w hw => ?_
      have hne : w ≠ v := fun heq => hv (heq ▸ hw)
      rw [List.count_filter (by simpa using hne)]
    have split : l.length = l.count v + (l.filter (· != v)).length := by
      rw [l.length_eq_length_filter_add (· == v), ← List.countP_eq_length_filter]
      rfl
    have rest := ih hpart (l.filter (· != v))
    rw [List.map_cons, List.foldr_cons, others]
    omega

/-- A use is linked at most as often as there are linkages. -/
theorem length_linkedUses_le (u : UseId) : (p.linkedUses.getD u []).length ≤ p.linkages.size := by
  rw [linkedUses, Array.getD_eq_getD_getElem?, List.getElem?_toArray, List.getElem?_map]
  cases p.useIds[u]? with
  | none => exact Nat.zero_le _
  | some v =>
    refine (List.length_filterMap_le _ _).trans ((List.length_filter_le _ _).trans ?_)
    rw [numberedLinkages, List.length_zipIdx, Array.length_toList]

/-- The links of a use to a part without repetition are at most as strong as there are linkages. -/
theorem strength_linkCount_le (u : UseId) {part : List UseId} (h : part.Nodup) :
    Division.strength (linkCount p.linkedUses) u part ≤ p.linkages.size :=
  (foldr_count_le h _).trans (length_linkedUses_le u)

/-! ## Faults -/

/-- No strength that is weighed to divide a set exceeds the number of linkages. -/
theorem peak_divideSet_le (set : List UseId) :
    (p.divideSet m (linkCount p.linkedUses) set).division.peak ≤ p.linkages.size := by
  rw [divideSet]
  simp only
  split
  · exact Nat.zero_le _
  · refine peak_divide_le fun u part hpart => strength_linkCount_le u ?_
    -- no use is listed twice
    obtain ⟨listed, hperm, hsublist⟩ := hpart
    exact (List.nodup_cons.mp (hperm.nodup_iff.mp (hsublist.nodup (nodup_unconflicted_append _ _)))).2

/-- When the ends of all active linkages are there, joining comes upon no fault. -/
theorem joinFault?_eq_none (h : p.missingEnd? = none) : p.joinFault? = none := by
  rw [joinFault?, Option.map_eq_none_iff, List.find?_eq_none]
  intro u hu
  obtain ⟨⟨k, l⟩, hk, hu⟩ := List.mem_flatMap.mp hu
  refine List.find?_eq_none.mp h u (List.mem_flatMap.mpr ⟨(k, l), hk, ?_⟩)
  have hu : u ∈ if p.isInMemory k.first then [k.first] else [k.first, k.second] := hu
  split at hu
  · rw [List.mem_singleton.mp hu]
    exact List.mem_cons_self
  · exact hu

/-- Separation divides every set it is given. -/
theorem divided_separate (m : Machine) (p : Program) (part : Partition) :
    (p.separate m part).divided = part.sets.map (p.divideSet m (linkCount p.linkedUses)) := by
  rw [separate]
  split <;> rfl

/-- When the ends of all active linkages are there and the linkages can be counted in 32 bits, separation
comes upon no fault. -/
theorem fault?_separate (h : p.missingEnd? = none) (hsize : p.linkages.size < 2 ^ 32) :
    (p.separate m p.joinedSets).fault? p = none := by
  rw [Separation.fault?, if_neg, h]
  · split <;> rfl
  · rw [divided_separate]
    intro hany
    obtain ⟨d, hd, hpeak⟩ := List.any_eq_true.mp hany
    obtain ⟨set, -, rfl⟩ := List.mem_map.mp hd
    have := peak_divideSet_le (m := m) (p := p) set
    rw [Bool.not_eq_true', Division.inRange, decide_eq_false_iff_not] at hpeak
    omega

/-! ## Linkages that are split -/

/-- The parts of all joined sets. -/
def partsOf (m : Machine) (p : Program) : List (List UseId) :=
  (p.joinedSets.sets.map (p.divideSet m (linkCount p.linkedUses))).flatMap fun d => d.division.parts

/-- The parts of a set that is divided together are the set. -/
theorem perm_flatten_divideSet {set : List UseId} (h : set ∈ p.joinedSets.sets) :
    (p.divideSet m (linkCount p.linkedUses) set).division.parts.flatten.Perm set := by
  rw [divideSet]
  simp only
  split
  · rw [List.flatten_singleton]
  · exact perm_divide ((p.normal_joinedSets.ascending set h).imp Nat.ne_of_lt)
      fun c hc => mem_conflictPairs hc

/-- All parts together are the joined sets. -/
theorem perm_flatten_partsOf (m : Machine) (p : Program) :
    (p.partsOf m).flatten.Perm p.joinedSets.sets.flatten := by
  rw [partsOf]
  have general : ∀ sets : List (List UseId), (∀ set ∈ sets, set ∈ p.joinedSets.sets) →
      ((sets.map (p.divideSet m (linkCount p.linkedUses))).flatMap
        fun d => d.division.parts).flatten.Perm sets.flatten := by
    intro sets
    induction sets with
    | nil => exact fun _ => .refl _
    | cons set sets ih =>
      intro hsets
      rw [List.map_cons, List.flatMap_cons, List.flatten_append, List.flatten_cons]
      exact (perm_flatten_divideSet (hsets set List.mem_cons_self)).append
        (ih fun t ht => hsets t (List.mem_cons_of_mem set ht))
  exact general _ fun _ => id

/-- Whether the ends of a linkage are in one part. -/
def KeptTogether (m : Machine) (p : Program) (k : Linkage) : Prop :=
  ∃ part ∈ p.partsOf m, k.first ∈ part ∧ k.second ∈ part

/-- A linkage whose ends are both in memory, or both not, crosses the parts if and only if its ends are in
play and not in one part. -/
theorem indexOf?_ne_iff {k : Linkage} (hfirst : k.first < p.uses.size) (hsecond : k.second < p.uses.size)
    (hmemory : p.isInMemory k.first = p.isInMemory k.second) :
    (Partition.ofSets (p.partsOf m)).indexOf? k.first ≠ (Partition.ofSets (p.partsOf m)).indexOf? k.second ↔
      p.isInMemory k.first = false ∧ ¬ p.KeptTogether m k := by
  have hperm := (Partition.perm_flatten_ofSets (p.partsOf m)).trans (perm_flatten_partsOf m p)
  have covered : ∀ u, u ∈ (Partition.ofSets (p.partsOf m)).sets.flatten ↔ u ∈ p.usesInPlay := fun u =>
    hperm.mem_iff.trans mem_flatten_joinedSets
  have together : (∃ set ∈ (Partition.ofSets (p.partsOf m)).sets, k.first ∈ set ∧ k.second ∈ set) ↔
      p.KeptTogether m k := by
    constructor
    · rintro ⟨set, hset, hboth⟩
      obtain ⟨t, ht, -, rfl⟩ := Partition.mem_sets_ofSets.mp hset
      exact ⟨t, ht, mem_sortBy.mp hboth.1, mem_sortBy.mp hboth.2⟩
    · rintro ⟨t, ht, hboth⟩
      exact ⟨_, Partition.mem_sets_ofSets.mpr ⟨t, ht, List.ne_nil_of_mem hboth.1, rfl⟩,
        mem_sortBy.mpr hboth.1, mem_sortBy.mpr hboth.2⟩
  rw [Ne, Partition.indexOf?_eq_iff_of_nodup (hperm.nodup_iff.mpr p.nodup_flatten_joinedSets), together,
    covered, covered, mem_usesInPlay, mem_usesInPlay, ← hmemory]
  simp only [hfirst, hsecond, true_and, Bool.not_eq_false, and_self, not_or]
  exact and_comm.trans (and_congr_left fun _ => by simp)

/-- A chain of linkages joins the uses of a joined set. -/
theorem eqvGen_of_joinedSet (hends : p.missingEnd? = none) {set : List UseId} (hset : set ∈ p.joinedSets.sets)
    {u v : UseId} (hu : u ∈ set) (hv : v ∈ set) : Relation.EqvGen (Linked p.joiningLinkages) u v := by
  obtain ⟨_, -, hiff⟩ := p.sortedBy_joinedSets.mem_iff set hset
  obtain ⟨huse, hroot⟩ := (hiff u).mp hu
  obtain ⟨hvse, hroot'⟩ := (hiff v).mp hv
  exact (root_unite_eq_iff (endsBelow_joiningLinkages hends) (mem_usesInPlay.mp huse).1
    (mem_usesInPlay.mp hvse).1).mp (hroot.trans hroot'.symm)

/-- An active linkage whose ends are in play has them in one joined set. -/
theorem exists_joinedSet_of_active (hends : p.missingEnd? = none) {k : Linkage} {l : LinkageId}
    (hk : (k, l) ∈ p.activeLinkages) (hfirst : k.first ∈ p.usesInPlay) (hsecond : k.second ∈ p.usesInPlay) :
    ∃ set ∈ p.joinedSets.sets, k.first ∈ set ∧ k.second ∈ set := by
  have joins : k ∈ p.joiningLinkages := (mem_joiningLinkages hends).mpr ⟨⟨l, hk⟩, hfirst, hsecond⟩
  obtain ⟨set, hset, hmem⟩ := p.sortedBy_joinedSets.covered k.first hfirst
  obtain ⟨u, -, hiff⟩ := p.sortedBy_joinedSets.mem_iff set hset
  refine ⟨set, hset, hmem, (hiff k.second).mpr ⟨hsecond, ?_⟩⟩
  rw [← root_joined_ends hends joins]
  exact ((hiff k.first).mp hmem).2

open Classical in
/-- Where no active linkage joins a use in memory and one that is not, separation splits the active linkages
whose ends are in play and not in one part, whether or not there is a conflict. -/
theorem getElem?_linkages_separate (hends : p.missingEnd? = none)
    (hmemory : ∀ k ∈ p.linkages, k.state = .active → p.isInMemory k.first = p.isInMemory k.second)
    (l : LinkageId) :
    (p.separate m p.joinedSets).program.linkages[l]? = p.linkages[l]?.map fun k =>
      { k with state := if k.state = .active ∧ p.isInMemory k.first = false ∧ ¬ p.KeptTogether m k then
          .split else k.state } := by
  cases hk : p.linkages[l]? with
  | none =>
    rw [Option.map_none, Array.getElem?_eq_none_iff, (SameShape.separate m p _).size_linkages]
    exact Array.getElem?_eq_none_iff.mp hk
  | some k =>
    have hboth : k.state = .active → p.isInMemory k.first = p.isInMemory k.second :=
      hmemory k (Array.mem_of_getElem? hk)
    have listed : k.state = .active → (k, l) ∈ p.activeLinkages := fun hactive =>
      mem_activeLinkages.mpr ⟨hk, Linkage.isActive_iff.mpr hactive⟩
    rw [separate]
    split
    · rename_i hnone
      rw [Option.map_some, if_neg]
      · exact hk
      · rintro ⟨hactive, hfirst, hapart⟩
        obtain ⟨hlt, hlt'⟩ := ends_lt_of_missingEnd? hends (listed hactive)
        -- without conflicts the joined sets are the parts
        refine hapart ?_
        rw [KeptTogether, partsOf, flatMap_parts_divideSet hnone]
        exact exists_joinedSet_of_active hends (listed hactive) (mem_usesInPlay.mpr ⟨hlt, hfirst⟩)
          (mem_usesInPlay.mpr ⟨hlt', (hboth hactive).symm.trans hfirst⟩)
    · rw [splitAll, getElem?_mapStates, hk, Option.map_some, Option.map_some]
      have crosses : l ∈ p.crossing (Partition.ofSets (p.partsOf m)) ↔
          k.state = .active ∧ p.isInMemory k.first = false ∧ ¬ p.KeptTogether m k := by
        simp only [crossing, List.mem_map, List.mem_filter, bne_iff_ne, Prod.exists]
        constructor
        · rintro ⟨k', _, ⟨hk', hne⟩, rfl⟩
          obtain ⟨hget, hactive⟩ := mem_activeLinkages.mp hk'
          obtain rfl : k = k' := Option.some.inj (hk.symm.trans hget)
          have hactive := Linkage.isActive_iff.mp hactive
          obtain ⟨hlt, hlt'⟩ := ends_lt_of_missingEnd? hends hk'
          exact ⟨hactive, (indexOf?_ne_iff hlt hlt' (hboth hactive)).mp hne⟩
        · rintro ⟨hactive, hapart⟩
          obtain ⟨hlt, hlt'⟩ := ends_lt_of_missingEnd? hends (listed hactive)
          exact ⟨k, l, ⟨listed hactive, (indexOf?_ne_iff hlt hlt' (hboth hactive)).mpr hapart⟩, rfl⟩
      simp only [List.contains_iff_mem, ← crosses]
      rfl

end Program

/-! ## Attempts -/

/-- An attempt on a program whose ends are all there and whose linkages can be counted in 32 bits gets as
far as its groups. -/
theorem Attempt.ofProgram_eq {m : Machine} {p : Program} {number : Nat} (hends : p.EndsInRange)
    (hsize : p.linkages.size < 2 ^ 32) :
    let s := p.resetSplits.separate m p.resetSplits.joinedSets
    ofProgram m p number = (s.program,
      match Groups.ofPartition m s.program s.partition with
      | .error cause => .error (.defect cause)
      | .ok groups => .ok ⟨number, groups, .ofGroups s.program groups, s.splits.length⟩) := by
  have hreset : p.resetSplits.EndsInRange := hends.mapStates _
  have nofault : p.resetSplits.joinFault?.or
      ((p.resetSplits.separate m p.resetSplits.joinedSets).fault? p.resetSplits) = none := by
    have hmissing := Program.missingEnd?_eq_none hreset
    rw [Program.joinFault?_eq_none hmissing, Program.fault?_separate hmissing, Option.or_none]
    rwa [Program.resetSplits, Program.size_linkages_mapStates]
  simp only [ofProgram, nofault, Program.missingEnd?_eq_none (hreset.separate m _)]
  cases Groups.ofPartition m (p.resetSplits.separate m p.resetSplits.joinedSets).program
    (p.resetSplits.separate m p.resetSplits.joinedSets).partition <;> rfl

end RegisterColoring
