import RegisterColoring.Grouping.Group
import RegisterColoring.Grouping.Separation
import RegisterColoring.Proofs.Lists
import RegisterColoring.Proofs.UnionFind

/-! # What the groups of an attempt are

Joining sorts the uses that are not in memory by their root, and separating conflicts leaves a program
whose joined sets are the partition that the groups are formed from.

* `Partition.SortedBy part uses key`: the sets of `part` are the uses of `uses` with one key each.
* `Program.sortedBy_joinedSets`: joined sets are sorted by the roots of the joining linkages.
* `Program.sortedBy_separate`: so is the partition that separation leaves, in the program it leaves.
* `Groups.Formed`: what is known of groups that were formed from such a partition. -/

namespace RegisterColoring

/-! ## Partitions by a key -/

/-- The sets of a partition are the uses of a list, those with one key in one set. -/
structure Partition.SortedBy (part : Partition) (uses : List UseId) (key : UseId → Nat) : Prop where
  /-- Every set has the uses with the key of one of them. -/
  mem_iff : ∀ set ∈ part.sets, ∃ u ∈ uses, ∀ v, v ∈ set ↔ v ∈ uses ∧ key v = key u
  /-- Every use is in a set. -/
  covered : ∀ u ∈ uses, ∃ set ∈ part.sets, u ∈ set

namespace Partition

variable {part : Partition} {uses : List UseId} {key : UseId → Nat}

/-- The sets of a normal form are the sets it was made of, sorted and without the empty ones. -/
theorem mem_sets_ofSets {sets : List (List UseId)} {set : List UseId} :
    set ∈ (ofSets sets).sets ↔ ∃ t ∈ sets, t ≠ [] ∧ sortBy before t = set := by
  simp only [ofSets, mem_quickSortBy, List.mem_map, List.mem_filter, Bool.not_eq_true',
    List.isEmpty_eq_false_iff, ne_eq, and_assoc]

/-- Bringing sets into normal form keeps them sorted by their key. -/
theorem SortedBy.ofSets (h : part.SortedBy uses key) : (ofSets part.sets).SortedBy uses key := by
  constructor
  · intro set hset
    obtain ⟨t, ht, -, rfl⟩ := mem_sets_ofSets.mp hset
    obtain ⟨u, hu, hiff⟩ := h.mem_iff t ht
    exact ⟨u, hu, fun v => mem_sortBy.trans (hiff v)⟩
  · intro u hu
    obtain ⟨t, ht, hut⟩ := h.covered u hu
    exact ⟨_, mem_sets_ofSets.mpr ⟨t, ht, List.ne_nil_of_mem hut, rfl⟩, mem_sortBy.mpr hut⟩

/-- The position of a use is that of a set that holds it. -/
theorem mem_of_indexOf? {u : UseId} {i : Nat} (h : part.indexOf? u = some i) :
    ∃ set, part.sets[i]? = some set ∧ u ∈ set := by
  obtain ⟨hi, hu, -⟩ := List.findIdx?_eq_some_iff_getElem.mp h
  exact ⟨_, List.getElem?_eq_getElem hi, by simpa using hu⟩

/-- The uses that have a position are those of the list. -/
theorem SortedBy.isSome_indexOf? (h : part.SortedBy uses key) (u : UseId) :
    (part.indexOf? u).isSome = true ↔ u ∈ uses := by
  constructor
  · intro hu
    obtain ⟨i, hi⟩ := Option.isSome_iff_exists.mp hu
    obtain ⟨set, hset, hmem⟩ := mem_of_indexOf? hi
    obtain ⟨_, _, hiff⟩ := h.mem_iff set (List.mem_of_getElem? hset)
    exact ((hiff u).mp hmem).1
  · intro hu
    obtain ⟨set, hset, hmem⟩ := h.covered u hu
    rw [indexOf?, List.findIdx?_isSome, List.any_eq_true]
    exact ⟨set, hset, by simpa using hmem⟩

/-- Two uses have one position if and only if they have one key. -/
theorem SortedBy.indexOf?_eq_iff (h : part.SortedBy uses key) {u v : UseId} (hu : u ∈ uses)
    (hv : v ∈ uses) : part.indexOf? u = part.indexOf? v ↔ key u = key v := by
  constructor
  · intro heq
    obtain ⟨i, hi⟩ := Option.isSome_iff_exists.mp ((h.isSome_indexOf? u).mpr hu)
    obtain ⟨set, hset, hmem⟩ := mem_of_indexOf? hi
    obtain ⟨set', hset', hmem'⟩ := mem_of_indexOf? (heq ▸ hi)
    obtain rfl : set = set' := Option.some.inj (hset.symm.trans hset')
    obtain ⟨w, _, hiff⟩ := h.mem_iff set (List.mem_of_getElem? hset)
    rw [((hiff u).mp hmem).2, ((hiff v).mp hmem').2]
  · -- a set holds both uses or neither, so both are found in the same place
    intro heq
    have both : ∀ set ∈ part.sets, set.contains u = set.contains v := by
      intro set hset
      obtain ⟨w, _, hiff⟩ := h.mem_iff set hset
      rw [Bool.eq_iff_iff, List.contains_iff_mem, List.contains_iff_mem, hiff, hiff, heq]
      exact ⟨fun h => ⟨hv, h.2⟩, fun h => ⟨hu, h.2⟩⟩
    rw [indexOf?, indexOf?]
    generalize part.sets = sets at both
    induction sets with
    | nil => rfl
    | cons set sets ih =>
      rw [List.findIdx?_cons, List.findIdx?_cons, both set List.mem_cons_self,
        ih fun t ht => both t (List.mem_cons_of_mem set ht)]

end Partition

/-! ## Joined sets -/

namespace Program

/-- The union of the ends of all linkages that join uses. -/
def joined (p : Program) : UnionFind :=
  unite p.uses.size p.joiningLinkages

/-- The sets of some uses by their roots. -/
theorem mem_classesOf {s : UnionFind} {uses : List UseId} {set : List UseId} :
    set ∈ classesOf s uses ↔ ∃ u ∈ uses, set = uses.filter fun v => s.root v == s.root u := by
  have filtered : ∀ r, ((uses.map fun v => (v, s.root v)).filter fun x => x.2 == r).map Prod.fst =
      uses.filter fun v => s.root v == r := by
    intro r
    rw [List.filter_map, List.map_map]
    exact (List.map_congr_left fun _ _ => rfl).trans (List.map_id _)
  simp only [classesOf, List.mem_map, List.mem_eraseDups]
  constructor
  · rintro ⟨r, ⟨_, ⟨u, hu, rfl⟩, rfl⟩, rfl⟩
    exact ⟨u, hu, filtered _⟩
  · rintro ⟨u, hu, rfl⟩
    exact ⟨_, ⟨_, ⟨u, hu, rfl⟩, rfl⟩, filtered _⟩

/-- The joined sets of a program are its uses outside memory, sorted by their roots. -/
theorem sortedBy_joinedSets (p : Program) :
    p.joinedSets.SortedBy p.usesInPlay p.joined.root := by
  constructor
  · intro set hset
    obtain ⟨t, ht, -, rfl⟩ := Partition.mem_sets_ofSets.mp hset
    obtain ⟨u, hu, rfl⟩ := mem_classesOf.mp ht
    refine ⟨u, hu, fun v => ?_⟩
    rw [mem_sortBy, List.mem_filter, beq_iff_eq]
    rfl
  · intro u hu
    have hmem : u ∈ p.usesInPlay.filter fun v => p.joined.root v == p.joined.root u :=
      List.mem_filter.mpr ⟨hu, beq_self_eq_true _⟩
    exact ⟨_, Partition.mem_sets_ofSets.mpr ⟨_, mem_classesOf.mpr ⟨u, hu, rfl⟩,
      List.ne_nil_of_mem hmem, rfl⟩, mem_sortBy.mpr hmem⟩

/-- Without conflicts a set stays as it is. -/
theorem parts_divideSet {m : Machine} {p : Program} {weight : UseId → UseId → Nat} {set : List UseId}
    (h : (p.divideSet m weight set).conflicts.isEmpty = true) :
    (p.divideSet m weight set).division.parts = [set] := by
  have h' : (p.conflictPairs m set).isEmpty = true := h
  rw [divideSet, if_pos h']

/-- Without conflicts all sets stay as they are. -/
theorem flatMap_parts_divideSet {m : Machine} {p : Program} {weight : UseId → UseId → Nat}
    {sets : List (List UseId)}
    (h : ((sets.map (p.divideSet m weight)).all fun d => d.conflicts.isEmpty) = true) :
    ((sets.map (p.divideSet m weight)).flatMap fun d => d.division.parts) = sets := by
  rw [List.flatMap_map]
  refine (List.flatMap_congr fun set hset => parts_divideSet ?_).trans (List.flatMap_singleton' _)
  exact List.all_eq_true.mp h _ (List.mem_map_of_mem hset)

/-- After separation the sets are those that are joined in the program it leaves. -/
theorem sortedBy_separate (m : Machine) (p : Program) :
    (p.separate m p.joinedSets).partition.SortedBy (p.separate m p.joinedSets).program.usesInPlay
      (p.separate m p.joinedSets).program.joined.root := by
  rw [separate]
  split
  · -- without a conflict no linkage is split, and every set is its only part
    rename_i hnone
    have same : ((p.joinedSets.sets.map (p.divideSet m (linkCount p.linkedUses))).flatMap
        fun d => d.division.parts) = p.joinedSets.sets := flatMap_parts_divideSet hnone
    simp only [same]
    exact p.sortedBy_joinedSets.ofSets
  · -- otherwise the sets are joined anew, in the program with its linkages split
    exact sortedBy_joinedSets _

end Program

/-! ## Groups -/

/-- The largest class inside two classes has registers of both only. -/
theorem Machine.subset_of_largestWithin? {m : Machine} {a b c : ClassId}
    (h : m.largestWithin? a b = some c) {r : RegisterId} (hr : r ∈ m.members c) :
    r ∈ m.members a ∧ r ∈ m.members b := by
  have hc := (List.mem_filter.mp (leastBy?_mem h)).2
  rw [Bool.and_eq_true, RegisterSet.isSubset_iff, RegisterSet.isSubset_iff] at hc
  exact ⟨hc.1 r hr, hc.2 r hr⟩

namespace Group

/-- A class that was narrowed has registers only of the class it came from and of all the others. -/
theorem subset_of_narrow {m : Machine} {c e : ClassId} {others : List ClassId}
    (h : narrow m c others = some e) {r : RegisterId} (hr : r ∈ m.members e) :
    ∀ d ∈ c :: others, r ∈ m.members d := by
  induction others generalizing c with
  | nil =>
    obtain rfl : c = e := Option.some.inj h
    intro d hd
    rw [List.mem_singleton.mp hd]
    exact hr
  | cons b others ih =>
    rw [narrow, List.foldlM_cons] at h
    obtain ⟨a, ha, h⟩ := Option.bind_eq_some_iff.mp h
    have inside := ih h
    have first := Machine.subset_of_largestWithin? ha (inside a List.mem_cons_self)
    intro d hd
    rcases List.mem_cons.mp hd with rfl | hd
    · exact first.1
    · rcases List.mem_cons.mp hd with rfl | hd
      · exact first.2
      · exact inside d (List.mem_cons_of_mem a hd)

/-- What the group of some uses is: it has these uses, the number of registers that each of them needs,
and a class inside each class that one of them asks for. -/
structure Suits (m : Machine) (p : Program) (members : List UseId) (g : Group) : Prop where
  /-- It has these uses. -/
  members_eq : g.members = members
  /-- It needs as many registers as each of them. -/
  registers_eq : ∀ u ∈ members, ∀ use, p.use? u = some use → use.registers = g.registers
  /-- Its class lies inside each class that one of them asks for. -/
  class_subset : ∀ u ∈ members, ∀ use c, p.use? u = some use → use.class? = some c →
    ∀ r ∈ m.members g.classId, r ∈ m.members c

/-- A list with at most one element has only its head. -/
theorem eq_headD_of_length_le_one {counts : List Nat} (h : ¬ counts.length > 1) {k : Nat}
    (hk : k ∈ counts) : k = counts.headD 0 := by
  match counts, h, hk with
  | [a], _, hk => exact List.mem_singleton.mp hk
  | a :: b :: l, h, _ => exact absurd (by simp) h

/-- How a group that can be formed came about: its class was narrowed from the first class that is asked
for by all the later ones, and its uses need one number of registers. -/
theorem ofUses_eq_ok {m : Machine} {p : Program} {id : GroupId} {members : List UseId} {g : Group}
    (h : ofUses m p id members = .ok g) :
    ∃ b others c, requestedClasses p members = b :: others ∧ narrow m b others = some c ∧
      ¬ (requestedCounts p members).length > 1 ∧
      g = ⟨members, c, (requestedCounts p members).headD 0⟩ := by
  rw [ofUses] at h
  by_cases hcounts : (requestedCounts p members).length > 1
  · simp only [if_pos hcounts] at h
    split at h
    · cases h
    · split at h <;> cases h
  simp only [if_neg hcounts] at h
  split at h
  · cases h
  · rename_i b others hrequested
    split at h
    · rename_i c hnarrow
      cases h
      exact ⟨b, others, c, hrequested, hnarrow, hcounts, rfl⟩
    · cases h

/-- A group that can be formed suits its uses. -/
theorem suits_of_ofUses {m : Machine} {p : Program} {id : GroupId} {members : List UseId} {g : Group}
    (h : ofUses m p id members = .ok g) : g.Suits m p members := by
  obtain ⟨b, others, e, hrequested, hnarrow, hcounts, rfl⟩ := ofUses_eq_ok h
  refine ⟨rfl, ?_, ?_⟩
  · intro u hu use huse
    refine eq_headD_of_length_le_one hcounts ?_
    rw [requestedCounts, List.mem_eraseDups, List.mem_filterMap]
    exact ⟨u, hu, by rw [huse]; rfl⟩
  · intro u hu use c huse hc r hr
    have asked : c ∈ requestedClasses p members := by
      rw [requestedClasses, List.mem_filterMap]
      exact ⟨u, hu, by rw [huse]; exact hc⟩
    rw [hrequested] at asked
    exact subset_of_narrow hnarrow hr c asked

end Group

/-- What is known of the groups of an attempt: they are the joined sets of a program, each with a class
and a number of registers that suit its uses. -/
structure Groups.Formed (m : Machine) (p : Program) (groups : Groups) : Prop where
  /-- The uses outside memory are those that are in a group. -/
  isSome_ofUse? : ∀ u, (groups.ofUse? u).isSome = true ↔ u ∈ p.usesInPlay
  /-- Uses are in one group if and only if they are joined. -/
  ofUse?_eq_iff : ∀ u ∈ p.usesInPlay, ∀ v ∈ p.usesInPlay,
    groups.ofUse? u = groups.ofUse? v ↔ p.joined.root u = p.joined.root v
  /-- The group of a use is there and has it. -/
  mem_members : ∀ u g, groups.ofUse? u = some g → g < groups.size ∧ u ∈ (groups.get g).members
  /-- No group is empty. -/
  members_ne_nil : ∀ g, g < groups.size → (groups.get g).members ≠ []
  /-- Groups have uses outside memory only. -/
  members_subset : ∀ g, g < groups.size → ∀ u ∈ (groups.get g).members, u ∈ p.usesInPlay
  /-- Every group suits its uses. -/
  suits : ∀ g, g < groups.size → (groups.get g).Suits m p (groups.get g).members

namespace Groups

/-- Groups that are formed from a partition are those of its sets. -/
theorem ofUses_of_ofPartition {m : Machine} {p : Program} {part : Partition} {groups : Groups}
    (h : ofPartition m p part = .ok groups) :
    groups.size = part.sets.length ∧ ∀ g set, part.sets[g]? = some set →
      Group.ofUses m p g set = .ok (groups.get g) := by
  obtain ⟨found, hfound, h⟩ := bind_eq_ok.mp h
  cases h
  have paired := forall₂_of_mapM_ok hfound
  have hlength : found.length = part.sets.length := by
    rw [← paired.length_eq, List.length_zipIdx]
  refine ⟨by rw [size, List.size_toArray, hlength], fun g set hset => ?_⟩
  obtain ⟨hg, rfl⟩ := List.getElem?_eq_some_iff.mp hset
  have hg' : g < part.sets.zipIdx.length := by
    rw [List.length_zipIdx]
    exact hg
  have hfound : g < found.length := by
    rw [hlength]
    exact hg
  have formed := paired.get hg' hfound
  simp only [List.get_eq_getElem, List.getElem_zipIdx, Nat.zero_add] at formed
  have hget : get ⟨found.toArray, (p.useIds.map part.indexOf?).toArray⟩ g = found[g] := by
    rw [get, Array.getD_eq_getD_getElem?, List.getElem?_toArray, List.getElem?_eq_getElem hfound,
      Option.getD_some]
  rw [hget]
  exact formed

/-- When a partition has no groups, one of its sets is none. -/
theorem exists_of_ofPartition_error {m : Machine} {p : Program} {part : Partition} {cause : GroupDefect}
    (h : ofPartition m p part = .error cause) :
    ∃ set ∈ part.sets, ∃ id, Group.ofUses m p id set = .error cause := by
  rw [ofPartition] at h
  cases hfound : part.sets.zipIdx.mapM fun x => Group.ofUses m p x.2 x.1 with
  | ok found =>
    rw [hfound] at h
    cases h
  | error cause' =>
    rw [hfound] at h
    cases h
    obtain ⟨⟨set, id⟩, hset, hdefect⟩ := exists_of_mapM_error hfound
    exact ⟨set, List.fst_mem_of_mem_zipIdx hset, id, hdefect⟩

/-- Groups that are formed from a partition suit its sets. -/
theorem suits_of_ofPartition {m : Machine} {p : Program} {part : Partition} {groups : Groups}
    (h : ofPartition m p part = .ok groups) :
    groups.size = part.sets.length ∧ ∀ g set, part.sets[g]? = some set →
      (groups.get g).Suits m p set := by
  obtain ⟨hsize, hgroups⟩ := ofUses_of_ofPartition h
  exact ⟨hsize, fun g set hset => Group.suits_of_ofUses (hgroups g set hset)⟩

/-- The group of a use is the position of its set. -/
theorem ofUse?_of_ofPartition {m : Machine} {p : Program} {part : Partition} {groups : Groups}
    {key : UseId → Nat} (hpart : part.SortedBy p.usesInPlay key)
    (h : ofPartition m p part = .ok groups) (u : UseId) : groups.ofUse? u = part.indexOf? u := by
  obtain ⟨found, hfound, h⟩ := bind_eq_ok.mp h
  cases h
  rw [ofUse?, Array.getD_eq_getD_getElem?, List.getElem?_toArray, List.getElem?_map]
  by_cases hu : u < p.uses.size
  · rw [Program.useIds, List.getElem?_range hu]
    rfl
  · rw [Program.useIds, List.getElem?_eq_none (by simpa using hu), Option.map_none, Option.getD_none]
    -- what is no use of the program is in no set
    symm
    rw [← Option.not_isSome_iff_eq_none, hpart.isSome_indexOf?]
    intro hmem
    exact hu (List.mem_range.mp (List.mem_of_mem_filter hmem))

/-- Groups that are formed from the joined sets of a program are formed as they should be. -/
theorem formed_of_ofPartition {m : Machine} {p : Program} {part : Partition} {groups : Groups}
    (hpart : part.SortedBy p.usesInPlay p.joined.root) (h : ofPartition m p part = .ok groups) :
    groups.Formed m p := by
  obtain ⟨hsize, hsuits⟩ := suits_of_ofPartition h
  have position := ofUse?_of_ofPartition hpart h
  have setAt : ∀ g, g < groups.size → ∃ set, part.sets[g]? = some set ∧
      (groups.get g).members = set := by
    intro g hg
    rw [hsize] at hg
    exact ⟨_, List.getElem?_eq_getElem hg, (hsuits g _ (List.getElem?_eq_getElem hg)).members_eq⟩
  exact
    { isSome_ofUse? := fun u => by
        rw [position]
        exact hpart.isSome_indexOf? u
      ofUse?_eq_iff := fun u hu v hv => by
        rw [position, position]
        exact hpart.indexOf?_eq_iff hu hv
      mem_members := fun u g hg => by
        rw [position] at hg
        obtain ⟨set, hset, hmem⟩ := Partition.mem_of_indexOf? hg
        obtain ⟨hlt, -⟩ := List.getElem?_eq_some_iff.mp hset
        rw [(hsuits g set hset).members_eq]
        exact ⟨by rw [hsize]; exact hlt, hmem⟩
      members_ne_nil := fun g hg => by
        -- a set has at least the use whose key it is made of
        obtain ⟨set, hset, hmembers⟩ := setAt g hg
        obtain ⟨u, hu, hiff⟩ := hpart.mem_iff set (List.mem_of_getElem? hset)
        rw [hmembers]
        exact List.ne_nil_of_mem ((hiff u).mpr ⟨hu, rfl⟩)
      members_subset := fun g hg u hu => by
        obtain ⟨set, hset, hmembers⟩ := setAt g hg
        obtain ⟨w, _, hiff⟩ := hpart.mem_iff set (List.mem_of_getElem? hset)
        rw [hmembers] at hu
        exact ((hiff u).mp hu).1
      suits := fun g hg => by
        obtain ⟨set, hset, hmembers⟩ := setAt g hg
        rw [hmembers]
        exact hsuits g set hset }

end Groups

end RegisterColoring
