import RegisterColoring.Proofs.Interference
import RegisterColoring.Proofs.Parts.Embedding

/-! # Groups and interference of a part

The groups of a part are groups of the whole, with the same class and as many registers, and they
interfere with each other only, and for the same linkages.

* `Groups.Embeds f k small big`: the groups of a part among those of the whole.
* `Interference.Embeds h k small big`: their interference.
* `Program.Embeds.exists_groups`, `Program.Embeds.graph`: a part of a program has such groups and such
  interference.
* `Groups.exists_of_cover`: the whole has groups if two parts that have all its uses do. -/

namespace RegisterColoring

/-! ## Forming groups -/

namespace Groups

variable {m : Machine} {p : Program} {part : Partition} {groups : Groups}

/-- The group of a use is the one that has it. -/
theorem ofUse?_eq_some_iff (hpart : part.Joins p) (h : ofPartition m p part = .ok groups) {u : UseId}
    {g : GroupId} : groups.ofUse? u = some g ↔ g < groups.size ∧ u ∈ (groups.get g).members := by
  obtain ⟨hsize, hsuits⟩ := suits_of_ofPartition h
  rw [ofUse?_of_ofPartition hpart.sorted h, hpart.indexOf?_eq_some_iff, hsize]
  constructor
  · rintro ⟨set, hset, hu⟩
    rw [(hsuits g set hset).members_eq]
    exact ⟨(List.getElem?_eq_some_iff.mp hset).1, hu⟩
  · rintro ⟨hg, hu⟩
    have hset := List.getElem?_eq_getElem hg
    rw [(hsuits g _ hset).members_eq] at hu
    exact ⟨_, hset, hu⟩

/-- A position where there is no group has an empty one. -/
theorem get_of_size_le {g : GroupId} (hg : groups.size ≤ g) : groups.get g = default := by
  rw [get, Array.getD_eq_getD_getElem?, Array.getElem?_eq_none hg, Option.getD_none]

/-- A partition has groups if each of its sets is one. -/
theorem exists_ofPartition (h : ∀ set ∈ part.sets, ∀ id, ∃ g, Group.ofUses m p id set = .ok g) :
    ∃ groups, ofPartition m p part = .ok groups := by
  cases hgroups : ofPartition m p part with
  | ok groups => exact ⟨groups, rfl⟩
  | error cause =>
    obtain ⟨set, hset, id, hdefect⟩ := exists_of_ofPartition_error hgroups
    obtain ⟨g, hg⟩ := h set hset id
    cases hg.symm.trans hdefect

/-- The groups of a part among those of the whole. -/
structure Embeds (f : UseId → UseId) (k : GroupId → GroupId) (small big : Groups) : Prop where
  /-- Groups keep their order. -/
  mono : StrictMono k
  /-- Groups of the part are there if they are there in the whole. -/
  lt_iff : ∀ g, k g < big.size ↔ g < small.size
  /-- They have the same class and the same number of registers, and their uses in the whole. -/
  get_eq : ∀ g, big.get (k g) = { small.get g with members := (small.get g).members.map f }
  /-- Uses of the part are in them. -/
  ofUse?_eq : ∀ u, big.ofUse? (f u) = (small.ofUse? u).map k
  /-- They have uses of the part only. -/
  exists_use : ∀ v g, big.ofUse? v = some (k g) → ∃ u, v = f u

end Groups

/-- Uses of a part that are a group are one in the whole. -/
theorem Program.Embeds.ofUses_map {f : UseId → UseId} {h : LinkageId → LinkageId} {m : Machine}
    {q p : Program} (e : Embeds f h q p) {id id' : GroupId} {members : List UseId} {g : Group}
    (hg : Group.ofUses m q id members = .ok g) :
    Group.ofUses m p id' (members.map f) = .ok { g with members := g.members.map f } := by
  have classes : Group.requestedClasses p (members.map f) = Group.requestedClasses q members := by
    rw [Group.requestedClasses, Group.requestedClasses, List.filterMap_map]
    exact List.filterMap_congr fun u _ => by rw [Function.comp, e.use?_eq]
  have counts : Group.requestedCounts p (members.map f) = Group.requestedCounts q members := by
    rw [Group.requestedCounts, Group.requestedCounts, List.filterMap_map]
    exact congrArg List.eraseDups (List.filterMap_congr fun u _ => by rw [Function.comp, e.use?_eq])
  obtain ⟨b, others, c, hclasses, hnarrow, hcounts, rfl⟩ := Group.ofUses_eq_ok hg
  rw [Group.ofUses]
  simp only [classes, counts, hclasses, hnarrow, if_neg hcounts]
  rfl

namespace Program.Embeds

variable {f : UseId → UseId} {h : LinkageId → LinkageId} {m : Machine} {q p : Program}
  {whole part : Partition} {small big : Groups}

/-- The sets of the whole show those of the part. -/
theorem shows_sets (e : Embeds f h q p) (hends : p.EndsInRange) (hwhole : whole.Joins p)
    (hpart : part.Joins q) :
    Shows (fun s t => s = t.map f) (fun s => ∀ u, f u ∉ s) whole.sets part.sets := by
  have head : ∀ t ∈ part.sets, ∃ u rest, t = u :: rest := by
    intro t ht
    obtain ⟨u, hu, hiff⟩ := hpart.sorted.mem_iff t ht
    exact List.exists_cons_of_ne_nil (List.ne_nil_of_mem ((hiff u).mpr ⟨hu, rfl⟩))
  refine .of_sorted e.uses_mono hwhole.normal.ordered hpart.normal.ordered ?_ ?_ ?_
  · rintro _ t - ht rfl
    obtain ⟨u, rest, rfl⟩ := head t ht
    exact ⟨rfl, fun hnone => hnone u List.mem_cons_self⟩
  · intro set hset
    refine or_iff_not_imp_left.mpr fun hsome => ?_
    obtain ⟨u, hu⟩ := not_forall.mp hsome
    exact e.exists_set hends hwhole hpart hset (not_not.mp hu)
  · exact fun t ht => ⟨_, e.map_mem_sets hends hwhole hpart ht, rfl⟩

/-- The groups of a part are groups of the whole. -/
theorem exists_groups (e : Embeds f h q p) (hends : p.EndsInRange) (hwhole : whole.Joins p)
    (hpart : part.Joins q) (hbig : Groups.ofPartition m p whole = .ok big)
    (hsmall : Groups.ofPartition m q part = .ok small) : ∃ k, Groups.Embeds f k small big := by
  obtain ⟨k, hmono, hseen, hbeyond⟩ := (e.shows_sets hends hwhole hpart).exists_positions
  obtain ⟨hsize, hgroups⟩ := Groups.ofUses_of_ofPartition hbig
  obtain ⟨hsize', hgroups'⟩ := Groups.ofUses_of_ofPartition hsmall
  -- groups have the numbers of their sets
  have hlt : ∀ g, k g < big.size ↔ g < small.size := by
    intro g
    rw [hsize, hsize']
    constructor
    · exact fun hg => Nat.lt_of_not_le fun hle => Nat.not_lt.mpr (hbeyond g hle) hg
    · intro hg
      obtain ⟨set, hset, -⟩ := hseen g _ (List.getElem?_eq_getElem hg)
      exact (List.getElem?_eq_some_iff.mp hset).1
  have hget : ∀ g, big.get (k g) = { small.get g with members := (small.get g).members.map f } := by
    intro g
    by_cases hg : g < small.size
    · have ht := List.getElem?_eq_getElem (hsize' ▸ hg)
      obtain ⟨_, hset, rfl⟩ := hseen g _ ht
      exact Except.ok.inj ((hgroups (k g) _ hset).symm.trans (e.ofUses_map (hgroups' g _ ht)))
    · rw [Groups.get_of_size_le (Nat.le_of_not_lt hg),
        Groups.get_of_size_le (Nat.le_of_not_lt fun hlt' => hg ((hlt g).mp hlt'))]
      rfl
  refine ⟨k, hmono, hlt, hget, fun u => ?_, fun v g hv => ?_⟩
  · cases hu : small.ofUse? u with
    | some g =>
      obtain ⟨hg, hmem⟩ := (Groups.ofUse?_eq_some_iff hpart hsmall).mp hu
      refine (Groups.ofUse?_eq_some_iff hwhole hbig).mpr ⟨(hlt g).mpr hg, ?_⟩
      rw [hget]
      exact List.mem_map_of_mem hmem
    | none =>
      rw [Groups.ofUse?_of_ofPartition hpart.sorted hsmall, ← Option.not_isSome_iff_eq_none,
        hpart.sorted.isSome_indexOf?] at hu
      rw [Groups.ofUse?_of_ofPartition hwhole.sorted hbig, Option.map_none,
        ← Option.not_isSome_iff_eq_none, hwhole.sorted.isSome_indexOf?, e.mem_usesInPlay_iff]
      exact hu
  · have hmem := ((Groups.ofUse?_eq_some_iff hwhole hbig).mp hv).2
    rw [hget] at hmem
    obtain ⟨u, -, rfl⟩ := List.mem_map.mp hmem
    exact ⟨u, rfl⟩

end Program.Embeds

/-- When two parts have all uses of a program, it has groups if the parts do. -/
theorem Groups.exists_of_cover {f f' : UseId → UseId} {h h' : LinkageId → LinkageId} {m : Machine}
    {q q' p : Program} {whole part part' : Partition} {small small' : Groups}
    (e : Program.Embeds f h q p) (e' : Program.Embeds f' h' q' p) (hends : p.EndsInRange)
    (hcover : ∀ v, v < p.uses.size → (∃ u, v = f u) ∨ ∃ u, v = f' u) (hwhole : whole.Joins p)
    (hpart : part.Joins q) (hpart' : part'.Joins q') (hsmall : ofPartition m q part = .ok small)
    (hsmall' : ofPartition m q' part' = .ok small') : ∃ big, ofPartition m p whole = .ok big := by
  have formed : ∀ {f h q part small}, Program.Embeds f h q p → part.Joins q →
      ofPartition m q part = .ok small → ∀ set ∈ whole.sets, (∃ u, f u ∈ set) → ∀ id,
      ∃ g, Group.ofUses m p id set = .ok g := by
    -- a set with a use of a part is a set of this part, where it has a group
    intro f h q part small e hpart hsmall set hset hu id
    obtain ⟨u, hu⟩ := hu
    obtain ⟨t, ht, rfl⟩ := e.exists_set hends hwhole hpart hset hu
    obtain ⟨g, hg⟩ := List.getElem?_of_mem ht
    exact ⟨_, e.ofUses_map ((ofUses_of_ofPartition hsmall).2 g t hg)⟩
  refine exists_ofPartition fun set hset => ?_
  obtain ⟨v, hv, hiff⟩ := hwhole.sorted.mem_iff set hset
  have hmem : v ∈ set := (hiff v).mpr ⟨hv, rfl⟩
  rcases hcover v (Program.mem_usesInPlay.mp hv).1 with ⟨u, rfl⟩ | ⟨u, rfl⟩
  · exact formed e hpart hsmall set hset ⟨u, hmem⟩
  · exact formed e' hpart' hsmall' set hset ⟨u, hmem⟩

/-! ## Interference -/

/-- The block of a linkage's span is that of its first end. -/
theorem Program.block_of_span? {p : Program} {k : Linkage} {span : Span} (h : p.span? k = some span) :
    ∃ a, p.position? k.first = some a ∧ a.block = span.block := by
  obtain ⟨a, ha, h⟩ := Option.bind_eq_some_iff.mp h
  obtain ⟨b, hb, h⟩ := Option.bind_eq_some_iff.mp h
  rw [Span.between?] at h
  split at h
  · cases h
    exact ⟨a, ha, rfl⟩
  · cases h

/-- The interference of the groups of a part in that of the whole. -/
structure Interference.Embeds (h : LinkageId → LinkageId) (k : GroupId → GroupId)
    (small big : Interference) : Prop where
  /-- Groups of the part have the same neighbours. -/
  neighbors_eq : ∀ g, big.neighbors (k g) = (small.neighbors g).map k
  /-- They interfere for the same linkages. -/
  linkagesBehind_eq : ∀ x y, big.linkagesBehind (k x) (k y) = (small.linkagesBehind x y).map h
  /-- Other groups do not interfere for linkages of the part. -/
  exists_group : ∀ l x y, h l ∈ big.linkagesBehind x y → ∃ g, x = k g

namespace Program.Embeds

open Interference

variable {f : UseId → UseId} {h : LinkageId → LinkageId} {k : GroupId → GroupId} {q p : Program}
  {small big : Groups}

/-- Linkages of the part have their spans in the whole. -/
theorem span?_rename (e : Embeds f h q p) (c : Linkage) : p.span? (c.rename f) = q.span? c := by
  rw [span?, span?, Linkage.rename, e.position?_eq, e.position?_eq]

/-- What intrudes in the part does so in the whole. -/
theorem intrudes (e : Embeds f h q p) (hgroups : Groups.Embeds f k small big) {l : LinkageId}
    {x y : GroupId} (hl : Intrudes q small l x y) : Intrudes p big (h l) (k x) (k y) := by
  obtain ⟨c, span, u, position, hc, hspan, howner, hposition, hcontains, hother, hne⟩ := hl
  refine ⟨c.rename f, span, f u, position, e.mem_activeLinkages_iff.mpr hc, ?_, ?_, ?_, hcontains, ?_,
    hgroups.mono.injective.ne hne⟩
  · rw [e.span?_rename, hspan]
  · rw [Linkage.rename, hgroups.ofUse?_eq, howner, Option.map_some]
  · rw [e.position?_eq, hposition]
  · rw [hgroups.ofUse?_eq, hother, Option.map_some]

/-- An intrusion on a linkage or a group of the part, or of a group of the part, is one in the part. -/
theorem exists_intrudes (e : Embeds f h q p) (hgroups : Groups.Embeds f k small big) {l : LinkageId}
    {x y : GroupId} (hl : Intrudes p big l x y)
    (hpart : (∃ l', l = h l') ∨ (∃ g, x = k g) ∨ ∃ g, y = k g) :
    ∃ l' g g', l = h l' ∧ x = k g ∧ y = k g' ∧ Intrudes q small l' g g' := by
  obtain ⟨c, span, v, position, hc, hspan, howner, hposition, hcontains, hother, hne⟩ := hl
  obtain ⟨a, ha, hblock⟩ := block_of_span? hspan
  have hblock' : position.block = span.block := by
    rw [Span.contains, Bool.and_eq_true, Bool.and_eq_true, beq_iff_eq] at hcontains
    exact hcontains.1.1
  -- in each case the linkage is one of the part
  have first : ∃ u, c.first = f u := by
    rcases hpart with ⟨l', rfl⟩ | ⟨g, rfl⟩ | ⟨g, rfl⟩
    · have hget := (mem_activeLinkages.mp hc).1
      rw [e.linkage_eq] at hget
      obtain ⟨c', -, rfl⟩ := Option.map_eq_some_iff.mp hget
      exact ⟨c'.first, rfl⟩
    · exact hgroups.exists_use c.first g howner
    · obtain ⟨u, rfl⟩ := hgroups.exists_use v g hother
      exact e.alone u c.first position a hposition ha (hblock'.trans hblock.symm)
  obtain ⟨u, hu⟩ := first
  obtain ⟨c', l', rfl, rfl, hc'⟩ := e.exists_activeLinkage hc ⟨u, .inl hu⟩
  -- the use that intrudes is in the block of the linkage, and so in the part
  obtain ⟨w, rfl⟩ := e.alone c'.first v a position ha hposition (hblock.trans hblock'.symm)
  have hfirst : big.ofUse? (f c'.first) = some x := howner
  rw [hgroups.ofUse?_eq] at hfirst hother
  obtain ⟨g, hg, rfl⟩ := Option.map_eq_some_iff.mp hfirst
  obtain ⟨g', hg', rfl⟩ := Option.map_eq_some_iff.mp hother
  rw [e.span?_rename] at hspan
  rw [e.position?_eq] at hposition
  exact ⟨l', g, g', rfl, rfl, rfl, c', span, w, position, hc', hspan, hg, hposition, hcontains, hg',
    fun heq => hne (congrArg k heq)⟩

/-- Groups of the part intrude on each other for linkages of the part. -/
theorem intrudes_iff (e : Embeds f h q p) (hgroups : Groups.Embeds f k small big) {l : LinkageId}
    {x y : GroupId} : Intrudes p big l (k x) (k y) ↔ ∃ l', l = h l' ∧ Intrudes q small l' x y := by
  constructor
  · intro hl
    obtain ⟨l', g, g', rfl, hg, hg', hl'⟩ := e.exists_intrudes hgroups hl (.inr (.inl ⟨x, rfl⟩))
    rw [hgroups.mono.injective hg, hgroups.mono.injective hg']
    exact ⟨l', rfl, hl'⟩
  · rintro ⟨l', rfl, hl'⟩
    exact e.intrudes hgroups hl'

/-- A group that interferes for a linkage of the part, or with a group of the part, is one of the part. -/
theorem exists_group_of_intrudes (e : Embeds f h q p) (hgroups : Groups.Embeds f k small big)
    {l : LinkageId} {x y : GroupId} (hl : Intrudes p big l x y ∨ Intrudes p big l y x)
    (hpart : (∃ l', l = h l') ∨ ∃ g, y = k g) : ∃ g, x = k g := by
  rcases hl with hl | hl
  · obtain ⟨-, g, -, -, heq, -, -⟩ := e.exists_intrudes hgroups hl (hpart.imp id .inr)
    exact ⟨g, heq⟩
  · obtain ⟨-, -, g, -, -, heq, -⟩ := e.exists_intrudes hgroups hl (hpart.imp id .inl)
    exact ⟨g, heq⟩

/-- Groups of a part interfere in the whole as they do in the part. -/
theorem graph (e : Embeds f h q p) (hgroups : Groups.Embeds f k small big) :
    Interference.Embeds h k (.ofGroups q small) (.ofGroups p big) where
  neighbors_eq g := by
    have ascending : (((ofGroups q small).neighbors g).map k).Pairwise (· < ·) :=
      (pairwise_neighbors g).map k fun _ _ hlt => hgroups.mono hlt
    refine (pairwise_neighbors (k g)).eq_of_mem_iff ascending fun y => ?_
    rw [mem_neighbors_iff_intrudes, List.mem_map]
    constructor
    · rintro ⟨hg, hy, l, hl⟩
      obtain ⟨y, rfl⟩ := e.exists_group_of_intrudes hgroups hl.symm (.inr ⟨g, rfl⟩)
      rw [e.intrudes_iff hgroups, e.intrudes_iff hgroups, ← exists_or] at hl
      obtain ⟨l', hl'⟩ := hl
      exact ⟨y, mem_neighbors_iff_intrudes.mpr ⟨(hgroups.lt_iff g).mp hg, (hgroups.lt_iff y).mp hy, l',
        hl'.imp And.right And.right⟩, rfl⟩
    · rintro ⟨y, hy, rfl⟩
      obtain ⟨hg, hy, l, hl⟩ := mem_neighbors_iff_intrudes.mp hy
      exact ⟨(hgroups.lt_iff g).mpr hg, (hgroups.lt_iff y).mpr hy, h l,
        hl.imp (e.intrudes hgroups) (e.intrudes hgroups)⟩
  linkagesBehind_eq x y := by
    have ascending : (((ofGroups q small).linkagesBehind x y).map h).Pairwise (· < ·) :=
      (pairwise_linkagesBehind _ x y).map h fun _ _ hlt => e.linkages_mono hlt
    refine (pairwise_linkagesBehind _ (k x) (k y)).eq_of_mem_iff ascending fun l => ?_
    rw [mem_linkagesBehind_iff_intrudes, List.mem_map, ← hgroups.mono.monotone.map_max, hgroups.lt_iff,
      e.intrudes_iff hgroups, e.intrudes_iff hgroups, ← exists_or]
    simp only [← and_or_left]
    constructor
    · rintro ⟨hlt, l', rfl, hl'⟩
      exact ⟨l', mem_linkagesBehind_iff_intrudes.mpr ⟨hlt, hl'⟩, rfl⟩
    · rintro ⟨l', hl', rfl⟩
      obtain ⟨hlt, hl'⟩ := mem_linkagesBehind_iff_intrudes.mp hl'
      exact ⟨hlt, l', rfl, hl'⟩
  exists_group l x y hl :=
    e.exists_group_of_intrudes hgroups (mem_linkagesBehind_iff_intrudes.mp hl).2 (.inl ⟨l, rfl⟩)

end Program.Embeds

end RegisterColoring
