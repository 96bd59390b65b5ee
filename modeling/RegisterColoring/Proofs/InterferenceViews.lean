import Mathlib.Data.List.TFAE
import Mathlib.Tactic.TFAE
import RegisterColoring.Proofs.Reversal

/-! # The views of interference agree

Interference can be read off a packed relation on pairs, off lists of neighbours, off a list of edges and off a
look-up of edges. For two groups all of them say the same, and it is what the positions of the program say: an
active linkage that starts in one of the groups has its ends in one block, and a use of the other lies between
them. The linkages that an edge names are these and no others, so that it takes breaking all of them to get rid
of it.

A linkage is one of a group if both of its ends are in the group. An active linkage that starts in a group is one
of that group unless its second end is in memory, so that the graph is the one that the linkages of the groups
make as long as no linkage leads from a use in play to one in memory.

* `Program.Surrounds`: a use lies between the ends of a linkage.
* `Interference.Covers`: a linkage of a group has a use of another between its ends.
* `Interference.CoversFromFirst`: the same of a linkage that starts in a group, which the graph goes by.
* `Interference.covers_iff_coversFromFirst`: where the two part.
* `Interference.interferes_iff`, `Interference.isSome_edge?_iff`, `Interference.exists_edge_iff`: the views.
* `Interference.pairwise_edges`: the edges are in order, and so no pair has two.
* `Interference.coversFromFirst_mapStates`: what is left when linkages are broken.
* `interference_views`: all views of the groups that the joined uses of a program form.
* `neighbors_of_half_in_memory`: groups may be neighbours although no linkage of one covers a use of the other. -/

namespace RegisterColoring

/-- Whether a use lies in the block of both ends of a linkage, between the two or at one of them. -/
def Program.Surrounds (p : Program) (k : Linkage) (u : UseId) : Prop :=
  ∃ a b c, p.position? k.first = some a ∧ p.position? k.second = some b ∧ a.block = b.block ∧
    p.position? u = some c ∧ c.block = a.block ∧
    min a.offset b.offset ≤ c.offset ∧ c.offset ≤ max a.offset b.offset

/-- A use lies between the ends of a linkage if and only if it has a position in its span. -/
theorem Program.surrounds_iff {p : Program} {k : Linkage} {u : UseId} : p.Surrounds k u ↔
    ∃ span c, p.span? k = some span ∧ p.position? u = some c ∧ span.contains c = true := by
  constructor
  · rintro ⟨a, b, c, ha, hb, hblock, hc, hin, hstart, hstop⟩
    refine ⟨⟨a.block, min a.offset b.offset, max a.offset b.offset⟩, c, ?_, hc, ?_⟩
    · simp [Program.span?, ha, hb, Span.between?, hblock]
    · exact Span.contains_iff.mpr ⟨hin, hstart, hstop⟩
  · rintro ⟨span, c, hspan, hc, hcontains⟩
    obtain ⟨a, ha, hspan⟩ := Option.bind_eq_some_iff.mp hspan
    obtain ⟨b, hb, hspan⟩ := Option.bind_eq_some_iff.mp hspan
    rw [Span.between?, Option.ite_none_right_eq_some, Option.some.injEq] at hspan
    obtain ⟨hblock, rfl⟩ := hspan
    obtain ⟨hin, hstart, hstop⟩ := Span.contains_iff.mp hcontains
    exact ⟨a, b, c, ha, hb, hblock, hc, hin, hstart, hstop⟩

namespace Interference

variable {m : Machine} {p : Program} {groups : Groups} {x y : GroupId} {l : LinkageId}

/-! ## Linkages that cover uses -/

/-- Whether `l` is an active linkage of the group `owner`, with both ends in it, and a use of the group `other`
lies between its ends. -/
def Covers (p : Program) (groups : Groups) (l : LinkageId) (owner other : GroupId) : Prop :=
  ∃ k u, p.linkages[l]? = some k ∧ k.state = .active ∧ groups.ofUse? k.first = some owner ∧
    groups.ofUse? k.second = some owner ∧ groups.ofUse? u = some other ∧ p.Surrounds k u

/-- Whether `l` is an active linkage whose first end is in the group `owner`, and a use of the group `other` lies
between its ends. -/
def CoversFromFirst (p : Program) (groups : Groups) (l : LinkageId) (owner other : GroupId) : Prop :=
  ∃ k u, p.linkages[l]? = some k ∧ k.state = .active ∧ groups.ofUse? k.first = some owner ∧
    groups.ofUse? u = some other ∧ p.Surrounds k u

/-- The linkages of a group are those that start in it and do not lead to a use in memory. -/
theorem covers_iff_coversFromFirst (h : groups.Formed m p) (hends : p.missingEnd? = none) :
    Covers p groups l x y ↔ CoversFromFirst p groups l x y ∧
      ∀ k, p.linkages[l]? = some k → p.isInMemory k.second = false := by
  constructor
  · rintro ⟨k, u, hk, hactive, hfirst, hsecond, hother, hu⟩
    refine ⟨⟨k, u, hk, hactive, hfirst, hother, hu⟩, fun k' hk' => ?_⟩
    obtain rfl : k = k' := Option.some.inj (hk.symm.trans hk')
    exact (Program.mem_usesInPlay.mp ((h.isSome_ofUse? _).mp (by rw [hsecond]; rfl))).2
  · rintro ⟨⟨k, u, hk, hactive, hfirst, hother, hu⟩, hsecond⟩
    have inPlay := (Program.mem_usesInPlay.mp ((h.isSome_ofUse? _).mp (by rw [hfirst]; rfl))).2
    -- ends of one linkage that are both in play were joined
    obtain ⟨g, hg, hg'⟩ := h.exists_ofUse?_ends hends (Array.mem_of_getElem? hk) hactive inPlay (hsecond k hk)
    obtain rfl : g = x := Option.some.inj (hg.symm.trans hfirst)
    exact ⟨k, u, hk, hactive, hg, hg', hother, hu⟩

/-- As long as no active linkage leads from a use in play to one in memory, those that start in a group are linkages
of the group. -/
theorem coversFromFirst_iff_covers (h : groups.Formed m p) (hends : p.EndsInRange)
    (hsettled : ∀ k ∈ p.linkages, k.state = .active → p.isInMemory k.first = false →
      p.isInMemory k.second = false) : CoversFromFirst p groups l x y ↔ Covers p groups l x y := by
  rw [covers_iff_coversFromFirst h (Program.missingEnd?_eq_none hends), iff_self_and]
  rintro ⟨k, u, hk, hactive, hfirst, -⟩ k' hk'
  obtain rfl : k = k' := Option.some.inj (hk.symm.trans hk')
  have inPlay := (Program.mem_usesInPlay.mp ((h.isSome_ofUse? _).mp (by rw [hfirst]; rfl))).2
  exact hsettled k (Array.mem_of_getElem? hk) hactive inPlay

/-- A linkage that starts in one group covers a use of another if and only if the use intrudes on it. -/
theorem coversFromFirst_iff_intrudes (hne : x ≠ y) :
    CoversFromFirst p groups l x y ↔ Intrudes p groups l x y := by
  constructor
  · rintro ⟨k, u, hk, hactive, howner, hother, hu⟩
    obtain ⟨span, c, hspan, hc, hcontains⟩ := Program.surrounds_iff.mp hu
    exact ⟨k, span, u, c, Program.mem_activeLinkages.mpr ⟨hk, Linkage.isActive_iff.mpr hactive⟩, hspan, howner,
      hc, hcontains, hother, hne.symm⟩
  · rintro ⟨k, span, u, c, hk, hspan, howner, hc, hcontains, hother, -⟩
    obtain ⟨hk, hactive⟩ := Program.mem_activeLinkages.mp hk
    exact ⟨k, u, hk, Linkage.isActive_iff.mp hactive, howner, hother,
      Program.surrounds_iff.mpr ⟨span, c, hspan, hc, hcontains⟩⟩

/-- One of two groups intrudes on the other if and only if a linkage that starts in one covers a use of the
other. -/
theorem coversFromFirst_or_iff (hne : x ≠ y) :
    CoversFromFirst p groups l x y ∨ CoversFromFirst p groups l y x ↔
      Intrudes p groups l x y ∨ Intrudes p groups l y x := by
  rw [coversFromFirst_iff_intrudes hne, coversFromFirst_iff_intrudes hne.symm]

/-- If linkages change their states and none becomes active, those that still cover a use are those that did and
are still active. -/
theorem coversFromFirst_mapStates {f : Linkage → LinkageId → LinkState}
    (hf : ∀ k l, p.linkages[l]? = some k → f k l = .active → k.state = .active) :
    CoversFromFirst (p.mapStates f) groups l x y ↔
      CoversFromFirst p groups l x y ∧ ∀ k, p.linkages[l]? = some k → f k l = .active := by
  constructor
  · rintro ⟨k', u, hk', hactive, h⟩
    rw [Program.getElem?_mapStates] at hk'
    obtain ⟨k, hk, rfl⟩ := Option.map_eq_some_iff.mp hk'
    refine ⟨⟨k, u, hk, hf k l hk hactive, h⟩, fun k' hk' => ?_⟩
    obtain rfl : k = k' := Option.some.inj (hk.symm.trans hk')
    exact hactive
  · rintro ⟨⟨k, u, hk, -, h⟩, hactive⟩
    refine ⟨{ k with state := f k l }, u, ?_, hactive k hk, h⟩
    rw [Program.getElem?_mapStates, hk]
    rfl

/-! ## Views of a pair -/

/-- The packed relation holds of two groups if and only if one is listed as a neighbour of the other. -/
theorem interferes_iff (hx : x < groups.size) (hy : y < groups.size) :
    (ofGroups p groups).interferes x y = true ↔ y ∈ (ofGroups p groups).neighbors x := by
  rw [interferes, Bool.and_eq_true, bne_iff_ne]
  constructor
  · exact fun h => (holds_iff hx hy h.1).mp h.2
  · intro hmem
    have hne : x ≠ y := by
      rintro rfl
      exact not_mem_neighbors_self hmem
    exact ⟨hne, (holds_iff hx hy hne).mpr hmem⟩

/-- The look-up finds an edge for two groups if and only if one is listed as a neighbour of the other. -/
theorem isSome_edge?_iff : ((ofGroups p groups).edge? x y).isSome = true ↔
    y ∈ (ofGroups p groups).neighbors x := by
  rw [Option.isSome_iff_exists, mem_neighbors_iff_exists_edge]
  simp only [edge?_eq_some_iff]

/-- Groups are neighbours if and only if a linkage that starts in one covers a use of the other. -/
theorem mem_neighbors_iff_covers (hx : x < groups.size) (hy : y < groups.size) (hne : x ≠ y) :
    y ∈ (ofGroups p groups).neighbors x ↔
      ∃ l, CoversFromFirst p groups l x y ∨ CoversFromFirst p groups l y x := by
  rw [mem_neighbors_iff_intrudes]
  simp only [hx, hy, true_and, coversFromFirst_or_iff hne]

/-- The linkages behind an edge are those that start in one of its groups and cover a use of the other. -/
theorem mem_linkagesBehind_iff_covers (hx : x < groups.size) (hy : y < groups.size) (hne : x ≠ y) :
    l ∈ (ofGroups p groups).linkagesBehind x y ↔
      CoversFromFirst p groups l x y ∨ CoversFromFirst p groups l y x := by
  rw [mem_linkagesBehind_iff_intrudes, coversFromFirst_or_iff hne]
  exact and_iff_right (max_lt hx hy)

/-! ## The list of edges -/

/-- The edges are ordered by their lower and then by their higher group. -/
theorem pairwise_edges : (ofGroups p groups).edges.Pairwise fun e e' =>
    e.first < e'.first ∨ e.first = e'.first ∧ e.second < e'.second := by
  rw [edges_ofGroups]
  exact (pairwise_edgesOf _).filter _

/-- No pair of groups has two edges. -/
theorem nodup_edges : ((ofGroups p groups).edges.map fun e => (e.first, e.second)).Nodup :=
  List.pairwise_map.mpr (pairwise_edges.imp Edge.apart_of_before)

/-! ## Graphs that are built anew -/

/-- When linkages change their states and none becomes active, an edge is gone if and only if no linkage behind it
is active any more. -/
theorem edge?_mapStates_eq_none_iff {f : Linkage → LinkageId → LinkState}
    (hf : ∀ k l, p.linkages[l]? = some k → f k l = .active → k.state = .active) (hx : x < groups.size)
    (hy : y < groups.size) (hne : x ≠ y) : (ofGroups (p.mapStates f) groups).edge? x y = none ↔
      ∀ l ∈ (ofGroups p groups).linkagesBehind x y, ∃ k, p.linkages[l]? = some k ∧ f k l ≠ .active := by
  rw [← Option.not_isSome_iff_eq_none, isSome_edge?_iff, mem_neighbors_iff_covers hx hy hne]
  simp only [mem_linkagesBehind_iff_covers hx hy hne, coversFromFirst_mapStates hf, ← or_and_right, not_exists,
    not_and, not_forall, exists_prop, ne_eq]

end Interference

/-- For two of the groups that the joined uses of a program form, all views of the graph say the same: a linkage
that starts in one covers a use of the other. No group interferes with itself, neighbours are ascending, and no
pair has two edges. The linkages behind an edge are those that cover a use, and when the graph is built anew after some were broken, the edge is gone if and only if all of them
were. A linkage that starts in a group is one of that group if and only if its second end is not in memory. So
as long as no active linkage leads from a use in play to one in memory, the groups are neighbours and the
linkages are behind their edge that the linkages of the groups make. -/
theorem interference_views {m : Machine} {p : Program} {groups : Groups}
    (hgroups : Groups.ofPartition m p p.joinedSets = .ok groups) :
    let g := Interference.ofGroups p groups
    (∀ x < groups.size, ∀ y < groups.size, x ≠ y →
      [g.interferes x y = true, g.interferes y x = true, y ∈ g.neighbors x, x ∈ g.neighbors y,
        (g.edge? x y).isSome = true, ∃ e ∈ g.edges, e.first = min x y ∧ e.second = max x y,
        ∃ l, Interference.CoversFromFirst p groups l x y ∨
          Interference.CoversFromFirst p groups l y x].TFAE) ∧
    (∀ x, g.interferes x x = false ∧ x ∉ g.neighbors x ∧ g.edge? x x = none) ∧
    (∀ x, (g.neighbors x).Pairwise (· < ·)) ∧
    (∀ e ∈ g.edges, e.first < e.second) ∧ (g.edges.map fun e => (e.first, e.second)).Nodup ∧
    (∀ x < groups.size, ∀ y < groups.size, x ≠ y →
      (g.linkagesBehind x y).Pairwise (· < ·) ∧
      (∀ l, l ∈ g.linkagesBehind x y ↔
        Interference.CoversFromFirst p groups l x y ∨ Interference.CoversFromFirst p groups l y x) ∧
      ∀ f : Linkage → LinkageId → LinkState,
        (∀ k l, p.linkages[l]? = some k → f k l = .active → k.state = .active) →
        ((Interference.ofGroups (p.mapStates f) groups).edge? x y = none ↔
          ∀ l ∈ g.linkagesBehind x y, ∃ k, p.linkages[l]? = some k ∧ f k l ≠ .active)) ∧
    (p.EndsInRange →
      (∀ l x y, Interference.Covers p groups l x y ↔ Interference.CoversFromFirst p groups l x y ∧
        ∀ k, p.linkages[l]? = some k → p.isInMemory k.second = false) ∧
      ((∀ k ∈ p.linkages, k.state = .active → p.isInMemory k.first = false →
          p.isInMemory k.second = false) →
        ∀ x < groups.size, ∀ y < groups.size, x ≠ y →
          (y ∈ g.neighbors x ↔
            ∃ l, Interference.Covers p groups l x y ∨ Interference.Covers p groups l y x) ∧
          ∀ l, l ∈ g.linkagesBehind x y ↔
            Interference.Covers p groups l x y ∨ Interference.Covers p groups l y x)) := by
  intro g
  have formed := Groups.formed_of_ofPartition (Program.sortedBy_joinedSets p) hgroups
  refine ⟨fun x hx y hy hne => ?_, fun x => ⟨?_, ?_, ?_⟩, Interference.pairwise_neighbors, ?_,
    Interference.nodup_edges, fun x hx y hy hne => ⟨?_, fun l => ?_, fun f hf => ?_⟩,
    fun hends => ⟨fun l x y => ?_, fun hsettled x hx y hy hne => ?_⟩⟩
  · tfae_have 1 ↔ 3 := Interference.interferes_iff hx hy
    tfae_have 2 ↔ 4 := Interference.interferes_iff hy hx
    tfae_have 3 ↔ 4 := Interference.neighbors_comm
    tfae_have 5 ↔ 3 := Interference.isSome_edge?_iff
    tfae_have 3 ↔ 6 := Interference.mem_neighbors_iff_exists_edge
    tfae_have 3 ↔ 7 := Interference.mem_neighbors_iff_covers hx hy hne
    tfae_finish
  · simp [Interference.interferes]
  · exact Interference.not_mem_neighbors_self
  · rw [← Option.not_isSome_iff_eq_none, Interference.isSome_edge?_iff]
    exact Interference.not_mem_neighbors_self
  · exact fun e he => (Interference.edges_lt he).2.2
  · exact Interference.pairwise_linkagesBehind g x y
  · exact Interference.mem_linkagesBehind_iff_covers hx hy hne
  · exact Interference.edge?_mapStates_eq_none_iff hf hx hy hne
  · exact Interference.covers_iff_coversFromFirst formed (Program.missingEnd?_eq_none hends)
  · have same : ∀ l x y, Interference.CoversFromFirst p groups l x y ↔ Interference.Covers p groups l x y :=
      fun l x y => Interference.coversFromFirst_iff_covers formed hends hsettled
    simp only [g, Interference.mem_neighbors_iff_covers hx hy hne,
      Interference.mem_linkagesBehind_iff_covers hx hy hne, same, implies_true, and_self]

/-- The groups of the two bytes whose spans cross. -/
def crossingGroups : Groups :=
  ⟨#[⟨[0, 1], 0, 1⟩, ⟨[2, 3], 0, 1⟩], #[some 0, some 0, some 1, some 1]⟩

/-- Each of two bytes whose spans cross has an end in the span of the other. Breaking one of the linkages leaves
the other, and with it the edge; breaking both removes it. -/
theorem interference_views_crossingBytes :
    Groups.ofPartition bytePairMachine crossingBytes crossingBytes.joinedSets = .ok crossingGroups ∧
      let g := Interference.ofGroups crossingBytes crossingGroups
      g.linkagesBehind 0 1 = [0, 1] ∧ 1 ∈ g.neighbors 0 ∧ 0 ∈ g.neighbors 1 ∧
      (Interference.ofGroups (crossingBytes.breakAll 1 [0]) crossingGroups).edge? 0 1 ≠ none ∧
      (Interference.ofGroups (crossingBytes.breakAll 1 [0, 1]) crossingGroups).edge? 0 1 = none := by
  have hgroups : Groups.ofPartition bytePairMachine crossingBytes crossingBytes.joinedSets =
      .ok crossingGroups := by
    rfl
  obtain ⟨views, -, -, -, -, behind, -⟩ := interference_views hgroups
  have hfirst : 0 < crossingGroups.size := by decide
  have hsecond : 1 < crossingGroups.size := by decide
  have views := views 0 hfirst 1 hsecond (by decide)
  obtain ⟨-, -, rebuilt⟩ := behind 0 hfirst 1 hsecond (by decide)
  have linkages : (Interference.ofGroups crossingBytes crossingGroups).linkagesBehind 0 1 = [0, 1] := by
    decide +kernel
  have edge : ((Interference.ofGroups crossingBytes crossingGroups).edge? 0 1).isSome = true := by
    decide +kernel
  have active : ∀ (k : Linkage) (l : LinkageId), crossingBytes.linkages[l]? = some k → k.state = .active := by
    have all : ∀ k ∈ crossingBytes.linkages, k.state = .active := by decide
    exact fun k l hk => all k (Array.mem_of_getElem? hk)
  rw [linkages] at rebuilt
  refine ⟨hgroups, linkages, (views.out 4 2).mp edge, (views.out 4 3).mp edge, fun hnone => ?_, ?_⟩
  · -- the second linkage is as it was
    obtain ⟨k, hk, hbroken⟩ := (rebuilt _ fun k l hk _ => active k l hk).mp hnone 1 (by decide)
    exact hbroken (active k 1 hk)
  · refine (rebuilt _ fun k l hk _ => active k l hk).mpr ?_
    decide

/-- The groups of the two bytes that are in play in `interposedInMemory`. -/
def interposedGroups : Groups :=
  ⟨#[⟨[0], 0, 1⟩, ⟨[2], 0, 1⟩], #[some 0, none, some 1]⟩

/-- The two bytes of `interposedInMemory` are neighbours, although no linkage of one covers the other: the only
linkage starts at one of them and leads to a use in memory. When it is reversed they are not. -/
theorem neighbors_of_half_in_memory :
    interposedInMemory.EndsInRange ∧
      Groups.ofPartition bytePairMachine interposedInMemory interposedInMemory.joinedSets =
        .ok interposedGroups ∧
      1 ∈ (Interference.ofGroups interposedInMemory interposedGroups).neighbors 0 ∧
      (Interference.ofGroups interposedInMemory interposedGroups).linkagesBehind 0 1 = [0] ∧
      (¬ ∃ l, Interference.Covers interposedInMemory interposedGroups l 0 1 ∨
        Interference.Covers interposedInMemory interposedGroups l 1 0) ∧
      (Interference.ofGroups (interposedInMemory.reverse fun _ => true) interposedGroups).edges = [] := by
  have moved : interposedInMemory = { interposed with
      uses := #[
        ⟨0, .temp, 0, some 0, 1, some ⟨0, 0⟩, false⟩,
        ⟨0, .temp, 1, some 1, 2, some ⟨0, 5⟩, true⟩,
        ⟨0, .temp, 2, some 0, 1, some ⟨0, 3⟩, false⟩]
      linkages := #[⟨0, 1, .active⟩] } := by
    decide +kernel
  refine ⟨by decide +kernel, by rw [moved]; rfl, by decide +kernel, by decide +kernel, ?_, by decide +kernel⟩
  have outside : ∀ k ∈ interposedInMemory.linkages, interposedGroups.ofUse? k.second = none := by
    decide +kernel
  rintro ⟨l, ⟨k, u, hk, -, -, hsecond, -⟩ | ⟨k, u, hk, -, -, hsecond, -⟩⟩
  all_goals
    rw [outside k (Array.mem_of_getElem? hk)] at hsecond
    cases hsecond

end RegisterColoring
