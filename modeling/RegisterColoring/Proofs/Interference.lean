import Mathlib.Algebra.Order.Group.Nat
import RegisterColoring.Interference.Graph
import RegisterColoring.Proofs.Lists
import RegisterColoring.Proofs.PairMatrix

/-! # What interference is

The graph of an attempt keeps the same edges in four places: a packed relation on pairs, lists of neighbours, a
list of edges and an index into it. Every edge that is added is entered in all of them, so that they go on to
agree. All of them say that a use of one group lies in the span of an active linkage of the other.

* `mem_usesInside`: the uses found in a span are those that lie in it.
* `mem_encounters_iff`: what an encounter is.
* `Interference.HasEdges`: each of the four views has these edges and no others.
* `Interference.HasEdges.addEdge`, `Interference.HasEdges.foldl_addEdge`: what one edge more does, and what a list
  of edges does.
* `Interference.mem_neighbors_iff`: neighbours are the groups with an encounter between them.
* `Interference.edge?_eq_some_iff`: looking up an edge finds the one in the list.
* `Interference.active_of_mem_linkagesBehind`: an edge names active linkages only.
* `Interference.Intrudes`: a use lies in the span of a linkage, and what neighbours and edges are in terms
  of it. -/

namespace RegisterColoring

/-! ## Encounters -/

/-- The placed uses are those with a group and a position. -/
theorem mem_placedUses {p : Program} {groups : Groups} {u : PlacedUse} :
    u ∈ placedUses p groups ↔
      p.position? u.use = some u.position ∧ (groups.ofUse? u.use).isSome = true := by
  rw [placedUses, List.mem_filterMap]
  constructor
  · rintro ⟨v, -, hv⟩
    split at hv
    · rename_i position g hposition hg
      cases hv
      exact ⟨hposition, by rw [hg]; rfl⟩
    · cases hv
  · rintro ⟨hposition, hgroup⟩
    obtain ⟨g, hg⟩ := Option.isSome_iff_exists.mp hgroup
    refine ⟨u.use, ?_, by rw [hposition, hg]⟩
    -- a use with a position is a use of the program
    obtain ⟨use, huse, -⟩ := Option.bind_eq_some_iff.mp hposition
    exact List.mem_range.mpr (Array.getElem?_eq_some_iff.mp huse).1

/-- The uses of a block are the placed uses in it, sorted. -/
theorem toList_getD_usesByBlock (p : Program) (groups : Groups) (block : Nat) :
    ((usesByBlock p groups).getD block #[]).toList =
      sortBy PlacedUse.before ((placedUses p groups).filter fun u => u.position.block = block) := by
  have found : ((gatherBy compare (fun u : PlacedUse => u.position.block) id (placedUses p groups)).getD block
      #[]).toList = (placedUses p groups).filter fun u => u.position.block = block := by
    rw [toList_getD_gatherBy, List.map_id]
  rw [usesByBlock, Std.TreeMap.getD_eq_getD_getElem?, Std.TreeMap.getElem?_map]
  rw [Std.TreeMap.getD_eq_getD_getElem?] at found
  rw [← found]
  cases (gatherBy compare (fun u : PlacedUse => u.position.block) id (placedUses p groups))[block]? with
  | none => rfl
  | some uses => rfl

/-- The uses of a block come in the order of their places. -/
theorem pairwise_usesByBlock (p : Program) (groups : Groups) (block : Nat) :
    ((usesByBlock p groups).getD block #[]).toList.Pairwise fun u v =>
      u.position.offset ≤ v.position.offset := by
  have before_iff : ∀ u v : PlacedUse, u.before v = true ↔
      u.position.offset < v.position.offset ∨ u.position.offset = v.position.offset ∧ u.use < v.use := by
    simp [PlacedUse.before]
  rw [toList_getD_usesByBlock]
  refine (pairwise_sortBy (fun u v h => ?_) (fun u v w h h' => ?_) _).imp fun {u v} h => ?_
  all_goals
    simp only [Bool.eq_false_iff, ne_eq, before_iff] at *
    grind

/-- A span between two positions stops at or after its start. -/
theorem start_le_stop {p : Program} {l : Linkage} {s : Span} (h : p.span? l = some s) : s.start ≤ s.stop := by
  obtain ⟨a, -, h⟩ := Option.bind_eq_some_iff.mp h
  obtain ⟨b, -, h⟩ := Option.bind_eq_some_iff.mp h
  obtain ⟨-, h⟩ := Option.ite_none_right_eq_some.mp h
  cases h
  exact min_le_max

/-- Among uses in the order of their places, those found in a span are those that lie in it. -/
theorem usesInside_eq_filter {s : Span} (hs : s.start ≤ s.stop) {uses : Array PlacedUse}
    (h : uses.toList.Pairwise fun u v => u.position.offset ≤ v.position.offset) :
    s.usesInside uses = uses.toList.filter fun u => decide (u.position.offset ≤ s.stop) &&
      decide (s.start ≤ u.position.offset) := by
  rw [Span.usesInside, between_eq_filter (h.imp fun huv => by simp; omega) (h.imp fun huv => by simp; omega)
    fun u hu => by simp only [decide_eq_true_eq] at hu ⊢; omega]
  simp only [← decide_not, Nat.not_lt]

/-- The uses found in a span are those with a group and a position in it. -/
theorem mem_usesInside {p : Program} {groups : Groups} {l : Linkage} {s : Span} (hs : p.span? l = some s)
    {u : PlacedUse} : u ∈ s.usesInside ((usesByBlock p groups).getD s.block #[]) ↔
      p.position? u.use = some u.position ∧ (groups.ofUse? u.use).isSome = true ∧
        s.contains u.position = true := by
  rw [usesInside_eq_filter (start_le_stop hs) (pairwise_usesByBlock p groups s.block), List.mem_filter,
    toList_getD_usesByBlock, mem_sortBy, List.mem_filter, mem_placedUses, Span.contains]
  simp only [Bool.and_eq_true, decide_eq_true_eq, beq_iff_eq]
  grind

/-- A use encounters an active linkage when it lies in its span and is in another group than the
linkage's first end. -/
theorem mem_encounters_iff {p : Program} {groups : Groups} {c : Encounter} :
    c ∈ encounters p groups ↔ ∃ l span owner position other,
      (l, c.intrusion.linkage) ∈ p.activeLinkages ∧ p.span? l = some span ∧
      groups.ofUse? l.first = some owner ∧ p.position? c.intrusion.use = some position ∧
      span.contains position = true ∧ groups.ofUse? c.intrusion.use = some other ∧
      other ≠ owner ∧ c.first = min owner other ∧ c.second = max owner other := by
  rw [encounters, List.mem_flatMap]
  constructor
  · rintro ⟨⟨l, id⟩, hl, hc⟩
    simp only [encountersOf] at hc
    split at hc
    · rename_i span owner hspan howner
      obtain ⟨u, hu, hc⟩ := List.mem_filterMap.mp hc
      obtain ⟨hposition, -, hcontains⟩ := (mem_usesInside hspan).mp hu
      split at hc
      · rename_i other hother
        split at hc
        · cases hc
        · rename_i hne
          cases hc
          exact ⟨l, span, owner, u.position, other, hl, hspan, howner, hposition, hcontains, hother, hne, rfl,
            rfl⟩
      · cases hc
    · cases hc
  · rintro ⟨l, span, owner, position, other, hl, hspan, howner, hposition, hcontains, hother, hne,
      hfirst, hsecond⟩
    refine ⟨(l, c.intrusion.linkage), hl, ?_⟩
    simp only [encountersOf, hspan, howner]
    refine List.mem_filterMap.mpr ⟨⟨c.intrusion.use, position⟩, ?_, ?_⟩
    · exact (mem_usesInside hspan).mpr ⟨hposition, by rw [hother]; rfl, hcontains⟩
    · simp only [hother, if_neg hne, ← hfirst, ← hsecond]

/-- An encounter is between two groups, the lower first. -/
theorem first_lt_second_of_mem_encounters {p : Program} {groups : Groups} {c : Encounter}
    (h : c ∈ encounters p groups) : c.first < c.second := by
  obtain ⟨_, _, owner, _, other, _, _, _, _, _, _, hne, hfirst, hsecond⟩ := mem_encounters_iff.mp h
  rw [hfirst, hsecond]
  exact min_lt_max.mpr hne.symm

/-! ## Edges -/

/-- The encounters between two groups, the lower first. -/
def encountersBetween (encounters : List Encounter) (first second : GroupId) : List Encounter :=
  encounters.filter fun c => (c.first, c.second) = (first, second)

/-- There is an encounter between two groups if some encounter names them. -/
theorem encountersBetween_ne_nil {encounters : List Encounter} {first second : GroupId} :
    encountersBetween encounters first second ≠ [] ↔
      ∃ c ∈ encounters, c.first = first ∧ c.second = second := by
  rw [← List.isEmpty_eq_false_iff, List.isEmpty_eq_false_iff_exists_mem]
  simp only [encountersBetween, List.mem_filter, decide_eq_true_eq, Prod.mk.injEq]

/-- There is one edge for every two groups with encounters between them. -/
theorem mem_edgesOf {encounters : List Encounter} {e : Edge} :
    e ∈ edgesOf encounters ↔ encountersBetween encounters e.first e.second ≠ [] ∧
      e.intrusions = (encountersBetween encounters e.first e.second).map Encounter.intrusion := by
  rw [encountersBetween_ne_nil, edgesOf, List.mem_map]
  constructor
  · rintro ⟨⟨⟨first, second⟩, found⟩, hfound, rfl⟩
    obtain ⟨⟨c, hc, hpair⟩, hvalues⟩ :=
      getElem?_gatherBy_eq_some_iff.mp (Std.TreeMap.mem_toList_iff_getElem?_eq_some.mp hfound)
    obtain ⟨hfirst, hsecond⟩ := Prod.mk.inj hpair
    exact ⟨⟨c, hc, hfirst, hsecond⟩, hvalues⟩
  · rintro ⟨⟨c, hc, hfirst, hsecond⟩, hintrusions⟩
    refine ⟨((e.first, e.second), e.intrusions.toArray), ?_, rfl⟩
    refine Std.TreeMap.mem_toList_iff_getElem?_eq_some.mpr (getElem?_gatherBy_eq_some_iff.mpr ?_)
    exact ⟨⟨c, hc, Prod.ext hfirst hsecond⟩, hintrusions⟩

/-- The edges are ordered by their lower and then by their higher group. -/
theorem pairwise_edgesOf (encounters : List Encounter) : (edgesOf encounters).Pairwise fun e e' =>
    e.first < e'.first ∨ e.first = e'.first ∧ e.second < e'.second :=
  List.pairwise_map.mpr (Std.TreeMap.ordered_keys_toList.imp pairOrder_eq_lt.mp)

/-! ## Adding edges -/

/-- The other group of an edge of `x`. -/
def Edge.otherEnd? (x : GroupId) (e : Edge) : Option GroupId :=
  if e.first = x then some e.second else if e.second = x then some e.first else none

/-- The other group of an edge of `x` is the one that it joins with `x`. -/
theorem Edge.otherEnd?_eq_some_iff {e : Edge} (h : e.first < e.second) {x y : GroupId} :
    e.otherEnd? x = some y ↔ e.first = min x y ∧ e.second = max x y := by
  rw [otherEnd?]
  grind

/-- Whether two edges join different pairs of groups. -/
def Edge.Apart (e e' : Edge) : Prop :=
  (e.first, e.second) ≠ (e'.first, e'.second)

/-- Edges of which one comes before the other are apart. -/
theorem Edge.apart_of_before {e e' : Edge}
    (h : e.first < e'.first ∨ e.first = e'.first ∧ e.second < e'.second) : Edge.Apart e e' := by
  intro heq
  obtain ⟨hfirst, hsecond⟩ := Prod.mk.inj heq
  rcases h with hlt | ⟨-, hlt⟩
  · exact hlt.ne hfirst
  · exact hlt.ne hsecond

namespace Interference

/-- An edge between two groups that are there can be added. -/
theorem addEdge?_eq_some {n : Nat} {g : Interference} {e : Edge} (hmatrix : g.matrix.size = n)
    (hadjacency : g.adjacency.size = n) (hlt : e.first < e.second) (hsecond : e.second < n) :
    g.addEdge? e = some
      { matrix := g.matrix.withBit (PairMatrix.index e.first e.second) true
        adjacency := (g.adjacency.modify e.first (· ++ [e.second])).modify e.second (· ++ [e.first])
        edgeTable := g.edgeTable.push e
        edgeIndex := g.edgeIndex.insert (e.first, e.second) g.edgeTable.size } := by
  have hfirst : e.first < n := hlt.trans hsecond
  rw [addEdge?, if_pos (hadjacency.symm ▸ ⟨hfirst, hsecond⟩),
    PairMatrix.replace?_eq_some (hmatrix.symm ▸ hfirst) (hmatrix.symm ▸ hsecond) hlt.ne, Option.map_some]

/-- `g` has the edges `es` between groups below `n`, in each of its views. -/
structure HasEdges (n : Nat) (es : List Edge) (g : Interference) : Prop where
  /-- The relation is one of the groups. -/
  size_matrix : g.matrix.size = n
  /-- Their bits are set, and no others. -/
  bit_iff : ∀ x y, x < y → y < n →
    (g.matrix.related.contains (PairMatrix.index x y) = true ↔ ∃ e : Edge, e ∈ es ∧ e.first = x ∧ e.second = y)
  /-- There is a list of neighbours for every group. -/
  size_adjacency : g.adjacency.size = n
  /-- Both groups of an edge list each other. -/
  adjacency_eq : ∀ x, x < n → g.adjacency[x]? = some (es.filterMap (Edge.otherEnd? x))
  /-- The edges stand in their order. -/
  edgeTable_eq : g.edgeTable.toList = es
  /-- The index says where they stand. -/
  edgeIndex_iff : ∀ x y i, g.edgeIndex[(x, y)]? = some i ↔
    ∃ e : Edge, es[i]? = some e ∧ e.first = x ∧ e.second = y

/-- At first there are no edges. -/
theorem hasEdges_edgeless (n : Nat) : HasEdges n [] (edgeless n) where
  size_matrix := rfl
  bit_iff x y _ _ := by simp [edgeless, PairMatrix.ofSize, Std.TreeSet.contains_emptyc]
  size_adjacency := Array.size_replicate
  adjacency_eq x hx := by simp [edgeless, hx]
  edgeTable_eq := rfl
  edgeIndex_iff x y i := by simp [edgeless]

namespace HasEdges

variable {n : Nat} {es : List Edge} {g : Interference} {e : Edge}

/-- An edge between two groups that are there can be added, and goes into all views. -/
theorem addEdge? (h : HasEdges n es g) (hlt : e.first < e.second) (hsecond : e.second < n)
    (hnew : ∀ e' ∈ es, e'.Apart e) : ∃ g', g.addEdge? e = some g' ∧ HasEdges n (es ++ [e]) g' := by
  refine ⟨_, addEdge?_eq_some h.size_matrix h.size_adjacency hlt hsecond, ?_⟩
  exact {
    size_matrix := h.size_matrix
    bit_iff := fun x y hxy hy => by
      have hindex : PairMatrix.index e.first e.second = PairMatrix.index x y ↔ e.first = x ∧ e.second = y := by
        constructor
        · intro heq
          obtain ⟨hmax, hmin⟩ := PairMatrix.index_inj hlt.ne hxy.ne heq
          rw [max_eq_right hlt.le, max_eq_right hxy.le] at hmax
          rw [min_eq_left hlt.le, min_eq_left hxy.le] at hmin
          exact ⟨hmin, hmax⟩
        · rintro ⟨rfl, rfl⟩
          rfl
      rw [PairMatrix.contains_withBit]
      simp only [hindex, List.mem_append, List.mem_singleton, or_and_right, exists_or, exists_eq_left,
        ← h.bit_iff x y hxy hy]
      split_ifs with hpair <;> simp [hpair]
    size_adjacency := by simp [h.size_adjacency]
    adjacency_eq := fun x hx => by
      rw [Array.getElem?_modify, Array.getElem?_modify, h.adjacency_eq x hx, List.filterMap_append]
      simp only [List.filterMap_cons, List.filterMap_nil, Edge.otherEnd?]
      -- the two groups of the edge differ, so that at most one of the two lists is that of `x`
      split_ifs with hs hf <;> first | exact absurd (hf.trans hs.symm) hlt.ne | simp
    edgeTable_eq := by rw [Array.toList_push, h.edgeTable_eq]
    edgeIndex_iff := fun x y i => by
      have hsize : g.edgeTable.size = es.length := by rw [← h.edgeTable_eq, Array.length_toList]
      rw [Std.TreeMap.getElem?_insert]
      by_cases hpair : (e.first, e.second) = (x, y)
      · -- an edge of this pair is the new one, which stands last
        obtain ⟨rfl, rfl⟩ := Prod.mk.inj hpair
        rw [if_pos Std.ReflCmp.compare_self, Option.some.injEq, hsize]
        constructor
        · rintro rfl
          exact ⟨e, List.getElem?_concat_length, rfl, rfl⟩
        · rintro ⟨e', he', hfirst', hsecond'⟩
          rw [List.getElem?_append] at he'
          split_ifs at he' with hi
          · exact absurd (Prod.ext hfirst' hsecond') (hnew e' (List.mem_of_getElem? he'))
          · have := (List.getElem?_eq_some_iff.mp he').1
            simp only [List.length_singleton] at this
            omega
      · rw [if_neg fun heq => hpair (Std.LawfulEqCmp.eq_of_compare heq), h.edgeIndex_iff]
        refine exists_congr fun e' => and_congr_left fun hends => ?_
        rw [List.getElem?_append]
        split_ifs with hi
        · rfl
        · refine iff_of_false (fun he' => hi (List.getElem?_eq_some_iff.mp he').1) fun he' => ?_
          obtain rfl : e = e' := List.mem_singleton.mp (List.mem_of_getElem? he') |>.symm
          exact hpair (Prod.ext hends.1 hends.2) }

/-- An edge to a group that is not there is left out. -/
theorem addEdge?_eq_none (h : HasEdges n es g) (hsecond : n ≤ e.second) : g.addEdge? e = none := by
  rw [Interference.addEdge?, if_neg]
  rw [h.size_adjacency]
  exact fun hthere => Nat.not_lt_of_le hsecond hthere.2

/-- Edges that are added one after the other go into all views, as far as their groups are there. -/
theorem foldl_addEdge (h : HasEdges n es g) {new : List Edge} (hlt : ∀ e ∈ new, e.first < e.second)
    (hold : ∀ e ∈ es, ∀ e' ∈ new, e.Apart e') (hnew : new.Pairwise Edge.Apart) :
    HasEdges n (es ++ new.filter fun e => e.second < n) (new.foldl addEdge g) := by
  induction new generalizing es g with
  | nil => simpa using h
  | cons e new ih =>
    obtain ⟨hapart, hnew⟩ := List.pairwise_cons.mp hnew
    have hlt' : ∀ e' ∈ new, e'.first < e'.second := fun e' he' => hlt e' (List.mem_cons_of_mem e he')
    have hold' : ∀ e' ∈ es, ∀ e'' ∈ new, e'.Apart e'' := fun e' he' e'' he'' =>
      hold e' he' e'' (List.mem_cons_of_mem e he'')
    rw [List.foldl_cons, addEdge]
    by_cases hsecond : e.second < n
    · obtain ⟨g', hadded, h'⟩ := h.addEdge? (hlt e List.mem_cons_self) hsecond fun e' he' =>
        hold e' he' e List.mem_cons_self
      rw [hadded, Option.getD_some, List.filter_cons_of_pos (by simpa using hsecond), List.append_cons]
      refine ih h' hlt' (fun e' he' e'' he'' => ?_) hnew
      rcases List.mem_append.mp he' with he' | he'
      · exact hold' e' he' e'' he''
      · rw [List.mem_singleton.mp he']
        exact hapart e'' he''
    · rw [h.addEdge?_eq_none (Nat.le_of_not_lt hsecond), Option.getD_none,
        List.filter_cons_of_neg (by simpa using hsecond)]
      exact ih h hlt' hold' hnew

end HasEdges

end Interference

/-! ## Neighbours -/

namespace Interference

variable {p : Program} {groups : Groups} {x y : GroupId}

/-- The edges that the encounters of a program make have their lower group first. -/
theorem first_lt_second_of_mem_edgesOf {e : Edge} (h : e ∈ edgesOf (encounters p groups)) :
    e.first < e.second := by
  obtain ⟨c, hc, hfirst, hsecond⟩ := encountersBetween_ne_nil.mp (mem_edgesOf.mp h).1
  rw [← hfirst, ← hsecond]
  exact first_lt_second_of_mem_encounters hc

/-- No two of them join the same groups. -/
theorem pairwise_apart_edgesOf (encounters : List Encounter) : (edgesOf encounters).Pairwise Edge.Apart :=
  (pairwise_edgesOf encounters).imp Edge.apart_of_before

/-- Before the neighbours are sorted, all views have the edges that the encounters make. -/
theorem hasEdges_foldl (p : Program) (groups : Groups) :
    HasEdges groups.size ((edgesOf (encounters p groups)).filter fun e => e.second < groups.size)
      ((edgesOf (encounters p groups)).foldl addEdge (edgeless groups.size)) := by
  have lower : ∀ e ∈ edgesOf (encounters p groups), e.first < e.second := fun _ =>
    first_lt_second_of_mem_edgesOf
  have built := (hasEdges_edgeless groups.size).foldl_addEdge lower
    (fun _ he => absurd he List.not_mem_nil) (pairwise_apart_edgesOf _)
  rwa [List.nil_append] at built

/-- The edges are those that the encounters make. -/
theorem edges_ofGroups (p : Program) (groups : Groups) : (ofGroups p groups).edges =
    (edgesOf (encounters p groups)).filter fun e => e.second < groups.size :=
  (hasEdges_foldl p groups).edgeTable_eq

/-- There is one edge for every two groups with encounters between them. -/
theorem mem_edges_iff {e : Edge} : e ∈ (ofGroups p groups).edges ↔ e.second < groups.size ∧
    encountersBetween (encounters p groups) e.first e.second ≠ [] ∧
    e.intrusions = (encountersBetween (encounters p groups) e.first e.second).map Encounter.intrusion := by
  rw [edges_ofGroups, List.mem_filter, mem_edgesOf, decide_eq_true_eq, and_comm]

/-- The groups of an edge are there, the lower first. -/
theorem edges_lt {e : Edge} (h : e ∈ (ofGroups p groups).edges) :
    e.first < groups.size ∧ e.second < groups.size ∧ e.first < e.second := by
  rw [edges_ofGroups, List.mem_filter, decide_eq_true_eq] at h
  have hlt := first_lt_second_of_mem_edgesOf h.1
  exact ⟨hlt.trans h.2, h.2, hlt⟩

/-- There is an edge between two groups if and only if there is an encounter between them. -/
theorem exists_mem_edges_iff : (∃ e ∈ (ofGroups p groups).edges, e.first = min x y ∧ e.second = max x y) ↔
    max x y < groups.size ∧ ∃ c ∈ encounters p groups, c.first = min x y ∧ c.second = max x y := by
  rw [← encountersBetween_ne_nil]
  constructor
  · rintro ⟨e, he, hfirst, hsecond⟩
    obtain ⟨hlt, hne, -⟩ := mem_edges_iff.mp he
    rw [hfirst, hsecond] at hne
    rw [hsecond] at hlt
    exact ⟨hlt, hne⟩
  · rintro ⟨hlt, hne⟩
    exact ⟨⟨min x y, max x y, (encountersBetween (encounters p groups) (min x y) (max x y)).map
      Encounter.intrusion⟩, mem_edges_iff.mpr ⟨hlt, hne, rfl⟩, rfl, rfl⟩

/-- The neighbours of a group are the other groups of its edges, sorted. -/
theorem neighbors_eq (hx : x < groups.size) : (ofGroups p groups).neighbors x =
    sortBy (fun x y => x < y) ((ofGroups p groups).edges.filterMap (Edge.otherEnd? x)) := by
  rw [neighbors, ofGroups, sortNeighbors, Array.getD_eq_getD_getElem?, Array.getElem?_map,
    (hasEdges_foldl p groups).adjacency_eq x hx, ← edges_ofGroups]
  rfl

/-- There is a list of neighbours for every group. -/
theorem size_adjacency_ofGroups (p : Program) (groups : Groups) :
    (ofGroups p groups).adjacency.size = groups.size := by
  rw [ofGroups, sortNeighbors, Array.size_map, (hasEdges_foldl p groups).size_adjacency]

/-- A group that is not there has no neighbours. -/
theorem neighbors_eq_nil (hx : groups.size ≤ x) : (ofGroups p groups).neighbors x = [] := by
  rw [neighbors, Array.getD_eq_getD_getElem?,
    Array.getElem?_eq_none (by rw [size_adjacency_ofGroups]; exact hx), Option.getD_none]

/-- Two groups are neighbours if and only if there is an edge between them. -/
theorem mem_neighbors_iff_exists_edge : y ∈ (ofGroups p groups).neighbors x ↔
    ∃ e ∈ (ofGroups p groups).edges, e.first = min x y ∧ e.second = max x y := by
  by_cases hx : x < groups.size
  · rw [neighbors_eq hx, mem_sortBy, List.mem_filterMap]
    exact exists_congr fun e => and_congr_right fun he => Edge.otherEnd?_eq_some_iff (edges_lt he).2.2
  · rw [neighbors_eq_nil (Nat.le_of_not_lt hx)]
    refine iff_of_false List.not_mem_nil ?_
    rintro ⟨e, he, -, hsecond⟩
    exact hx ((le_max_left x y).trans_lt (hsecond ▸ (edges_lt he).2.1))

/-- The neighbours of a group are ascending. -/
theorem pairwise_neighbors (x : GroupId) : ((ofGroups p groups).neighbors x).Pairwise (· < ·) := by
  by_cases hx : x < groups.size
  · rw [neighbors_eq hx]
    have nodup : ((ofGroups p groups).edges.filterMap (Edge.otherEnd? x)).Nodup := by
      refine List.pairwise_filterMap.mpr ?_
      rw [edges_ofGroups]
      refine ((pairwise_apart_edgesOf (encounters p groups)).filter _).imp_of_mem ?_
      rintro e e' he he' hapart y hy _ hy' rfl
      rw [← edges_ofGroups] at he he'
      obtain ⟨hfirst, hsecond⟩ := (Edge.otherEnd?_eq_some_iff (edges_lt he).2.2).mp hy
      obtain ⟨hfirst', hsecond'⟩ := (Edge.otherEnd?_eq_some_iff (edges_lt he').2.2).mp hy'
      exact hapart (Prod.ext (hfirst.trans hfirst'.symm) (hsecond.trans hsecond'.symm))
    exact (pairwise_key_sortBy (f := id) (fun _ _ => decide_eq_true_iff) _).imp₂
      (fun _ _ hle hne => Nat.lt_of_le_of_ne hle hne) ((sortBy_perm _ _).nodup_iff.mpr nodup)
  · rw [neighbors_eq_nil (Nat.le_of_not_lt hx)]
    exact .nil

/-- No neighbour is listed twice. -/
theorem nodup_neighbors (x : GroupId) : ((ofGroups p groups).neighbors x).Nodup :=
  (pairwise_neighbors x).imp Nat.ne_of_lt

/-- Two groups are neighbours if and only if there is an encounter between them. -/
theorem mem_neighbors_iff : y ∈ (ofGroups p groups).neighbors x ↔ x < groups.size ∧ y < groups.size ∧
    ∃ c ∈ encounters p groups, c.first = min x y ∧ c.second = max x y := by
  rw [mem_neighbors_iff_exists_edge, exists_mem_edges_iff, max_lt_iff, and_assoc]

/-- The bit of two groups is set if and only if they are neighbours. -/
theorem holds_iff (hx : x < groups.size) (hy : y < groups.size) (hne : x ≠ y) :
    (ofGroups p groups).matrix.holds x y = true ↔ y ∈ (ofGroups p groups).neighbors x := by
  have built := hasEdges_foldl p groups
  have hindex : PairMatrix.index x y = PairMatrix.index (min x y) (max x y) := by
    rw [PairMatrix.index, PairMatrix.index, max_eq_right min_le_max, min_eq_left min_le_max]
  rw [mem_neighbors_iff_exists_edge, edges_ofGroups, ← built.bit_iff _ _ (min_lt_max.mpr hne) (max_lt hx hy),
    ← hindex, PairMatrix.holds, ofGroups, sortNeighbors,
    PairMatrix.get?_eq_some (built.size_matrix.symm ▸ hx) (built.size_matrix.symm ▸ hy) hne, Option.getD_some]

/-- Being neighbours is mutual. -/
theorem neighbors_comm : y ∈ (ofGroups p groups).neighbors x ↔ x ∈ (ofGroups p groups).neighbors y := by
  rw [mem_neighbors_iff, mem_neighbors_iff, min_comm, max_comm, ← and_assoc, ← and_assoc,
    and_comm (a := x < groups.size)]

/-- No group is its own neighbour. -/
theorem not_mem_neighbors_self : x ∉ (ofGroups p groups).neighbors x := by
  intro h
  obtain ⟨-, -, c, hc, hfirst, hsecond⟩ := mem_neighbors_iff.mp h
  have hlt := first_lt_second_of_mem_encounters hc
  rw [hfirst, hsecond, min_self, max_self] at hlt
  exact absurd hlt (lt_irrefl x)

/-- The look-up finds the edge of the list that joins the two groups. -/
theorem edge?_eq_some_iff {e : Edge} : (ofGroups p groups).edge? x y = some e ↔
    e ∈ (ofGroups p groups).edges ∧ e.first = min x y ∧ e.second = max x y := by
  have built := hasEdges_foldl p groups
  have table (i : Nat) : (ofGroups p groups).edgeTable[i]? = (ofGroups p groups).edges[i]? := by
    rw [edges, Array.getElem?_toList]
  have index (i : Nat) : (ofGroups p groups).edgeIndex[(min x y, max x y)]? = some i ↔
      ∃ e, (ofGroups p groups).edges[i]? = some e ∧ e.first = min x y ∧ e.second = max x y := by
    rw [edges_ofGroups]
    exact built.edgeIndex_iff (min x y) (max x y) i
  simp only [edge?, Option.bind_eq_some_iff, table, index]
  constructor
  · rintro ⟨i, ⟨e', he', hends⟩, he⟩
    obtain rfl : e' = e := Option.some.inj (he'.symm.trans he)
    exact ⟨List.mem_of_getElem? he, hends⟩
  · rintro ⟨he, hends⟩
    obtain ⟨i, hi⟩ := List.mem_iff_getElem?.mp he
    exact ⟨i, ⟨e, hi, hends⟩, hi⟩

/-- The linkages behind an edge are those of the encounters between its groups. -/
theorem mem_linkagesBehind_iff {l : LinkageId} : l ∈ (ofGroups p groups).linkagesBehind x y ↔
    max x y < groups.size ∧ ∃ c ∈ encounters p groups,
      c.first = min x y ∧ c.second = max x y ∧ c.intrusion.linkage = l := by
  have behind : ∀ e : Edge, e.intrusions =
      (encountersBetween (encounters p groups) (min x y) (max x y)).map Encounter.intrusion →
      (l ∈ unionAscending (e.intrusions.map Intrusion.linkage) [] ↔ ∃ c ∈ encounters p groups,
        c.first = min x y ∧ c.second = max x y ∧ c.intrusion.linkage = l) := by
    intro e he
    rw [mem_unionAscending, he]
    simp only [encountersBetween, List.map_map, List.mem_map, List.mem_filter, decide_eq_true_eq, Prod.mk.injEq,
      Function.comp_apply, List.not_mem_nil, or_false, and_assoc]
  rw [linkagesBehind]
  split
  · rename_i e he
    obtain ⟨hmem, hfirst, hsecond⟩ := edge?_eq_some_iff.mp he
    obtain ⟨hmax, -, hintrusions⟩ := mem_edges_iff.mp hmem
    rw [hsecond] at hmax
    rw [hfirst, hsecond] at hintrusions
    rw [behind e hintrusions]
    exact ⟨fun h => ⟨hmax, h⟩, And.right⟩
  · rename_i hnone
    refine ⟨fun h => absurd h List.not_mem_nil, ?_⟩
    rintro ⟨hmax, c, hc, hfirst, hsecond, -⟩
    obtain ⟨e, he⟩ := exists_mem_edges_iff.mpr ⟨hmax, c, hc, hfirst, hsecond⟩
    rw [edge?_eq_some_iff.mpr he] at hnone
    cases hnone

/-- Only active linkages are behind an edge. -/
theorem active_of_mem_linkagesBehind {l : LinkageId} (h : l ∈ (ofGroups p groups).linkagesBehind x y) :
    ∃ linkage, (linkage, l) ∈ p.activeLinkages := by
  obtain ⟨-, c, hc, -, -, rfl⟩ := mem_linkagesBehind_iff.mp h
  obtain ⟨linkage, _, _, _, _, hactive, -⟩ := mem_encounters_iff.mp hc
  exact ⟨linkage, hactive⟩

/-! ## Intrusions -/

/-- A use of the group `other` lies in the span of the active linkage `l` of the group `owner`. -/
def Intrudes (p : Program) (groups : Groups) (l : LinkageId) (owner other : GroupId) : Prop :=
  ∃ k span u position, (k, l) ∈ p.activeLinkages ∧ p.span? k = some span ∧
    groups.ofUse? k.first = some owner ∧ p.position? u = some position ∧
    span.contains position = true ∧ groups.ofUse? u = some other ∧ other ≠ owner

/-- Pairs with one minimum and one maximum are equal or swapped. -/
theorem eq_or_swapped {a b c d : Nat} (hmin : min a b = min c d) (hmax : max a b = max c d) :
    a = c ∧ b = d ∨ a = d ∧ b = c := by
  omega

/-- The encounters between two groups are the intrusions of one on the other. -/
theorem exists_encounter_iff {l : LinkageId} :
    (∃ c ∈ encounters p groups, c.first = min x y ∧ c.second = max x y ∧ c.intrusion.linkage = l) ↔
      Intrudes p groups l x y ∨ Intrudes p groups l y x := by
  constructor
  · rintro ⟨c, hc, hfirst, hsecond, rfl⟩
    obtain ⟨k, span, owner, position, other, hk, hspan, howner, hposition, hcontains, hother, hne,
      hfirst', hsecond'⟩ := mem_encounters_iff.mp hc
    have both := eq_or_swapped (hfirst'.symm.trans hfirst) (hsecond'.symm.trans hsecond)
    have intrudes : Intrudes p groups c.intrusion.linkage owner other :=
      ⟨k, span, c.intrusion.use, position, hk, hspan, howner, hposition, hcontains, hother, hne⟩
    rcases both with ⟨rfl, rfl⟩ | ⟨rfl, rfl⟩
    · exact .inl intrudes
    · exact .inr intrudes
  · rintro (⟨k, span, u, position, hk, hspan, howner, hposition, hcontains, hother, hne⟩ |
      ⟨k, span, u, position, hk, hspan, howner, hposition, hcontains, hother, hne⟩)
    · exact ⟨⟨min x y, max x y, ⟨l, u⟩⟩, mem_encounters_iff.mpr
        ⟨k, span, x, position, y, hk, hspan, howner, hposition, hcontains, hother, hne, rfl, rfl⟩,
        rfl, rfl, rfl⟩
    · exact ⟨⟨min y x, max y x, ⟨l, u⟩⟩, mem_encounters_iff.mpr
        ⟨k, span, y, position, x, hk, hspan, howner, hposition, hcontains, hother, hne, rfl, rfl⟩,
        min_comm y x, max_comm y x, rfl⟩

/-- Two groups are neighbours if and only if one of them intrudes on the other. -/
theorem mem_neighbors_iff_intrudes : y ∈ (ofGroups p groups).neighbors x ↔
    x < groups.size ∧ y < groups.size ∧ ∃ l, Intrudes p groups l x y ∨ Intrudes p groups l y x := by
  simp only [← exists_encounter_iff]
  rw [mem_neighbors_iff]
  refine and_congr_right fun _ => and_congr_right fun _ => ?_
  constructor
  · rintro ⟨c, hc, hfirst, hsecond⟩
    exact ⟨_, c, hc, hfirst, hsecond, rfl⟩
  · rintro ⟨_, c, hc, hfirst, hsecond, -⟩
    exact ⟨c, hc, hfirst, hsecond⟩

/-- The linkages behind an edge are those that one of its groups intrudes on. -/
theorem mem_linkagesBehind_iff_intrudes {l : LinkageId} : l ∈ (ofGroups p groups).linkagesBehind x y ↔
    max x y < groups.size ∧ (Intrudes p groups l x y ∨ Intrudes p groups l y x) := by
  rw [mem_linkagesBehind_iff, exists_encounter_iff]

/-- The linkages behind an edge are ascending. -/
theorem pairwise_linkagesBehind (g : Interference) (x y : GroupId) :
    (g.linkagesBehind x y).Pairwise (· < ·) := by
  rw [linkagesBehind]
  split
  · exact pairwise_unionAscending .nil
  · exact .nil

end Interference

end RegisterColoring
