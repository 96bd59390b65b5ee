import Mathlib.Data.Finset.Max
import Mathlib.Logic.Relation
import RegisterColoring.Machine.ClassForest
import RegisterColoring.Proofs.Lists

/-! # The order of the class forest

The set of a vertex lies inside that of its parent and has fewer registers, so the forest has no cycle:
there is an induction from children to parents, every vertex is below a root, and the list that orders
vertices by height has children before their parent. Going through the vertices by the sizes of their sets, no vertex
is settled before its children, and what is stored of them is not changed any more.

* `ClassForest.Ordered`: what is known of a forest that was made of sets.
* `ClassForest.ordered_ofSets`: every such forest is ordered.
* `ClassForest.Ordered.induction`: induction from children to parents.
* `ClassForest.Below`, `ClassForest.Ordered.exists_root`: every vertex is below a root.
* `ClassForest.vertexOf_ofSets`, `ClassForest.classes_ofSets`: which vertex a class is at.
* `ClassForest.settled_foldl_settle`: in an order with children first, settling settles every vertex for good.
* `ClassForest.height_eq_of_children`, `ClassForest.descendants_eq_of_children`: heights and descendants from
  those of the children. -/

namespace RegisterColoring

namespace ClassForest

/-- What is known of a forest that was made of sets. -/
structure Ordered (f : ClassForest) : Prop where
  /-- Children are the vertices that have the vertex as parent. -/
  mem_children : ∀ v c, c ∈ (f.vertex v).children ↔ c < f.size ∧ (f.vertex c).parent = some v
  /-- A parent is a vertex, with a larger set around that of its child. -/
  parent_larger : ∀ c v, (f.vertex c).parent = some v → v < f.size ∧
    (f.vertex c).set.card < (f.vertex v).set.card ∧ ∀ r ∈ (f.vertex c).set, r ∈ (f.vertex v).set
  /-- Roots are the vertices without a parent. -/
  mem_roots : ∀ v, v ∈ f.roots ↔ v < f.size ∧ (f.vertex v).parent = none
  /-- Every vertex is in the list that has children first, once. -/
  childrenFirst_perm : f.childrenFirst.Perm (List.range f.size)
  /-- In that list no child comes after its parent. -/
  childrenFirst_order : f.childrenFirst.Pairwise fun v w => w ∉ (f.vertex v).children

/-! ## Induction and roots -/

/-- Whether a vertex is another one or below it. -/
def Below (f : ClassForest) (w v : VertexId) : Prop :=
  Relation.ReflTransGen (fun a b => (f.vertex a).parent = some b) w v

namespace Ordered

variable {f : ClassForest}

/-- What holds of a vertex as soon as it holds of its children holds of every vertex. -/
theorem induction (hf : f.Ordered) {P : VertexId → Prop}
    (step : ∀ v, v < f.size → (∀ c ∈ (f.vertex v).children, P c) → P v) {v : VertexId}
    (hv : v < f.size) : P v := by
  -- by the number of registers, which is smaller in a child
  induction hcard : (f.vertex v).set.card using Nat.strongRecOn generalizing v with
  | ind card ih =>
    refine step v hv fun c hc => ?_
    obtain ⟨hlt, hparent⟩ := (hf.mem_children v c).mp hc
    exact ih _ (hcard ▸ (hf.parent_larger c v hparent).2.1) hlt rfl

/-- A vertex is another one or below one of its children, or not below it. -/
theorem below_iff (hf : f.Ordered) {w v : VertexId} (hw : w < f.size) :
    f.Below w v ↔ w = v ∨ ∃ c ∈ (f.vertex v).children, f.Below w c := by
  constructor
  · intro h
    rcases Relation.ReflTransGen.cases_tail h with rfl | ⟨c, hwc, hparent⟩
    · exact .inl rfl
    · refine .inr ⟨c, (hf.mem_children v c).mpr ⟨?_, hparent⟩, hwc⟩
      rcases Relation.ReflTransGen.cases_tail hwc with rfl | ⟨d, -, hd⟩
      · exact hw
      · exact (hf.parent_larger d c hd).1
  · rintro (rfl | ⟨c, hc, hwc⟩)
    · exact .refl
    · exact hwc.tail ((hf.mem_children v c).mp hc).2

/-- The set of a vertex lies inside the sets of those that it is below. -/
theorem mem_set_of_below (hf : f.Ordered) {w v : VertexId} (h : f.Below w v) {r : RegisterId}
    (hr : r ∈ (f.vertex w).set) : r ∈ (f.vertex v).set := by
  induction h with
  | refl => exact hr
  | tail _ hparent ih => exact (hf.parent_larger _ _ hparent).2.2 r ih

end Ordered

/-! ## Settling vertices -/

section

variable {vertices : Array Vertex} {order : List VertexId} {v w : VertexId}

/-- Settling a vertex changes no other one. -/
theorem getD_settle (vertices : Array Vertex) (v w : VertexId) : (settle vertices v).getD w default =
    if v = w ∧ w < vertices.size then settled vertices (vertices.getD w default)
    else vertices.getD w default := by
  by_cases hw : w < vertices.size
  · rw [settle, getD_modify hw]
    simp only [hw, and_true]
  · have past : ¬ (v = w ∧ w < vertices.size) := fun h => hw h.2
    rw [if_neg past, settle, Array.getD_eq_getD_getElem?, Array.getD_eq_getD_getElem?,
      Array.getElem?_eq_none (Nat.le_of_not_lt hw), Array.getElem?_eq_none]
    rwa [Array.size_modify, Nat.not_lt] at *

/-- Settling changes heights and descendants only. -/
theorem proj_foldl_settle {β : Type} {f : Vertex → β} (hf : ∀ vertices x, f (settled vertices x) = f x)
    (order : List VertexId) (vertices : Array Vertex) (w : VertexId) :
    f ((order.foldl settle vertices).getD w default) = f (vertices.getD w default) := by
  induction order generalizing vertices with
  | nil => rfl
  | cons v order ih =>
    rw [List.foldl_cons, ih, getD_settle]
    split
    · exact hf vertices _
    · rfl

@[simp] theorem size_foldl_settle (order : List VertexId) (vertices : Array Vertex) :
    (order.foldl settle vertices).size = vertices.size := by
  induction order generalizing vertices with
  | nil => rfl
  | cons v order ih => rw [List.foldl_cons, ih, settle, Array.size_modify]

/-- What is stored at a vertex matters for its parent only. -/
theorem settled_congr {x : Vertex} {vertices' : Array Vertex}
    (h : ∀ c ∈ x.children, vertices'.getD c default = vertices.getD c default) :
    settled vertices' x = settled vertices x := by
  have heights : (x.children.map fun c => (vertices'.getD c default).height) =
      x.children.map fun c => (vertices.getD c default).height :=
    List.map_congr_left fun c hc => by rw [h c hc]
  have below : (x.children.flatMap fun c => (vertices'.getD c default).descendants) =
      x.children.flatMap fun c => (vertices.getD c default).descendants :=
    List.flatMap_congr fun c hc => by rw [h c hc]
  rw [settled, settled, heights, below]

/-- Where no vertex comes before one of its children, all that are gone through end up with what follows from what
is stored of their children in the end. -/
theorem settled_foldl_settle (hlt : ∀ v ∈ order, v < vertices.size)
    (horder : order.Pairwise fun v w => v ≠ w ∧ w ∉ (vertices.getD v default).children)
    (hself : ∀ v ∈ order, v ∉ (vertices.getD v default).children) (hv : v ∈ order) :
    (order.foldl settle vertices).getD v default =
      settled (order.foldl settle vertices) ((order.foldl settle vertices).getD v default) := by
  -- on the vertex settled last, which none of those before it has as a child
  induction order using List.reverseRecOn with
  | nil => cases hv
  | append_singleton order w ih =>
    obtain ⟨hbefore, -, hlast⟩ := List.pairwise_append.mp horder
    have hchildren (x : VertexId) : ((order.foldl settle vertices).getD x default).children =
        (vertices.getD x default).children := proj_foldl_settle (fun _ _ => rfl) order vertices x
    have hw : w < (order.foldl settle vertices).size := by
      rw [size_foldl_settle]
      exact hlt w (by simp)
    have kept {x : VertexId} (hx : w ≠ x) : (settle (order.foldl settle vertices) w).getD x default =
        (order.foldl settle vertices).getD x default := by
      rw [getD_settle, if_neg fun h => hx h.1]
    rw [List.foldl_append, List.foldl_cons, List.foldl_nil]
    rcases List.mem_append.mp hv with hv | hv
    · obtain ⟨hne, hnot⟩ := hlast v hv w (List.mem_singleton_self w)
      have here := ih (fun x hx => hlt x (List.mem_append_left _ hx)) hbefore
        (fun x hx => hself x (List.mem_append_left _ hx)) hv
      rw [kept hne.symm, settled_congr fun c hc => kept fun hwc => hnot ?_]
      · exact here
      · rwa [hwc, ← hchildren]
    · obtain rfl : v = w := List.mem_singleton.mp hv
      have hnot := hself v (by simp)
      rw [getD_settle, if_pos ⟨rfl, hw⟩, settled_congr fun c hc => kept fun hvc => hnot ?_]
      · rfl
      · rw [← hvc] at hc
        exact hchildren v ▸ hc

end

/-! ## The forest of some sets -/

section

variable {aliasSets : List RegisterSet} {v c w : VertexId}

/-- What settling does not change is at a vertex of the forest as it is at the leaf. -/
theorem proj_ofSets {β : Type} {f : Vertex → β} (hf : ∀ vertices x, f (settled vertices x) = f x) :
    f ((ofSets aliasSets).vertex v) = f ((leaves aliasSets)[v]?.getD default) := by
  rw [vertex, ofSets, proj_foldl_settle hf, Array.getD_eq_getD_getElem?, List.getElem?_toArray]

/-- The leaf at a position. -/
theorem getElem?_leaves (v : VertexId) : (leaves aliasSets)[v]? = aliasSets.eraseDups[v]?.map fun set =>
    { set
      classes := (List.range aliasSets.length).filter fun c => aliasSets[c]? == some set
      parent := parentOf aliasSets.eraseDups set
      children := childrenOf (aliasSets.eraseDups.map (parentOf aliasSets.eraseDups)) v
      descendants := []
      height := 1 } := by
  rw [leaves, List.getElem?_map, List.getElem?_zipIdx]
  cases hset : aliasSets.eraseDups[v]? with
  | none => rfl
  | some set =>
    simp only [Option.map_some, List.getD_eq_getElem?_getD, List.getElem?_map, Nat.zero_add, hset,
      Option.getD_some]

@[simp] theorem length_leaves : (leaves aliasSets).length = aliasSets.eraseDups.length := by
  rw [leaves, List.length_map, List.length_zipIdx]

@[simp] theorem size_ofSets : (ofSets aliasSets).size = aliasSets.eraseDups.length := by
  simp [ofSets, size]

/-- The vertex at a position has the set there. -/
theorem set_ofSets (hv : v < aliasSets.eraseDups.length) :
    ((ofSets aliasSets).vertex v).set = aliasSets.eraseDups[v] := by
  rw [proj_ofSets (f := Vertex.set) fun _ _ => rfl, getElem?_leaves, List.getElem?_eq_getElem hv]
  rfl

/-- The parent of a vertex is that of its set. -/
theorem parent_ofSets : ((ofSets aliasSets).vertex v).parent =
    aliasSets.eraseDups[v]?.bind (parentOf aliasSets.eraseDups) := by
  rw [proj_ofSets (f := Vertex.parent) fun _ _ => rfl, getElem?_leaves]
  cases aliasSets.eraseDups[v]? <;> rfl

/-- A parent has a larger set around that of its child. -/
theorem parentOf_eq_some {sets : List RegisterSet} {set : RegisterSet} (h : parentOf sets set = some w) :
    ∃ other, sets[w]? = some other ∧ set.card < other.card ∧ ∀ r ∈ set, r ∈ other := by
  obtain ⟨⟨other, w⟩, hleast, rfl⟩ := Option.map_eq_some_iff.mp h
  obtain ⟨hmem, hlarger⟩ := List.mem_filter.mp (leastBy?_mem hleast)
  rw [Bool.and_eq_true, decide_eq_true_eq, RegisterSet.isSubset_iff] at hlarger
  exact ⟨other, List.mem_zipIdx_iff_getElem?.mp hmem, hlarger⟩

/-- The children of a vertex, in the order of the vertices. -/
theorem children_ofSets : ((ofSets aliasSets).vertex v).children =
    (List.range aliasSets.eraseDups.length).filter fun c =>
      ((ofSets aliasSets).vertex c).parent == some v := by
  have parents : ∀ c, (aliasSets.eraseDups.map (parentOf aliasSets.eraseDups)).getD c none =
      ((ofSets aliasSets).vertex c).parent := by
    intro c
    rw [parent_ofSets, List.getD_eq_getElem?_getD, List.getElem?_map]
    cases aliasSets.eraseDups[c]? <;> rfl
  have children : ((ofSets aliasSets).vertex v).children =
      ((leaves aliasSets)[v]?.getD default).children := proj_ofSets fun _ _ => rfl
  rw [children, getElem?_leaves]
  by_cases hv : v < aliasSets.eraseDups.length
  · rw [List.getElem?_eq_getElem hv, Option.map_some, Option.getD_some, childrenOf, List.length_map]
    refine List.filter_congr fun c _ => ?_
    rw [parents]
  · -- past the end there is no vertex, and no parent lies there
    rw [List.getElem?_eq_none (Nat.le_of_not_lt hv), Option.map_none, Option.getD_none, eq_comm]
    refine List.filter_eq_nil_iff.mpr fun c _ hparent => ?_
    rw [beq_iff_eq, parent_ofSets] at hparent
    obtain ⟨set, -, hparent⟩ := Option.bind_eq_some_iff.mp hparent
    obtain ⟨other, hother, -⟩ := parentOf_eq_some hparent
    exact hv (List.getElem?_eq_some_iff.mp hother).1

/-- The classes of a vertex are those that have its set. -/
theorem classes_ofSets (hv : v < aliasSets.eraseDups.length) : ((ofSets aliasSets).vertex v).classes =
    (List.range aliasSets.length).filter fun c => aliasSets[c]? == some aliasSets.eraseDups[v] := by
  rw [proj_ofSets (f := Vertex.classes) fun _ _ => rfl, getElem?_leaves, List.getElem?_eq_getElem hv]
  rfl

/-- The vertex of a class is the place of its set among the distinct ones. -/
theorem vertexOf_ofSets {set : RegisterSet} (hc : aliasSets[c]? = some set) :
    (ofSets aliasSets).vertexOf c = aliasSets.eraseDups.idxOf set := by
  rw [vertexOf, ofSets, Array.getD_eq_getD_getElem?, List.getElem?_toArray, List.getElem?_map, hc]
  rfl

/-- The vertex of a class has the set of the class. -/
theorem set_vertexOf_ofSets {set : RegisterSet} (hc : aliasSets[c]? = some set) :
    (ofSets aliasSets).vertexOf c < (ofSets aliasSets).size ∧
      ((ofSets aliasSets).vertex ((ofSets aliasSets).vertexOf c)).set = set := by
  have hlt : aliasSets.eraseDups.idxOf set < aliasSets.eraseDups.length :=
    List.idxOf_lt_length_iff.mpr (List.mem_eraseDups.mpr (List.mem_of_getElem? hc))
  rw [vertexOf_ofSets hc, size_ofSets, set_ofSets hlt]
  exact ⟨hlt, List.getElem_idxOf hlt⟩

/-- A parent is a vertex, with a larger set around that of its child. -/
theorem parent_larger_ofSets (h : ((ofSets aliasSets).vertex c).parent = some v) :
    v < (ofSets aliasSets).size ∧
      ((ofSets aliasSets).vertex c).set.card < ((ofSets aliasSets).vertex v).set.card ∧
      ∀ r ∈ ((ofSets aliasSets).vertex c).set, r ∈ ((ofSets aliasSets).vertex v).set := by
  rw [parent_ofSets] at h
  obtain ⟨set, hset, hparent⟩ := Option.bind_eq_some_iff.mp h
  obtain ⟨other, hother, hlarger⟩ := parentOf_eq_some hparent
  obtain ⟨hc, rfl⟩ := List.getElem?_eq_some_iff.mp hset
  obtain ⟨hv, rfl⟩ := List.getElem?_eq_some_iff.mp hother
  rw [size_ofSets, set_ofSets hc, set_ofSets hv]
  exact ⟨hv, hlarger⟩

/-- The children of a vertex are the vertices that have it as parent. -/
theorem mem_children_ofSets : c ∈ ((ofSets aliasSets).vertex v).children ↔
    c < (ofSets aliasSets).size ∧ ((ofSets aliasSets).vertex c).parent = some v := by
  rw [children_ofSets, List.mem_filter, List.mem_range, beq_iff_eq, size_ofSets]

/-- The order of the sizes has every vertex once. -/
theorem bySize_perm (sets : List RegisterSet) : (bySize sets).Perm (List.range sets.length) := by
  have sorted := (sortBy_perm smaller sets.zipIdx).map Prod.snd
  rwa [List.zipIdx_map_snd, ← List.range_eq_range'] at sorted

/-- In the order of the sizes no set is smaller than one before it. -/
theorem pairwise_card_bySize : (bySize aliasSets.eraseDups).Pairwise fun v w =>
    ((ofSets aliasSets).vertex v).set.card ≤ ((ofSets aliasSets).vertex w).set.card := by
  have sorted := pairwise_key_sortBy (f := fun a : RegisterSet × VertexId => a.1.card)
    (fun _ _ => decide_eq_true_iff) aliasSets.eraseDups.zipIdx
  rw [bySize, List.pairwise_map]
  refine sorted.imp_of_mem fun {a b} ha hb h => ?_
  have numbered : ∀ a ∈ aliasSets.eraseDups.zipIdx, ((ofSets aliasSets).vertex a.2).set = a.1 := by
    intro a ha
    obtain ⟨hlt, hset⟩ := List.getElem?_eq_some_iff.mp (List.mem_zipIdx_iff_getElem?.mp ha)
    rw [set_ofSets hlt, hset]
  rwa [numbered a (mem_sortBy.mp ha), numbered b (mem_sortBy.mp hb)]

/-- A vertex is larger than its children, so in the order of the sizes none of them comes after it. -/
theorem vertex_eq_settled (hv : v < (ofSets aliasSets).size) :
    (ofSets aliasSets).vertex v = settled (ofSets aliasSets).vertices ((ofSets aliasSets).vertex v) := by
  have leaf (x : VertexId) : ((leaves aliasSets).toArray.getD x default).children =
      ((ofSets aliasSets).vertex x).children :=
    (proj_foldl_settle (fun _ _ => rfl) (bySize aliasSets.eraseDups) _ x).symm
  have smaller {x y : VertexId} (h : y ∈ ((ofSets aliasSets).vertex x).children) :
      ((ofSets aliasSets).vertex y).set.card < ((ofSets aliasSets).vertex x).set.card :=
    (parent_larger_ofSets (mem_children_ofSets.mp h).2).2.1
  have nodup : (bySize aliasSets.eraseDups).Nodup := (bySize_perm _).nodup_iff.mpr List.nodup_range
  rw [size_ofSets] at hv
  refine settled_foldl_settle (fun x hx => ?_) ?_ (fun x _ hchild => ?_) ?_
  · rw [List.size_toArray, length_leaves]
    exact List.mem_range.mp ((bySize_perm _).mem_iff.mp hx)
  · refine nodup.imp₂ (fun x y hne hle => ⟨hne, fun hchild => ?_⟩) pairwise_card_bySize
    rw [leaf] at hchild
    exact absurd (smaller hchild) (Nat.not_lt.mpr hle)
  · rw [leaf] at hchild
    exact absurd (smaller hchild) (Nat.lt_irrefl _)
  · exact (bySize_perm _).mem_iff.mpr (List.mem_range.mpr hv)

/-- A vertex is one higher than the highest of its children. -/
theorem height_eq_of_children (hv : v < (ofSets aliasSets).size) :
    ((ofSets aliasSets).vertex v).height = (((ofSets aliasSets).vertex v).children.map fun c =>
      ((ofSets aliasSets).vertex c).height).foldl max 0 + 1 :=
  congrArg Vertex.height (vertex_eq_settled hv)

/-- The descendants of a vertex are its children and theirs. -/
theorem descendants_eq_of_children (hv : v < (ofSets aliasSets).size) :
    ((ofSets aliasSets).vertex v).descendants = ((ofSets aliasSets).vertex v).children ++
      ((ofSets aliasSets).vertex v).children.flatMap fun c =>
        ((ofSets aliasSets).vertex c).descendants :=
  congrArg Vertex.descendants (vertex_eq_settled hv)

/-- Where a vertex is one higher than the highest of its children, each child is lower than it. -/
theorem height_lt_of_height_eq {f : ClassForest}
    (h : (f.vertex v).height = ((f.vertex v).children.map fun c => (f.vertex c).height).foldl max 0 + 1)
    (hc : c ∈ (f.vertex v).children) : (f.vertex c).height < (f.vertex v).height := by
  have hmem := List.mem_map_of_mem (f := fun c => (f.vertex c).height) hc
  rw [h]
  exact Nat.lt_succ_of_le (le_foldl_of_mem Nat.le_max_left hmem (fun a => Nat.le_max_right a _) 0)

/-- A child is lower than its parent. -/
theorem height_lt_of_mem_children (hc : c ∈ ((ofSets aliasSets).vertex v).children) :
    ((ofSets aliasSets).vertex c).height < ((ofSets aliasSets).vertex v).height := by
  have hv := (parent_larger_ofSets (mem_children_ofSets.mp hc).2).1
  exact height_lt_of_height_eq (height_eq_of_children hv) hc

/-- The list with children first is made of all vertices, sorted by height. -/
theorem childrenFirst_ofSets : (ofSets aliasSets).childrenFirst =
    (sortBy (fun (a b : Vertex × VertexId) => a.1.height < b.1.height)
      (ofSets aliasSets).vertices.toList.zipIdx).map Prod.snd :=
  rfl

/-- In the list with children first no vertex is lower than one before it. -/
theorem pairwise_height_ofSets : (ofSets aliasSets).childrenFirst.Pairwise fun v w =>
    ((ofSets aliasSets).vertex v).height ≤ ((ofSets aliasSets).vertex w).height := by
  have sorted := pairwise_key_sortBy (f := fun a : Vertex × VertexId => a.1.height)
    (fun _ _ => decide_eq_true_iff) (ofSets aliasSets).vertices.toList.zipIdx
  rw [childrenFirst_ofSets, List.pairwise_map]
  refine sorted.imp_of_mem fun {a b} ha hb h => ?_
  have numbered : ∀ a ∈ (ofSets aliasSets).vertices.toList.zipIdx,
      (ofSets aliasSets).vertex a.2 = a.1 := by
    intro a ha
    have := List.mem_zipIdx_iff_getElem?.mp ha
    rw [Array.getElem?_toList] at this
    rw [vertex, Array.getD_eq_getD_getElem?, this]
    rfl
  rwa [numbered a (mem_sortBy.mp ha), numbered b (mem_sortBy.mp hb)]

/-- The forest of some sets is ordered. -/
theorem ordered_ofSets : (ofSets aliasSets).Ordered where
  mem_children v c := mem_children_ofSets
  parent_larger c v := parent_larger_ofSets
  mem_roots v := by
    rw [ofSets, List.mem_filter, List.mem_range, Option.isNone_iff_eq_none]
    rfl
  childrenFirst_perm := by
    have := (sortBy_perm (fun (a b : Vertex × VertexId) => a.1.height < b.1.height)
      (ofSets aliasSets).vertices.toList.zipIdx).map Prod.snd
    rwa [List.zipIdx_map_snd, ← List.range_eq_range', Array.length_toList] at this
  childrenFirst_order := by
    refine pairwise_height_ofSets.imp fun {v w} h hchild => ?_
    exact absurd (height_lt_of_mem_children hchild) (Nat.not_lt.mpr h)

end

end ClassForest

end RegisterColoring
