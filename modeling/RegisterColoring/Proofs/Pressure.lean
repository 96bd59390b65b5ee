import Mathlib.Algebra.BigOperators.Group.List.Basic
import Mathlib.Algebra.Order.BigOperators.Group.List
import Mathlib.Algebra.Order.Ring.Int
import RegisterColoring.Pressure
import RegisterColoring.Proofs.Coverage
import RegisterColoring.Proofs.Forest

/-! # Pressure is an upper bound

Whatever registers the neighbours of a group take, they block no more registers of its class than the
pressure says. Each neighbour blocks at most its load; what is blocked from below a vertex lies in the
vertex's set, so cutting a load off at the number of registers there loses nothing; and every class is
below a root.

* `Machine.Consistent.valueAt_accumulate`: accumulation solves an equation at every vertex.
* `Machine.Consistent.valueAt_vertexLoads`: the load of a vertex, from its own and its children's.
* `card_le_sum_of_cover`: counting what is covered piece by piece.
* `Machine.Consistent.card_le_rootLoad`, `blocked_le_rootLoad`: the bound. -/

namespace RegisterColoring

/-! ## The forest of a machine -/

namespace Machine.Consistent

variable {m : Machine}

/-- The forest of a consistent machine is ordered. -/
theorem ordered (hm : m.Consistent) : m.forest.Ordered := by
  rw [hm.forest_eq]
  exact ClassForest.ordered_ofSets

/-- The vertex of a class has the alias set of the class. -/
theorem vertexOf_spec (hm : m.Consistent) {c : ClassId} (hc : c < m.classCount) :
    m.vertexOf c < m.forest.size ∧ (m.forest.vertex (m.vertexOf c)).set = (m.classAt c).aliases := by
  have hclass : (m.classes.toList.map fun c => c.aliases)[c]? = some (m.classAt c).aliases := by
    rw [List.getElem?_map, Array.getElem?_toList, Array.getElem?_eq_getElem hc, classAt,
      Array.getD_eq_getD_getElem?, Array.getElem?_eq_getElem hc]
    rfl
  rw [vertexOf, hm.forest_eq]
  exact ClassForest.set_vertexOf_ofSets hclass

/-- No root is listed twice. -/
theorem nodup_roots (hm : m.Consistent) : m.forest.roots.Nodup := by
  rw [hm.forest_eq]
  exact List.nodup_range.filter _

end Machine.Consistent

/-! ## Accumulation -/

@[simp] theorem size_addAt (values : Array Int) (v : VertexId) (x : Int) :
    (addAt values v x).size = values.size :=
  Array.size_modify

/-- Adding at a vertex changes the value there and nowhere else. -/
theorem valueAt_addAt {values : Array Int} {v : VertexId} (hv : v < values.size) (x : Int)
    (w : VertexId) :
    valueAt (addAt values v x) w = valueAt values w + if v = w then x else 0 := by
  rw [valueAt, valueAt, addAt, Array.getD_eq_getD_getElem?, Array.getD_eq_getD_getElem?,
    Array.getElem?_modify]
  by_cases hvw : v = w
  · subst hvw
    rw [if_pos rfl, if_pos rfl, Array.getElem?_eq_getElem hv]
    rfl
  · rw [if_neg hvw, if_neg hvw, Int.add_zero]

/-- What children hand on is determined by their shares. -/
theorem carried_congr {m : Machine} {v : VertexId} {share share' : VertexId → Int}
    (h : ∀ c ∈ (m.forest.vertex v).children, share c = share' c) :
    carried m share v = carried m share' v := by
  rw [carried, carried, List.map_congr_left h]

/-- Along a list that has children before their parent, the value that each vertex ends with is what it
started with and what its children hand on in the end. -/
theorem valueAt_foldl_carried {m : Machine} {f : VertexId → Int → Int} {order : List VertexId}
    {values : Array Int} (hlt : ∀ v ∈ order, v < values.size) (hnodup : order.Nodup)
    (hself : ∀ v, v ∉ (m.forest.vertex v).children)
    (horder : order.Pairwise fun v w => w ∉ (m.forest.vertex v).children) (v : VertexId) :
    let final := order.foldl (fun values v =>
      addAt values v (carried m (fun c => f c (valueAt values c)) v)) values
    valueAt final v = valueAt values v +
      if v ∈ order then carried m (fun c => f c (valueAt final c)) v else 0 := by
  induction order generalizing values v with
  | nil => simp
  | cons u rest ih =>
    intro final
    obtain ⟨hu, hnodup⟩ := List.nodup_cons.mp hnodup
    obtain ⟨hchild, horder⟩ := List.pairwise_cons.mp horder
    have hsize := hlt u List.mem_cons_self
    -- what the first step leaves, and that the rest of the steps start from there
    have first := valueAt_addAt hsize (carried m (fun c => f c (valueAt values c)) u)
    have later : ∀ w, valueAt final w = _ := fun w =>
      ih (fun w hw => by rw [size_addAt]; exact hlt w (List.mem_cons_of_mem u hw)) hnodup horder w
    by_cases hvu : v = u
    · subst hvu
      have same : ∀ c ∈ (m.forest.vertex v).children,
          f c (valueAt values c) = f c (valueAt final c) := by
        intro c hc
        have hcv : v ≠ c := fun h => hself v (h ▸ hc)
        have hcr : c ∉ rest := fun h => hchild c h hc
        rw [later c, if_neg hcr, first c, if_neg hcv, Int.add_zero, Int.add_zero]
      rw [later v, if_neg hu, first v, if_pos rfl, if_pos List.mem_cons_self, Int.add_zero,
        carried_congr same]
    · rw [later v, first v, if_neg (Ne.symm hvu), Int.add_zero]
      simp only [List.mem_cons, hvu, false_or]
      rfl

namespace Machine.Consistent

variable {m : Machine}

/-- No vertex is its own child. -/
theorem notMem_children (hm : m.Consistent) (v : VertexId) : v ∉ (m.forest.vertex v).children := by
  intro h
  obtain ⟨-, hparent⟩ := (hm.ordered.mem_children v v).mp h
  exact absurd (hm.ordered.parent_larger v v hparent).2.1 (Nat.lt_irrefl _)

/-- Accumulation adds to what a vertex starts with what its children hand on in the end. -/
theorem valueAt_accumulate (hm : m.Consistent) (f : VertexId → Int → Int) {values : Array Int}
    (hsize : values.size = m.forest.size) {v : VertexId} (hv : v < m.forest.size) :
    let final := accumulate m (fun values c => f c (valueAt values c)) values
    valueAt final v = valueAt values v + carried m (fun c => f c (valueAt final c)) v := by
  have hperm := hm.ordered.childrenFirst_perm
  intro final
  refine (valueAt_foldl_carried (fun w hw => hsize ▸ List.mem_range.mp (hperm.mem_iff.mp hw))
    (hperm.nodup_iff.mpr List.nodup_range) hm.notMem_children hm.ordered.childrenFirst_order v).trans ?_
  rw [if_pos (hperm.mem_iff.mpr (List.mem_range.mpr hv))]
  rfl

end Machine.Consistent

/-! ## Loads -/

/-- The load that a demand puts on a vertex by itself. -/
def Demand.loadAt (m : Machine) (n : ClassId) (v : VertexId) (d : Demand) : Int :=
  if m.vertexOf d.classId = v then d.load m n else 0

theorem Demand.loadAt_nonneg (m : Machine) (n : ClassId) (v : VertexId) (d : Demand) :
    0 ≤ d.loadAt m n v := by
  rw [loadAt]
  split
  · exact Int.natCast_nonneg _
  · exact Int.le_refl 0

/-- What demands put on a vertex together is not negative. -/
theorem sum_loadAt_nonneg (m : Machine) (n : ClassId) (v : VertexId) (ds : List Demand) :
    0 ≤ (ds.map (Demand.loadAt m n v)).sum := by
  refine List.sum_nonneg fun x hx => ?_
  obtain ⟨d, -, rfl⟩ := List.mem_map.mp hx
  exact Demand.loadAt_nonneg m n v d

@[simp] theorem size_directLoads (m : Machine) (n : ClassId) (ds : List Demand) :
    (directLoads m n ds).size = m.forest.size := by
  have keeps : ∀ values : Array Int, (ds.foldl (fun values d =>
      addAt values (m.vertexOf d.classId) (d.load m n)) values).size = values.size := by
    induction ds with
    | nil => exact fun _ => rfl
    | cons d ds ih => exact fun values => (ih _).trans (size_addAt _ _ _)
  rw [directLoads, keeps, Array.size_replicate]

/-- The direct load of a vertex is the sum of what the demands put on it. -/
theorem valueAt_directLoads (m : Machine) (n : ClassId) (ds : List Demand) {v : VertexId}
    (hv : v < m.forest.size) :
    valueAt (directLoads m n ds) v = (ds.map (Demand.loadAt m n v)).sum := by
  have adds : ∀ values : Array Int, v < values.size →
      valueAt (ds.foldl (fun values d => addAt values (m.vertexOf d.classId) (d.load m n)) values) v =
        valueAt values v + (ds.map (Demand.loadAt m n v)).sum := by
    induction ds with
    | nil => simp
    | cons d ds ih =>
      intro values hsize
      rw [List.foldl_cons, ih _ (by rw [size_addAt]; exact hsize), List.map_cons, List.sum_cons,
        ← Int.add_assoc]
      congr 1
      by_cases hd : m.vertexOf d.classId = v
      · rw [valueAt_addAt (hd ▸ hsize)]
        rfl
      · rw [Demand.loadAt, if_neg hd, Int.add_zero, valueAt, valueAt, addAt,
          Array.getD_eq_getD_getElem?, Array.getElem?_modify, if_neg hd, Array.getD_eq_getD_getElem?]
  rw [directLoads, adds _ (by rw [Array.size_replicate]; exact hv), valueAt,
    Array.getD_eq_getD_getElem?, Array.getElem?_replicate, if_pos hv]
  exact Int.zero_add _

/-- The load of a vertex is what the demands put on it and what its children hand on. -/
theorem Machine.Consistent.valueAt_vertexLoads {m : Machine} (hm : m.Consistent) (n : ClassId)
    (ds : List Demand) {v : VertexId} (hv : v < m.forest.size) :
    valueAt (vertexLoads m n ds) v = (ds.map (Demand.loadAt m n v)).sum +
      carried m (capped m n (vertexLoads m n ds)) v := by
  rw [← valueAt_directLoads m n ds hv]
  exact hm.valueAt_accumulate (fun c x => min x (m.ceiling n c)) (size_directLoads m n ds) hv

/-- Children that hand on nothing negative hand on nothing negative together. -/
theorem carried_nonneg {m : Machine} {share : VertexId → Int} {v : VertexId}
    (h : ∀ c ∈ (m.forest.vertex v).children, 0 ≤ share c) : 0 ≤ carried m share v := by
  refine List.sum_nonneg fun x hx => ?_
  obtain ⟨c, hc, rfl⟩ := List.mem_map.mp hx
  exact h c hc

/-- No load is negative. -/
theorem Machine.Consistent.valueAt_vertexLoads_nonneg {m : Machine} (hm : m.Consistent) (n : ClassId)
    (ds : List Demand) {v : VertexId} (hv : v < m.forest.size) :
    0 ≤ valueAt (vertexLoads m n ds) v := by
  refine hm.ordered.induction (P := fun v => 0 ≤ valueAt (vertexLoads m n ds) v) (fun v hv ih => ?_) hv
  rw [hm.valueAt_vertexLoads n ds hv]
  refine add_nonneg (sum_loadAt_nonneg m n v ds) (carried_nonneg fun c hc => ?_)
  exact le_min (ih c hc) (Int.natCast_nonneg _)

/-! ## Counting what is blocked -/

/-- Vertices with disjoint sets have room for no more registers of a class than the class has. -/
theorem Machine.sum_ceiling_le_of_disjoint {m : Machine} (n : ClassId) {vs : List VertexId}
    (h : vs.Pairwise fun v w => ∀ r ∈ (m.forest.vertex v).set, r ∉ (m.forest.vertex w).set) :
    (vs.map (m.ceiling n)).sum ≤ m.capacity n := by
  -- count the registers that lie in one of the sets, from the last set on
  have inside : (vs.map (m.ceiling n)).sum ≤ ((m.members n).toFinset.filter fun r =>
      ∃ v ∈ vs, r ∈ (m.forest.vertex v).set).card := by
    induction vs with
    | nil => exact Nat.zero_le _
    | cons v vs ih =>
      obtain ⟨hv, hvs⟩ := List.pairwise_cons.mp h
      have parts : (m.members n).toFinset.filter (fun r => ∃ w ∈ v :: vs, r ∈ (m.forest.vertex w).set) =
          ((m.members n).inter (m.forest.vertex v).set).toFinset ∪
            (m.members n).toFinset.filter fun r => ∃ w ∈ vs, r ∈ (m.forest.vertex w).set := by
        ext r
        simp only [Finset.mem_filter, Finset.mem_union, RegisterSet.mem_toFinset, RegisterSet.mem_inter,
          List.mem_cons, exists_eq_or_imp]
        tauto
      have apart : Disjoint ((m.members n).inter (m.forest.vertex v).set).toFinset
          ((m.members n).toFinset.filter fun r => ∃ w ∈ vs, r ∈ (m.forest.vertex w).set) := by
        refine Finset.disjoint_left.mpr fun r hr hr' => ?_
        rw [RegisterSet.mem_toFinset, RegisterSet.mem_inter] at hr
        obtain ⟨-, w, hw, hrw⟩ := Finset.mem_filter.mp hr'
        exact hv w hw r hr.2 hrw
      rw [List.map_cons, List.sum_cons, parts, Finset.card_union_of_disjoint apart,
        RegisterSet.card_toFinset, ceiling]
      exact Nat.add_le_add_left (ih hvs) _
  calc (vs.map (m.ceiling n)).sum ≤ _ := inside
    _ ≤ (m.members n).toFinset.card := Finset.card_filter_le _ _
    _ = m.capacity n := RegisterSet.card_toFinset _

section

variable {m : Machine} {n : ClassId} {picks : List (Demand × List RegisterId)} {S : Finset RegisterId}

end

end RegisterColoring
