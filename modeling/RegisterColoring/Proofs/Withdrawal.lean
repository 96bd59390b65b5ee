import RegisterColoring.Proofs.Pressure

/-! # Withdrawal is exact

Following a change upwards gives the same loads as computing them from scratch without the neighbours
that go away, although every vertex hands on a value that is cut off.

* `directLoads_perm`, `vertexLoads_perm`: the order of neighbours does not matter.
* `Pressure.cappedChange_eq`: the change of a value that is cut off.
* `Machine.Consistent.withdrawn_eq`: the loads after a withdrawal are those of the neighbours left.
* `Machine.Consistent.rootLoad_le`: fewer neighbours press no harder. -/

namespace RegisterColoring

/-! ## Loads as arrays -/

/-- Two arrays with the same values are the same. -/
theorem eq_of_valueAt {a b : Array Int} (hsize : a.size = b.size)
    (h : ∀ v, v < a.size → valueAt a v = valueAt b v) : a = b := by
  refine Array.ext hsize fun v ha hb => ?_
  have := h v ha
  rwa [valueAt, valueAt, Array.getD_eq_getD_getElem?, Array.getD_eq_getD_getElem?,
    Array.getElem?_eq_getElem ha, Array.getElem?_eq_getElem hb] at this

/-- Values that are added place by place. -/
theorem valueAt_zipWith_add {a b : Array Int} {v : VertexId} (ha : v < a.size) (hb : v < b.size) :
    valueAt (Array.zipWith (· + ·) a b) v = valueAt a v + valueAt b v := by
  rw [valueAt, valueAt, valueAt, Array.getD_eq_getD_getElem?, Array.getD_eq_getD_getElem?,
    Array.getD_eq_getD_getElem?, Array.getElem?_zipWith, Array.getElem?_eq_getElem ha,
    Array.getElem?_eq_getElem hb]
  rfl

@[simp] theorem size_accumulate (m : Machine) (share : Array Int → VertexId → Int)
    (values : Array Int) : (accumulate m share values).size = values.size := by
  rw [accumulate]
  induction m.forest.childrenFirst generalizing values with
  | nil => rfl
  | cons v order ih => exact (ih _).trans (size_addAt _ _ _)

@[simp] theorem size_vertexLoads (m : Machine) (n : ClassId) (ds : List Demand) :
    (vertexLoads m n ds).size = m.forest.size := by
  rw [vertexLoads, size_accumulate, size_directLoads]

@[simp] theorem Pressure.size_loadChange (m : Machine) (n : ClassId) (loads : Array Int)
    (ds : List Demand) : (loadChange m n loads ds).size = m.forest.size := by
  rw [loadChange, size_accumulate, Array.size_map, size_directLoads]

/-- The direct loads do not depend on the order of the neighbours. -/
theorem directLoads_perm {m : Machine} {n : ClassId} {ds ds' : List Demand} (h : ds.Perm ds') :
    directLoads m n ds = directLoads m n ds' := by
  refine eq_of_valueAt (by rw [size_directLoads, size_directLoads]) fun v hv => ?_
  rw [size_directLoads] at hv
  rw [valueAt_directLoads m n ds hv, valueAt_directLoads m n ds' hv]
  exact (h.map _).sum_eq

/-- The loads do not depend on the order of the neighbours. -/
theorem vertexLoads_perm {m : Machine} {n : ClassId} {ds ds' : List Demand} (h : ds.Perm ds') :
    vertexLoads m n ds = vertexLoads m n ds' := by
  rw [vertexLoads, vertexLoads, directLoads_perm h]

/-! ## Changes -/

/-- A value that is cut off does not grow when the value falls. -/
theorem Pressure.cappedChange_nonpos (delta bound value : Int) : cappedChange delta bound value ≤ 0 :=
  min_le_left _ _

/-- The change of a value that is cut off, when the value falls. -/
theorem Pressure.cappedChange_eq {delta : Int} (h : delta ≤ 0) (bound value : Int) :
    min value bound + cappedChange delta bound value = min (value + delta) bound := by
  rw [cappedChange]
  rcases le_total value bound with hle | hle
  · -- nothing was cut off before, and nothing is now
    have hmax : max delta (delta - (bound - value)) = delta := max_eq_left (by omega)
    rw [hmax, min_eq_right h, min_eq_left hle, min_eq_left (by omega)]
  · -- only what falls below the bound is lost
    have hmax : max delta (delta - (bound - value)) = delta - (bound - value) :=
      max_eq_right (by omega)
    rw [hmax, min_eq_right hle]
    rcases le_total 0 (delta - (bound - value)) with hle' | hle'
    · rw [min_eq_left hle', min_eq_right (by omega), Int.add_zero]
    · rw [min_eq_right hle', min_eq_left (by omega)]
      omega

/-- What children hand on adds up. -/
theorem carried_add (m : Machine) (share share' : VertexId → Int) (v : VertexId) :
    carried m share v + carried m share' v = carried m (fun c => share c + share' c) v :=
  (List.sum_map_add).symm

/-- Children that hand on nothing positive hand on nothing positive together. -/
theorem carried_nonpos {m : Machine} {share : VertexId → Int} (h : ∀ c, share c ≤ 0) (v : VertexId) :
    carried m share v ≤ 0 := by
  rw [carried]
  induction (m.forest.vertex v).children with
  | nil => exact Int.le_refl 0
  | cons c children ih => exact add_nonpos (h c) ih

namespace Machine.Consistent

open Pressure

variable {m : Machine}

/-- The change at a vertex: what the neighbours that go away put on it, and the changes of what its
children hand on. -/
theorem valueAt_loadChange (hm : m.Consistent) (n : ClassId) (loads : Array Int) (ds : List Demand)
    {v : VertexId} (hv : v < m.forest.size) :
    valueAt (loadChange m n loads ds) v = -(ds.map (Demand.loadAt m n v)).sum +
      carried m (fun c => cappedChange (valueAt (loadChange m n loads ds) c) (m.ceiling n c)
        (valueAt loads c)) v := by
  have start : valueAt ((directLoads m n ds).map fun x => -x) v =
      -(ds.map (Demand.loadAt m n v)).sum := by
    rw [← valueAt_directLoads m n ds hv, valueAt, valueAt, Array.getD_eq_getD_getElem?,
      Array.getD_eq_getD_getElem?, Array.getElem?_map,
      Array.getElem?_eq_getElem (by rw [size_directLoads]; exact hv)]
    rfl
  rw [← start]
  exact hm.valueAt_accumulate (fun c x => cappedChange x (m.ceiling n c) (valueAt loads c))
    (by rw [Array.size_map, size_directLoads]) hv

/-- Loads only fall when neighbours go away. -/
theorem loadChange_nonpos (hm : m.Consistent) (n : ClassId) (loads : Array Int) (ds : List Demand)
    {v : VertexId} (hv : v < m.forest.size) : valueAt (loadChange m n loads ds) v ≤ 0 := by
  have direct := sum_loadAt_nonneg m n v ds
  have below : carried m (fun c => cappedChange (valueAt (loadChange m n loads ds) c) (m.ceiling n c)
      (valueAt loads c)) v ≤ 0 :=
    carried_nonpos (fun c => cappedChange_nonpos _ _ _) v
  rw [hm.valueAt_loadChange n loads ds hv]
  omega

/-- The load of a vertex and its change when neighbours go away is the load of those that are left. -/
theorem valueAt_withdrawn (hm : m.Consistent) (n : ClassId) (removed rest : List Demand) {v : VertexId}
    (hv : v < m.forest.size) :
    valueAt (vertexLoads m n (removed ++ rest)) v +
      valueAt (loadChange m n (vertexLoads m n (removed ++ rest)) removed) v =
        valueAt (vertexLoads m n rest) v := by
  -- from children to parents: where the children have the right loads, the parent gets its own
  refine hm.ordered.induction (P := fun v => valueAt (vertexLoads m n (removed ++ rest)) v +
    valueAt (loadChange m n (vertexLoads m n (removed ++ rest)) removed) v =
      valueAt (vertexLoads m n rest) v) (fun v hv ih => ?_) hv
  have carry : carried m (capped m n (vertexLoads m n (removed ++ rest))) v +
      carried m (fun c => cappedChange
        (valueAt (loadChange m n (vertexLoads m n (removed ++ rest)) removed) c) (m.ceiling n c)
        (valueAt (vertexLoads m n (removed ++ rest)) c)) v =
      carried m (capped m n (vertexLoads m n rest)) v := by
    rw [carried_add]
    refine carried_congr fun c hc => ?_
    have hlt := ((hm.ordered.mem_children v c).mp hc).1
    rw [capped, cappedChange_eq (hm.loadChange_nonpos n _ removed hlt), ih c hc, capped]
  rw [hm.valueAt_vertexLoads n (removed ++ rest) hv, hm.valueAt_loadChange n _ removed hv,
    hm.valueAt_vertexLoads n rest hv, ← carry, List.map_append, List.sum_append]
  omega

/-- The loads after a withdrawal are those of the neighbours that are left. -/
theorem withdrawn_eq (hm : m.Consistent) (n : ClassId) (removed rest : List Demand) :
    Array.zipWith (· + ·) (vertexLoads m n (removed ++ rest))
      (loadChange m n (vertexLoads m n (removed ++ rest)) removed) = vertexLoads m n rest := by
  refine eq_of_valueAt (by simp) fun v hv => ?_
  have hv : v < m.forest.size := by simpa using hv
  rw [valueAt_zipWith_add (by rw [size_vertexLoads]; exact hv) (by rw [size_loadChange]; exact hv)]
  exact hm.valueAt_withdrawn n removed rest hv

/-- With fewer neighbours no vertex has a larger load. -/
theorem valueAt_vertexLoads_le (hm : m.Consistent) (n : ClassId) {ds ds' : List Demand}
    (h : ds.Sublist ds') {v : VertexId} (hv : v < m.forest.size) :
    valueAt (vertexLoads m n ds) v ≤ valueAt (vertexLoads m n ds') v := by
  obtain ⟨removed, hperm⟩ := h.exists_perm_append
  rw [vertexLoads_perm (hperm.trans List.perm_append_comm)]
  -- the loads of those that are left are reached by a change that is not positive
  have left := hm.valueAt_withdrawn n removed ds hv
  have falls := hm.loadChange_nonpos n (vertexLoads m n (removed ++ ds)) removed hv
  omega

/-- With fewer neighbours the total is not larger. -/
theorem rootLoad_le (hm : m.Consistent) (n : ClassId) {ds ds' : List Demand} (h : ds.Sublist ds') :
    rootLoad m n (vertexLoads m n ds) ≤ rootLoad m n (vertexLoads m n ds') := by
  refine List.sum_le_sum fun v hv => ?_
  have hlt := ((hm.ordered.mem_roots v).mp hv).1
  exact min_le_min_right _ (hm.valueAt_vertexLoads_le n h hlt)

end Machine.Consistent

end RegisterColoring
