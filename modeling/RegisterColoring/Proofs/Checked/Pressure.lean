import RegisterColoring.Proofs.Certainty
import RegisterColoring.Proofs.Checked.Interference

/-! # Checked pressure

A group has fewer than `2 ^ 15` neighbours, each of which needs fewer than `2 ^ 32` registers and blocks fewer
than `2 ^ 16` by each. What a vertex holds beyond that is cut off at what its children have room for, which is
disjoint, so all pressures and their changes fit double words.

* `Demand.AllSized`: demands whose loads fit.
* `Checked.accumulate_eq_some`: values can be accumulated when what every vertex ends with fits.
* `Checked.vertexLoads_eq_some`, `Checked.loadChange_eq_some`: so can loads, and their changes. -/

namespace RegisterColoring

/-- Demands that are few and small enough for their loads to fit a double word. -/
structure Demand.AllSized (m : Machine) (ds : List Demand) : Prop where
  /-- They are no more than a program has uses. -/
  length_le : ds.length ≤ 2 ^ 15
  /-- They are for classes of the machine. -/
  class_lt : ∀ d ∈ ds, d.classId < m.classCount
  /-- Each is for a number of registers that fits a word. -/
  registers_lt : ∀ d ∈ ds, d.registers < 2 ^ 32

/-- Some of the demands that are few and small enough are so as well. -/
theorem Demand.AllSized.sublist {m : Machine} {ds ds' : List Demand} (h : AllSized m ds) (hs : ds'.Sublist ds) :
    AllSized m ds' :=
  ⟨hs.length_le.trans h.length_le, fun d hd => h.class_lt d (hs.subset hd),
    fun d hd => h.registers_lt d (hs.subset hd)⟩

theorem Demand.AllSized.perm {m : Machine} {ds ds' : List Demand} (h : AllSized m ds) (hs : ds.Perm ds') :
    AllSized m ds' :=
  ⟨hs.length_eq ▸ h.length_le, fun d hd => h.class_lt d (hs.mem_iff.mpr hd),
    fun d hd => h.registers_lt d (hs.mem_iff.mpr hd)⟩

namespace Checked

variable {m : Machine} {n : ClassId} {ds : List Demand}

/-! ## Direct loads -/

/-- The most registers of class `n` that a neighbour can block. -/
def load (m : Machine) (n : ClassId) (d : Demand) : Option Int := do
  let registers ← word32 d.registers
  let most ← mostBlocked m n d.classId 1
  word64 (registers * most : Nat)

/-- Add to the value at a vertex. -/
def addAt (values : Array Int) (v : VertexId) (x : Int) : Option (Array Int) := do
  setAt values v (← word64 ((← values[v]?) + x))

/-- The loads of some neighbours, each at the vertex of its class, with a sign: they come or go. -/
def directLoads (m : Machine) (n : ClassId) (sign : Int) (ds : List Demand) : Option (Array Int) :=
  ds.foldlM (fun values d => do addAt values (← vertexOf m d.classId) (sign * (← load m n d)))
    (Array.replicate m.forest.size 0)

/-- A load is at least 0 and far below what fits. -/
theorem load_lt (hm : m.Sized) (hn : n < m.classCount) {d : Demand} (hd : d.classId < m.classCount)
    (hregisters : d.registers < 2 ^ 32) : 0 ≤ d.load m n ∧ d.load m n ≤ 2 ^ 48 - 2 ^ 32 := by
  have hmost := (mostBlocked_eq_some hm hn hd).2
  have hmul : d.registers * m.mostBlocked n d.classId 1 ≤ (2 ^ 32 - 1) * (2 ^ 16 - 1) :=
    Nat.mul_le_mul (by omega) (by omega)
  rw [Demand.load]
  omega

theorem load_eq_some (hm : m.Sized) (hn : n < m.classCount) {d : Demand} (hd : d.classId < m.classCount)
    (hregisters : d.registers < 2 ^ 32) : load m n d = some (d.load m n) := by
  obtain ⟨hnonneg, hle⟩ := load_lt hm hn hd hregisters
  rw [load, word32_eq_some hregisters, (mostBlocked_eq_some hm hn hd).1]
  rw [Option.bind_eq_bind, Option.bind_some, Option.bind_some, ← Demand.load]
  exact word64_eq_some (by omega) (by omega)

/-- A value at a vertex that is there can be added to when the result fits. -/
theorem addAt_eq_some {values : Array Int} {v : VertexId} (hv : v < values.size) {x : Int}
    (h : -2 ^ 63 ≤ valueAt values v + x) (h' : valueAt values v + x < 2 ^ 63) :
    addAt values v x = some (RegisterColoring.addAt values v x) := by
  rw [addAt, getElem?_eq_some_getD hv 0, Option.bind_eq_bind, Option.bind_some]
  rw [show values.getD v 0 = valueAt values v from rfl, word64_eq_some h h', Option.bind_some,
    setAt_eq_some hv]
  refine congrArg some (Array.ext_getElem? fun w => ?_)
  rw [Array.getElem?_setIfInBounds, RegisterColoring.addAt, Array.getElem?_modify]
  by_cases hvw : v = w
  · subst hvw
    rw [if_pos rfl, if_pos hv, if_pos rfl, getElem?_eq_some_getD hv 0]
    rfl
  · rw [if_neg hvw, if_neg hvw]

/-- A sign can be put on values before something is added or after it. -/
theorem map_addAt (sign : Int) (values : Array Int) (v : VertexId) (x : Int) :
    (RegisterColoring.addAt values v x).map (sign * ·) =
      RegisterColoring.addAt (values.map (sign * ·)) v (sign * x) := by
  refine Array.ext_getElem? fun w => ?_
  rw [RegisterColoring.addAt, RegisterColoring.addAt, Array.getElem?_map, Array.getElem?_modify,
    Array.getElem?_modify, Array.getElem?_map]
  split
  · cases values[w]? with
    | none => rfl
    | some y => exact congrArg some (Int.mul_add sign y x)
  · rfl

/-- What demands put on a vertex is at least 0 and no more than all their loads. -/
theorem sum_loadAt_le (hm : m.Sized) (hn : n < m.classCount) (hds : Demand.AllSized m ds) (v : VertexId) :
    0 ≤ (ds.map (Demand.loadAt m n v)).sum ∧
      (ds.map (Demand.loadAt m n v)).sum ≤ ds.length * (2 ^ 48 - 2 ^ 32) := by
  refine ⟨sum_loadAt_nonneg m n v ds, ?_⟩
  have hle : ∀ x ∈ ds.map (Demand.loadAt m n v), x ≤ 2 ^ 48 - 2 ^ 32 := by
    intro x hx
    obtain ⟨d, hd, rfl⟩ := List.mem_map.mp hx
    rw [Demand.loadAt]
    split
    · exact (load_lt hm hn (hds.class_lt d hd) (hds.registers_lt d hd)).2
    · decide
  simpa using List.sum_le_card_nsmul _ _ hle

theorem valueAt_map (sign : Int) (values : Array Int) (v : VertexId) :
    valueAt (values.map (sign * ·)) v = sign * valueAt values v := by
  rw [valueAt, valueAt, Array.getD_eq_getD_getElem?, Array.getD_eq_getD_getElem?, Array.getElem?_map]
  cases values[v]? with
  | none => exact (Int.mul_zero sign).symm
  | some x => rfl

/-- The loads of demands can be put on their vertices, or taken off. -/
theorem directLoads_eq_some (hm : m.Sized) (hn : n < m.classCount) (hds : Demand.AllSized m ds) {sign : Int}
    (hsign : sign = 1 ∨ sign = -1) :
    directLoads m n sign ds = some ((RegisterColoring.directLoads m n ds).map (sign * ·)) := by
  -- on what is left, from what the demands before have put on the vertices
  have from_done : ∀ rest done, done ++ rest = ds →
      rest.foldlM (fun values d => do addAt values (← vertexOf m d.classId) (sign * (← load m n d)))
        ((RegisterColoring.directLoads m n done).map (sign * ·)) =
          some ((RegisterColoring.directLoads m n ds).map (sign * ·)) := by
    intro rest
    induction rest with
    | nil =>
      rintro done rfl
      rw [List.append_nil]
      rfl
    | cons d rest ih =>
      intro done hdone
      have hmem : d ∈ ds := hdone ▸ List.mem_append_right done List.mem_cons_self
      have hclass := hds.class_lt d hmem
      have hvertex := (hm.vertexOf_spec hclass).1
      have hnext : RegisterColoring.directLoads m n (done ++ [d]) = RegisterColoring.addAt
          (RegisterColoring.directLoads m n done) (m.vertexOf d.classId) (d.load m n) := by
        rw [RegisterColoring.directLoads, List.foldl_append]
        rfl
      have hvalue := valueAt_directLoads m n (done ++ [d]) hvertex
      rw [hnext, valueAt_addAt (by rw [size_directLoads]; exact hvertex), if_pos rfl] at hvalue
      have hsub : (done ++ [d]).Sublist ds := by
        rw [← hdone]
        exact (List.Sublist.refl done).append (List.singleton_sublist.mpr List.mem_cons_self)
      have hsized := hds.sublist hsub
      obtain ⟨hnonneg, hle⟩ := sum_loadAt_le hm hn hsized (m.vertexOf d.classId)
      have hlength := hsized.length_le
      have hadd : addAt ((RegisterColoring.directLoads m n done).map (sign * ·)) (m.vertexOf d.classId)
          (sign * d.load m n) =
            some ((RegisterColoring.directLoads m n (done ++ [d])).map (sign * ·)) := by
        rw [hnext, map_addAt]
        refine addAt_eq_some (by rw [Array.size_map, size_directLoads]; exact hvertex) ?_ ?_
        -- `2 ^ 15` loads below `2 ^ 48` fit with either sign
        all_goals
          rw [valueAt_map, ← Int.mul_add, hvalue]
          rcases hsign with rfl | rfl <;> omega
      rw [List.foldlM_cons, vertexOf_eq_some hm.toConsistent hclass,
        load_eq_some hm hn hclass (hds.registers_lt d hmem)]
      simp only [Option.bind_eq_bind, Option.bind_some, hadd]
      exact ih (done ++ [d]) (by rw [List.append_assoc]; exact hdone)
  have hstart : (RegisterColoring.directLoads m n []).map (sign * ·) = Array.replicate m.forest.size 0 := by
    rw [RegisterColoring.directLoads, List.foldl_nil, Array.map_replicate, Int.mul_zero]
  rw [directLoads, ← hstart]
  exact from_done ds [] rfl

/-! ## Accumulation -/

/-- What the children of a vertex hand on, when each hands on what `share` says. -/
def carried (m : Machine) (share : VertexId → Option Int) (v : VertexId) : Option Int := do
  sum64 (← (← vertexAt m v).children.mapM share)

/-- Vertex by vertex, children before parents, add to each what its children hand on. -/
def accumulate (m : Machine) (share : Array Int → VertexId → Option Int) (values : Array Int) :
    Option (Array Int) :=
  m.forest.childrenFirst.foldlM (fun values v => do addAt values v (← carried m (share values) v)) values

/-- What children hand on can be added up. -/
theorem carried_eq_some {v : VertexId} (hv : v < m.forest.size) {share : VertexId → Option Int}
    {g : VertexId → Int} (hshare : ∀ c ∈ (m.forest.vertex v).children, share c = some (g c))
    (hsum : ((m.forest.vertex v).children.map fun c => (g c).natAbs).sum < 2 ^ 63) :
    carried m share v = some (RegisterColoring.carried m g v) := by
  rw [carried, vertexAt_eq_some hv]
  simp only [Option.bind_eq_bind, Option.bind_some, mapM_eq_some hshare]
  refine sum64_eq_some ?_
  rwa [List.map_map]

section

variable {f : VertexId → Int → Int} {share : Array Int → VertexId → Option Int} {final : Array Int}

/-- Along a list that has children before their parent, values can be accumulated when those that each vertex
ends with fit, and what its children hand on in the end does. -/
theorem foldlM_carried_eq_some (hm : m.Consistent) {order : List VertexId} {values : Array Int}
    (hsize : values.size = m.forest.size) (hlt : ∀ v ∈ order, v < m.forest.size) (hnodup : order.Nodup)
    (horder : order.Pairwise fun v w => w ∉ (m.forest.vertex v).children)
    (hfinal : order.foldl (fun values v => RegisterColoring.addAt values v
      (RegisterColoring.carried m (fun c => f c (valueAt values c)) v)) values = final)
    (hshare : ∀ current : Array Int, current.size = m.forest.size → ∀ c, c < m.forest.size →
      valueAt current c = valueAt final c → share current c = some (f c (valueAt current c)))
    (hsum : ∀ v, v < m.forest.size →
      ((m.forest.vertex v).children.map fun c => (f c (valueAt final c)).natAbs).sum < 2 ^ 63)
    (hfits : ∀ v, v < m.forest.size → -2 ^ 63 ≤ valueAt final v ∧ valueAt final v < 2 ^ 63) :
    order.foldlM (fun values v => do addAt values v (← carried m (share values) v)) values = some final := by
  induction order generalizing values with
  | nil => exact congrArg some hfinal
  | cons u rest ih =>
    obtain ⟨hu, hnodup⟩ := List.nodup_cons.mp hnodup
    obtain ⟨hchild, horder⟩ := List.pairwise_cons.mp horder
    have hult := hlt u List.mem_cons_self
    have hrest : ∀ v ∈ rest, v < m.forest.size := fun v hv => hlt v (List.mem_cons_of_mem u hv)
    -- what the first step leaves at a vertex that no later step changes, it ends with
    have hended : ∀ w, w ∉ rest → valueAt final w = valueAt values w +
        if u = w then RegisterColoring.carried m (fun c => f c (valueAt values c)) u else 0 := by
      intro w hw
      rw [← hfinal, List.foldl_cons, valueAt_foldl_carried (fun v hv => by rw [size_addAt, hsize]; exact hrest v hv)
        hnodup hm.notMem_children horder, if_neg hw, Int.add_zero, valueAt_addAt (hsize ▸ hult)]
    have hchildren : ∀ c ∈ (m.forest.vertex u).children, valueAt values c = valueAt final c := by
      intro c hc
      have hne : u ≠ c := fun h => hm.notMem_children u (h ▸ hc)
      rw [hended c fun h => hchild c h hc, if_neg hne, Int.add_zero]
    have hcarried : carried m (share values) u =
        some (RegisterColoring.carried m (fun c => f c (valueAt values c)) u) := by
      refine carried_eq_some hult (fun c hc => ?_) ?_
      · exact hshare values hsize c ((hm.ordered.mem_children u c).mp hc).1 (hchildren c hc)
      · rw [List.map_congr_left fun c hc => by rw [hchildren c hc]]
        exact hsum u hult
    have hadd : addAt values u (RegisterColoring.carried m (fun c => f c (valueAt values c)) u) =
        some (RegisterColoring.addAt values u
          (RegisterColoring.carried m (fun c => f c (valueAt values c)) u)) := by
      have hvalue := hended u hu
      rw [if_pos rfl] at hvalue
      exact addAt_eq_some (hsize ▸ hult) (hvalue ▸ (hfits u hult).1) (hvalue ▸ (hfits u hult).2)
    rw [List.foldlM_cons]
    simp only [hcarried, Option.bind_eq_bind, Option.bind_some, hadd]
    exact ih (by rw [size_addAt, hsize]) hrest hnodup horder hfinal

/-- Values can be accumulated when what every vertex ends with fits. -/
theorem accumulate_eq_some (hm : m.Consistent) {values : Array Int} (hsize : values.size = m.forest.size)
    (hfinal : RegisterColoring.accumulate m (fun values c => f c (valueAt values c)) values = final)
    (hshare : ∀ current : Array Int, current.size = m.forest.size → ∀ c, c < m.forest.size →
      valueAt current c = valueAt final c → share current c = some (f c (valueAt current c)))
    (hsum : ∀ v, v < m.forest.size →
      ((m.forest.vertex v).children.map fun c => (f c (valueAt final c)).natAbs).sum < 2 ^ 63)
    (hfits : ∀ v, v < m.forest.size → -2 ^ 63 ≤ valueAt final v ∧ valueAt final v < 2 ^ 63) :
    accumulate m share values = some final := by
  have hperm := hm.ordered.childrenFirst_perm
  exact foldlM_carried_eq_some hm hsize (fun v hv => List.mem_range.mp (hperm.mem_iff.mp hv))
    (hperm.nodup_iff.mpr List.nodup_range) hm.ordered.childrenFirst_order hfinal hshare hsum hfits

end

/-! ## Loads -/

/-- The value at a vertex, cut off at the number of registers of `n` in the vertex's set. -/
def capped (m : Machine) (n : ClassId) (values : Array Int) (v : VertexId) : Option Int := do
  let value ← values[v]?
  let room ← ceiling m n v
  return min value room

/-- The pressure on class `n` at every vertex. -/
def vertexLoads (m : Machine) (n : ClassId) (ds : List Demand) : Option (Array Int) := do
  accumulate m (capped m n) (← directLoads m n 1 ds)

/-- The total of the pressure on class `n`: what the roots hold. -/
def rootLoad (m : Machine) (n : ClassId) (values : Array Int) : Option Int := do
  sum64 (← m.forest.roots.mapM (capped m n values))

theorem capped_eq_some (hm : m.Sized) (hn : n < m.classCount) {values : Array Int}
    (hsize : values.size = m.forest.size) {v : VertexId} (hv : v < m.forest.size) :
    capped m n values v = some (RegisterColoring.capped m n values v) := by
  rw [capped, getElem?_eq_some_getD (hsize ▸ hv) 0, ceiling_eq_some hm hn hv]
  rfl

/-- What vertices next to each other hand on adds up to less than `2 ^ 16` when each hands on no more than it
has room for. -/
theorem sum_natAbs_lt (hm : m.Sized) (hn : n < m.classCount) {vs : List VertexId}
    (hroom : (vs.map (m.ceiling n)).sum ≤ m.capacity n) {g : VertexId → Int}
    (h : ∀ c ∈ vs, (g c).natAbs ≤ m.ceiling n c) : (vs.map fun c => (g c).natAbs).sum < 2 ^ 16 :=
  calc (vs.map fun c => (g c).natAbs).sum ≤ (vs.map (m.ceiling n)).sum := List.sum_le_sum h
    _ ≤ m.capacity n := hroom
    _ < 2 ^ 16 := hm.capacity_lt hn

/-- A load that is not negative is cut off at what the vertex has room for. -/
theorem natAbs_capped_le {values : Array Int} {v : VertexId} (h : 0 ≤ valueAt values v) :
    (RegisterColoring.capped m n values v).natAbs ≤ m.ceiling n v := by
  rw [RegisterColoring.capped]
  omega

/-- What the children of a vertex hand on together is less than `2 ^ 16` either way. -/
theorem natAbs_carried_lt (hm : m.Sized) (hn : n < m.classCount) {v : VertexId} {g : VertexId → Int}
    (h : ∀ c ∈ (m.forest.vertex v).children, (g c).natAbs ≤ m.ceiling n c) :
    (RegisterColoring.carried m g v).natAbs < 2 ^ 16 := by
  refine (natAbs_sum_le _).trans_lt ?_
  rw [List.map_map]
  exact sum_natAbs_lt hm hn (hm.sum_ceiling_children_le n v) h

/-- The load of a vertex is not negative, and fits a double word. -/
theorem valueAt_vertexLoads_lt (hm : m.Sized) (hn : n < m.classCount) (hds : Demand.AllSized m ds)
    {v : VertexId} (hv : v < m.forest.size) :
    0 ≤ valueAt (RegisterColoring.vertexLoads m n ds) v ∧
      valueAt (RegisterColoring.vertexLoads m n ds) v < 2 ^ 63 := by
  have hnonneg {c : VertexId} (hc : c < m.forest.size) := hm.valueAt_vertexLoads_nonneg n ds hc
  refine ⟨hnonneg hv, ?_⟩
  -- the loads at the vertex itself are up to `2 ^ 63 - 2 ^ 47`, what its children hand on is below `2 ^ 16`
  obtain ⟨-, hle⟩ := sum_loadAt_le hm hn hds v
  have hlength := hds.length_le
  have hroom : (RegisterColoring.carried m
      (RegisterColoring.capped m n (RegisterColoring.vertexLoads m n ds)) v).natAbs < 2 ^ 16 :=
    natAbs_carried_lt hm hn fun c hc =>
      natAbs_capped_le (hnonneg ((hm.ordered.mem_children v c).mp hc).1)
  rw [hm.valueAt_vertexLoads n ds hv]
  omega

/-- The loads of demands can be computed. -/
theorem vertexLoads_eq_some (hm : m.Sized) (hn : n < m.classCount) (hds : Demand.AllSized m ds) :
    vertexLoads m n ds = some (RegisterColoring.vertexLoads m n ds) := by
  have hdirect : directLoads m n 1 ds = some (RegisterColoring.directLoads m n ds) := by
    rw [directLoads_eq_some hm hn hds (.inl rfl)]
    simp
  rw [vertexLoads, hdirect, Option.bind_eq_bind, Option.bind_some]
  refine accumulate_eq_some (f := fun c x => min x (m.ceiling n c)) hm.toConsistent
    (size_directLoads m n ds) rfl ?_ ?_ ?_
  · exact fun current hsize c hc _ => capped_eq_some hm hn hsize hc
  · intro v hv
    refine (sum_natAbs_lt hm hn (hm.sum_ceiling_children_le n v) fun c hc => ?_).trans (by decide)
    exact natAbs_capped_le
      (valueAt_vertexLoads_lt hm hn hds ((hm.ordered.mem_children v c).mp hc).1).1
  · intro v hv
    obtain ⟨hnonneg, hlt⟩ := valueAt_vertexLoads_lt hm hn hds hv
    exact ⟨by omega, hlt⟩

/-- The total of loads that are not negative can be computed, and is less than `2 ^ 16`. -/
theorem rootLoad_eq_some (hm : m.Sized) (hn : n < m.classCount) {values : Array Int}
    (hsize : values.size = m.forest.size) (h : ∀ v, v < m.forest.size → 0 ≤ valueAt values v) :
    rootLoad m n values = some (RegisterColoring.rootLoad m n values) ∧
      (RegisterColoring.rootLoad m n values).natAbs < 2 ^ 16 := by
  have hlt : ∀ v ∈ m.forest.roots, v < m.forest.size := fun v hv => ((hm.ordered.mem_roots v).mp hv).1
  have hroom := sum_natAbs_lt hm hn (hm.sum_ceiling_roots_le n) fun v hv =>
    natAbs_capped_le (n := n) (h v (hlt v hv))
  constructor
  · rw [rootLoad, mapM_eq_some fun v hv => capped_eq_some hm hn hsize (hlt v hv)]
    refine sum64_eq_some ?_
    rw [List.map_map]
    exact hroom.trans (by decide)
  · refine (natAbs_sum_le _).trans_lt ?_
    rw [List.map_map]
    exact hroom

/-! ## Changes -/

/-- The change of a value cut off at `bound` when the value changes by `delta`, which is not positive. -/
def cappedChange (delta bound value : Int) : Option Int := do
  let room ← word64 (bound - value)
  let excess ← word64 (delta - room)
  return min 0 (max delta excess)

/-- The change of the pressure on class `n` at every vertex when some neighbours go away. -/
def loadChange (m : Machine) (n : ClassId) (loads : Array Int) (ds : List Demand) : Option (Array Int) := do
  let change (delta : Array Int) (v : VertexId) : Option Int := do
    let room ← ceiling m n v
    cappedChange (← delta[v]?) room (← loads[v]?)
  accumulate m change (← directLoads m n (-1) ds)

/-- The change of a load that is cut off can be computed when the load was and stays between 0 and what fits,
and is no more than the vertex has room for. -/
theorem cappedChange_eq_some {delta value : Int} {bound : Nat} (hbound : bound < 2 ^ 16) (hdelta : delta ≤ 0)
    (hnonneg : 0 ≤ value + delta) (hlt : value < 2 ^ 63) :
    cappedChange delta bound value = some (Pressure.cappedChange delta bound value) ∧
      (Pressure.cappedChange delta bound value).natAbs ≤ bound := by
  constructor
  · rw [cappedChange, word64_eq_some (by omega) (by omega), Option.bind_eq_bind, Option.bind_some,
      word64_eq_some (by omega) (by omega)]
    rfl
  · have := Pressure.cappedChange_eq hdelta bound value
    omega

/-- The change of loads when neighbours go away can be computed. -/
theorem loadChange_eq_some (hm : m.Sized) (hn : n < m.classCount) {removed rest : List Demand}
    (hds : Demand.AllSized m (removed ++ rest)) :
    loadChange m n (RegisterColoring.vertexLoads m n (removed ++ rest)) removed =
      some (Pressure.loadChange m n (RegisterColoring.vertexLoads m n (removed ++ rest)) removed) := by
  have hremoved := hds.sublist (List.sublist_append_left removed rest)
  have hrest := hds.sublist (List.sublist_append_right removed rest)
  have hdirect : directLoads m n (-1) removed =
      some ((RegisterColoring.directLoads m n removed).map fun x => -x) := by
    rw [directLoads_eq_some hm hn hremoved (.inr rfl)]
    simp
  -- what was at a vertex, and what it changes by
  have hwas := fun v (hv : v < m.forest.size) => valueAt_vertexLoads_lt hm hn hds hv
  have hchange : ∀ v, v < m.forest.size →
      valueAt (Pressure.loadChange m n (RegisterColoring.vertexLoads m n (removed ++ rest)) removed) v ≤ 0 ∧
        0 ≤ valueAt (RegisterColoring.vertexLoads m n (removed ++ rest)) v + valueAt
          (Pressure.loadChange m n (RegisterColoring.vertexLoads m n (removed ++ rest)) removed) v := by
    intro v hv
    refine ⟨hm.loadChange_nonpos n _ removed hv, ?_⟩
    rw [hm.valueAt_withdrawn n removed rest hv]
    exact (valueAt_vertexLoads_lt hm hn hrest hv).1
  rw [loadChange, hdirect, Option.bind_eq_bind, Option.bind_some]
  refine accumulate_eq_some (f := fun c x => Pressure.cappedChange x (m.ceiling n c)
    (valueAt (RegisterColoring.vertexLoads m n (removed ++ rest)) c)) hm.toConsistent
      (by rw [Array.size_map, size_directLoads])
      (show _ = Pressure.loadChange m n (RegisterColoring.vertexLoads m n (removed ++ rest)) removed from rfl)
      ?_ ?_ ?_
  · intro current hsize c hc hcurrent
    obtain ⟨hdelta, hnonneg⟩ := hchange c hc
    have hcut := (cappedChange_eq_some (hm.ceiling_lt hn c) hdelta hnonneg (hwas c hc).2).1
    rw [← hcurrent] at hcut
    rw [ceiling_eq_some hm hn hc, getElem?_eq_some_getD (hsize ▸ hc) 0,
      getElem?_eq_some_getD (by rw [size_vertexLoads]; exact hc) 0]
    exact hcut
  · intro v hv
    refine (sum_natAbs_lt hm hn (hm.sum_ceiling_children_le n v) fun c hc => ?_).trans (by decide)
    have hc := ((hm.ordered.mem_children v c).mp hc).1
    exact (cappedChange_eq_some (hm.ceiling_lt hn c) (hchange c hc).1 (hchange c hc).2 (hwas c hc).2).2
  · intro v hv
    have := hchange v hv
    have := hwas v hv
    omega

end Checked

end RegisterColoring
