import RegisterColoring.Proofs.Coverage
import RegisterColoring.Proofs.Forest

/-! # The forest is the order of inclusion

A forest is computed from numbers: the parent of a vertex is the smallest of the larger sets around its own, and
heights and descendants follow the children down. Where any two sets nest or are disjoint, this is the order of
inclusion. The sets around a set share its registers, so that any two of them nest, and the smallest of them lies
inside all others.

* `RegisterSet` is ordered by inclusion.
* `LaminarFamily`: sets that have registers, of which any two nest or are disjoint.
* `ClassForest.Nested`: what is known of a forest that was made of such sets.
* `ClassForest.Nested.below_iff_le`, `ClassForest.Nested.mem_descendants`: below a vertex are the sets inside its
  own.
* `ClassForest.Nested.isGreatest_height`: heights are lengths of chains.
* `ClassForest.OrdersByInclusion`: a forest is the order of inclusion of some sets.
* `ordersByInclusion_ofSets`: the forest of a laminar family is. -/

namespace RegisterColoring

/-! ## Inclusion -/

namespace RegisterSet

variable {s t : RegisterSet}

/-- Sets are ordered by inclusion. -/
instance : Preorder RegisterSet where
  le s t := ∀ r ∈ s, r ∈ t
  le_refl _ _ hr := hr
  le_trans _ _ _ hst htu r hr := htu r (hst r hr)

theorem card_le_card (h : s ≤ t) : s.card ≤ t.card := by
  rw [← card_toFinset, ← card_toFinset]
  exact Finset.card_le_card fun r hr => mem_toFinset.mpr (h r (mem_toFinset.mp hr))

/-- A set that is strictly inside another has fewer registers. -/
theorem card_lt_card (h : s < t) : s.card < t.card := by
  rw [← card_toFinset, ← card_toFinset]
  refine Finset.card_lt_card ⟨fun r hr => ?_, fun hts => h.2 fun r hr => ?_⟩
  · exact mem_toFinset.mpr (h.1 r (mem_toFinset.mp hr))
  · exact mem_toFinset.mp (hts (mem_toFinset.mpr hr))

/-- A set inside another that has more registers is strictly inside it. -/
theorem lt_of_le_of_card_lt (h : s ≤ t) (hcard : s.card < t.card) : s < t :=
  lt_of_le_not_ge h fun hts => Nat.not_le.mpr hcard (card_le_card hts)

/-- Of two sets that nest or are disjoint and share a register, one is inside the other. -/
theorem le_or_le_of_laminar (h : s.laminar t = true) {r : RegisterId} (hs : r ∈ s) (ht : r ∈ t) :
    s ≤ t ∨ t ≤ s := by
  simp only [laminar, Bool.or_eq_true, isSubset_iff, isDisjoint_iff] at h
  rcases h with hnested | hdisjoint
  · exact hnested
  · exact absurd ht (hdisjoint r hs)

end RegisterSet

/-- Whether inclusion orders sets into a forest: they have registers, range over equally many, and any two of them
nest or are disjoint. -/
structure LaminarFamily (sets : List RegisterSet) : Prop where
  /-- No set is empty. -/
  nonempty : ∀ s ∈ sets, ∃ r, r ∈ s
  /-- All sets have one width. -/
  width_eq : ∀ s ∈ sets, ∀ t ∈ sets, s.width = t.width
  /-- Any two sets nest or are disjoint. -/
  laminar : ∀ s ∈ sets, ∀ t ∈ sets, s.laminar t = true

namespace ClassForest

/-! ## Parents are the least sets around -/

section

variable {aliasSets : List RegisterSet} {v w : VertexId}

/-- The set of a vertex is one of those that the forest is made of. -/
theorem set_mem_ofSets (hv : v < (ofSets aliasSets).size) :
    ((ofSets aliasSets).vertex v).set ∈ aliasSets := by
  rw [size_ofSets] at hv
  rw [set_ofSets hv]
  exact List.mem_eraseDups.mp (List.getElem_mem hv)

/-- Vertices whose sets have the same registers are the same. -/
theorem eq_of_le_of_le_ofSets (hwidth : ∀ s ∈ aliasSets, ∀ t ∈ aliasSets, s.width = t.width)
    (hv : v < (ofSets aliasSets).size) (hw : w < (ofSets aliasSets).size)
    (hvw : ((ofSets aliasSets).vertex v).set ≤ ((ofSets aliasSets).vertex w).set)
    (hwv : ((ofSets aliasSets).vertex w).set ≤ ((ofSets aliasSets).vertex v).set) : v = w := by
  have same : ((ofSets aliasSets).vertex v).set = ((ofSets aliasSets).vertex w).set :=
    RegisterSet.ext_mem (hwidth _ (set_mem_ofSets hv) _ (set_mem_ofSets hw)) fun r => ⟨hvw r, hwv r⟩
  rw [size_ofSets] at hv hw
  rw [set_ofSets hv, set_ofSets hw] at same
  exact (nodup_eraseDups aliasSets).getElem_inj_iff.mp same

/-- A set that lies inside a larger one has a parent, which is no larger than that one. -/
theorem exists_parentOf {sets : List RegisterSet} {set other : RegisterSet} (hmem : other ∈ sets)
    (hcard : set.card < other.card) (hsub : ∀ r ∈ set, r ∈ other) :
    ∃ u least, parentOf sets set = some u ∧ sets[u]? = some least ∧ least.card ≤ other.card := by
  obtain ⟨i, hi⟩ := List.mem_iff_getElem?.mp hmem
  have around : (other, i) ∈ sets.zipIdx.filter fun x : RegisterSet × VertexId =>
      set.card < x.1.card && set.isSubset x.1 := by
    rw [List.mem_filter, List.mem_zipIdx_iff_getElem?, Bool.and_eq_true, decide_eq_true_eq,
      RegisterSet.isSubset_iff]
    exact ⟨hi, hcard, hsub⟩
  obtain ⟨⟨least, u⟩, hleast⟩ := exists_leastBy? smaller (List.ne_nil_of_mem around)
  have hu : sets[u]? = some least :=
    List.mem_zipIdx_iff_getElem?.mp (List.mem_of_mem_filter (leastBy?_mem hleast))
  refine ⟨u, least, by rw [parentOf, hleast]; rfl, hu, ?_⟩
  exact key_le_of_leastBy? (f := fun x => x.1.card) (fun _ _ => decide_eq_true_iff) hleast around

/-- A vertex whose set is strictly inside that of another has a parent, which is no larger than that one. -/
theorem exists_parent_ofSets (hv : v < (ofSets aliasSets).size) (hw : w < (ofSets aliasSets).size)
    (h : ((ofSets aliasSets).vertex v).set < ((ofSets aliasSets).vertex w).set) :
    ∃ u, ((ofSets aliasSets).vertex v).parent = some u ∧
      ((ofSets aliasSets).vertex u).set.card ≤ ((ofSets aliasSets).vertex w).set.card := by
  have hcard := RegisterSet.card_lt_card h
  rw [size_ofSets] at hv hw
  rw [set_ofSets hv, set_ofSets hw] at h hcard
  obtain ⟨u, least, hparent, hu, hle⟩ := exists_parentOf (List.getElem_mem hw) hcard h.1
  obtain ⟨hlt, rfl⟩ := List.getElem?_eq_some_iff.mp hu
  refine ⟨u, ?_, ?_⟩
  · rw [parent_ofSets, List.getElem?_eq_getElem hv, Option.bind_some, hparent]
  · rwa [set_ofSets hlt, set_ofSets hw]

/-- A vertex whose set lies inside that of another has another parent. -/
theorem parent_ne_of_subset (hwidth : ∀ s ∈ aliasSets, ∀ t ∈ aliasSets, s.width = t.width)
    (hv : v < (ofSets aliasSets).size) (hw : w < (ofSets aliasSets).size) (hne : v ≠ w)
    (hsub : ∀ r ∈ ((ofSets aliasSets).vertex v).set, r ∈ ((ofSets aliasSets).vertex w).set) :
    ((ofSets aliasSets).vertex v).parent ≠ ((ofSets aliasSets).vertex w).parent := by
  have hlt : ((ofSets aliasSets).vertex v).set < ((ofSets aliasSets).vertex w).set :=
    lt_of_le_not_ge hsub fun hback => hne (eq_of_le_of_le_ofSets hwidth hv hw hsub hback)
  -- the parent of the smaller one is no larger than the larger one, whose parent is larger
  obtain ⟨u, hparent, hle⟩ := exists_parent_ofSets hv hw hlt
  intro heq
  have hcard := (parent_larger_ofSets (heq.symm.trans hparent)).2.1
  omega

/-- Where sets nest or are disjoint, different vertices with one parent have disjoint sets. -/
theorem disjoint_of_parent_eq (hwidth : ∀ s ∈ aliasSets, ∀ t ∈ aliasSets, s.width = t.width)
    (hlaminar : ∀ s ∈ aliasSets, ∀ t ∈ aliasSets, s.laminar t = true)
    (hv : v < (ofSets aliasSets).size) (hw : w < (ofSets aliasSets).size) (hne : v ≠ w)
    (hparent : ((ofSets aliasSets).vertex v).parent = ((ofSets aliasSets).vertex w).parent)
    {r : RegisterId} (hr : r ∈ ((ofSets aliasSets).vertex v).set) :
    r ∉ ((ofSets aliasSets).vertex w).set := by
  intro hr'
  have hnested := RegisterSet.le_or_le_of_laminar
    (hlaminar _ (set_mem_ofSets hv) _ (set_mem_ofSets hw)) hr hr'
  rcases hnested with hsub | hsub
  · exact parent_ne_of_subset hwidth hv hw hne hsub hparent
  · exact parent_ne_of_subset hwidth hw hv (Ne.symm hne) hsub hparent.symm

end

/-! ## Forests of laminar families -/

/-- What is known of a forest that was made of a laminar family. -/
structure Nested (f : ClassForest) : Prop extends f.Ordered where
  /-- The sets have registers. -/
  nonempty : ∀ v, v < f.size → ∃ r, r ∈ (f.vertex v).set
  /-- Different vertices have different registers. -/
  antisymm : ∀ v w, v < f.size → w < f.size → (f.vertex v).set ≤ (f.vertex w).set →
    (f.vertex w).set ≤ (f.vertex v).set → v = w
  /-- Of two sets that share a register, one is inside the other. -/
  comparable : ∀ v w r, v < f.size → w < f.size → r ∈ (f.vertex v).set → r ∈ (f.vertex w).set →
    (f.vertex v).set ≤ (f.vertex w).set ∨ (f.vertex w).set ≤ (f.vertex v).set
  /-- Inside every set around another is the parent of that one. -/
  exists_parent : ∀ v w, v < f.size → w < f.size → (f.vertex v).set < (f.vertex w).set →
    ∃ u, (f.vertex v).parent = some u ∧ (f.vertex u).set ≤ (f.vertex w).set
  /-- Different vertices with one parent share no register. -/
  disjoint : ∀ v w, v < f.size → w < f.size → v ≠ w → (f.vertex v).parent = (f.vertex w).parent →
    ∀ r ∈ (f.vertex v).set, r ∉ (f.vertex w).set
  /-- No child is listed twice. -/
  nodup_children : ∀ v, (f.vertex v).children.Nodup
  /-- The descendants of a vertex are its children and theirs. -/
  descendants_eq : ∀ v, v < f.size → (f.vertex v).descendants =
    (f.vertex v).children ++ (f.vertex v).children.flatMap fun c => (f.vertex c).descendants
  /-- A vertex is one higher than the highest of its children. -/
  height_eq : ∀ v, v < f.size → (f.vertex v).height =
    ((f.vertex v).children.map fun c => (f.vertex c).height).foldl max 0 + 1

/-- The forest of a laminar family is nested. -/
theorem nested_ofSets {sets : List RegisterSet} (h : LaminarFamily sets) : (ofSets sets).Nested := by
  have comparable : ∀ v w r, v < (ofSets sets).size → w < (ofSets sets).size →
      r ∈ ((ofSets sets).vertex v).set → r ∈ ((ofSets sets).vertex w).set →
      ((ofSets sets).vertex v).set ≤ ((ofSets sets).vertex w).set ∨
        ((ofSets sets).vertex w).set ≤ ((ofSets sets).vertex v).set := fun v w r hv hw hr hr' =>
    RegisterSet.le_or_le_of_laminar (h.laminar _ (set_mem_ofSets hv) _ (set_mem_ofSets hw)) hr hr'
  exact {
    toOrdered := ordered_ofSets
    nonempty := fun v hv => h.nonempty _ (set_mem_ofSets hv)
    antisymm := fun v w => eq_of_le_of_le_ofSets h.width_eq
    comparable
    exists_parent := by
      intro v w hv hw hlt
      obtain ⟨u, hparent, hle⟩ := exists_parent_ofSets hv hw hlt
      obtain ⟨hu, -, hsub⟩ := parent_larger_ofSets hparent
      refine ⟨u, hparent, ?_⟩
      -- both have the registers of the vertex, and the parent is no larger
      obtain ⟨r, hr⟩ := h.nonempty _ (set_mem_ofSets hv)
      rcases comparable u w r hu hw (hsub r hr) (hlt.1 r hr) with huw | hwu
      · exact huw
      · by_contra huw
        have := RegisterSet.card_lt_card (lt_of_le_not_ge hwu huw)
        omega
    disjoint := fun v w hv hw hne hparent r hr =>
      disjoint_of_parent_eq h.width_eq h.laminar hv hw hne hparent hr
    nodup_children := fun v => by
      rw [children_ofSets]
      exact List.nodup_range.filter _
    descendants_eq := fun v => descendants_eq_of_children
    height_eq := fun v => height_eq_of_children }

/-- Whether vertices are a chain of growing sets up to that of `v`, the last of them. -/
structure ClimbsTo (f : ClassForest) (chain : List VertexId) (v : VertexId) : Prop where
  /-- All of them are vertices. -/
  lt_size : ∀ w ∈ chain, w < f.size
  /-- The sets grow along the chain. -/
  grows : chain.Pairwise fun a b => (f.vertex a).set < (f.vertex b).set
  /-- The chain ends at the vertex. -/
  getLast?_eq : chain.getLast? = some v

namespace Nested

variable {f : ClassForest} {u v w c : VertexId}

/-! ## Parents -/

/-- The set of a child is strictly inside that of its parent. -/
theorem lt_of_parent_eq (hf : f.Nested) (h : (f.vertex c).parent = some v) :
    (f.vertex c).set < (f.vertex v).set := by
  obtain ⟨-, hcard, hsub⟩ := hf.parent_larger c v h
  exact RegisterSet.lt_of_le_of_card_lt hsub hcard

/-- A vertex inside another is that one or strictly inside it. -/
theorem eq_or_lt (hf : f.Nested) (hw : w < f.size) (hv : v < f.size)
    (h : (f.vertex w).set ≤ (f.vertex v).set) : w = v ∨ (f.vertex w).set < (f.vertex v).set := by
  by_cases hback : (f.vertex v).set ≤ (f.vertex w).set
  · exact .inl (hf.antisymm w v hw hv h hback)
  · exact .inr (lt_of_le_not_ge h hback)

/-- The parent of a vertex is inside every set around the vertex. -/
theorem parent_le (hf : f.Nested) (hv : v < f.size) (h : (f.vertex v).parent = some u) (hw : w < f.size)
    (hlt : (f.vertex v).set < (f.vertex w).set) : (f.vertex u).set ≤ (f.vertex w).set := by
  obtain ⟨u', hparent, hle⟩ := hf.exists_parent v w hv hw hlt
  rw [h, Option.some.injEq] at hparent
  exact hparent ▸ hle

/-- The parent of a vertex is the least set around it. -/
theorem parent_eq_some_iff (hf : f.Nested) (hv : v < f.size) :
    (f.vertex v).parent = some u ↔ u < f.size ∧ (f.vertex v).set < (f.vertex u).set ∧
      ∀ w, w < f.size → (f.vertex v).set < (f.vertex w).set → (f.vertex u).set ≤ (f.vertex w).set := by
  constructor
  · intro h
    exact ⟨(hf.parent_larger v u h).1, hf.lt_of_parent_eq h, fun w hw hlt => hf.parent_le hv h hw hlt⟩
  · rintro ⟨hu, hlt, hleast⟩
    obtain ⟨u', hparent, hle⟩ := hf.exists_parent v u hv hu hlt
    have hu' := (hf.parent_larger v u' hparent).1
    rw [hparent, hf.antisymm u' u hu' hu hle (hleast u' hu' (hf.lt_of_parent_eq hparent))]

/-- Only a vertex that is inside no other has no parent. -/
theorem parent_eq_none_iff (hf : f.Nested) (hv : v < f.size) :
    (f.vertex v).parent = none ↔ ∀ w, w < f.size → ¬ (f.vertex v).set < (f.vertex w).set := by
  constructor
  · intro h w hw hlt
    obtain ⟨u, hparent, -⟩ := hf.exists_parent v w hv hw hlt
    rw [h] at hparent
    cases hparent
  · intro h
    cases hparent : (f.vertex v).parent with
    | none => rfl
    | some u => exact absurd (hf.lt_of_parent_eq hparent) (h u (hf.parent_larger v u hparent).1)

/-! ## Descendants -/

/-- Below a vertex are the vertices whose sets lie inside its own. -/
theorem below_iff_le (hf : f.Nested) (hw : w < f.size) (hv : v < f.size) :
    f.Below w v ↔ (f.vertex w).set ≤ (f.vertex v).set := by
  refine ⟨fun h r hr => hf.mem_set_of_below h hr, fun h => ?_⟩
  -- from parent to parent, as long as the set is smaller
  induction hgap : (f.vertex v).set.card - (f.vertex w).set.card using Nat.strongRecOn generalizing w with
  | ind gap ih =>
    rcases hf.eq_or_lt hw hv h with rfl | hlt
    · exact .refl
    · obtain ⟨u, hparent, hle⟩ := hf.exists_parent w v hw hv hlt
      obtain ⟨hu, hcard, -⟩ := hf.parent_larger w u hparent
      have := RegisterSet.card_lt_card hlt
      exact .head hparent (ih _ (by omega) hu hle rfl)

/-- A vertex strictly inside another is one of its children or strictly inside one. -/
theorem exists_child (hf : f.Nested) (hw : w < f.size) (hv : v < f.size)
    (h : (f.vertex w).set < (f.vertex v).set) :
    ∃ c ∈ (f.vertex v).children, w = c ∨ (f.vertex w).set < (f.vertex c).set := by
  rcases (hf.below_iff hw).mp ((hf.below_iff_le hw hv).mpr h.le) with rfl | ⟨c, hc, hbelow⟩
  · exact absurd h (lt_irrefl _)
  · have hlt := ((hf.mem_children v c).mp hc).1
    exact ⟨c, hc, hf.eq_or_lt hw hlt ((hf.below_iff_le hw hlt).mp hbelow)⟩

/-- The descendants of a vertex are the vertices whose sets are strictly inside its own. -/
theorem mem_descendants (hf : f.Nested) (hv : v < f.size) :
    w ∈ (f.vertex v).descendants ↔ w < f.size ∧ (f.vertex w).set < (f.vertex v).set := by
  refine hf.induction (P := fun v => w ∈ (f.vertex v).descendants ↔
    w < f.size ∧ (f.vertex w).set < (f.vertex v).set) (fun v hv ih => ?_) hv
  rw [hf.descendants_eq v hv, List.mem_append, List.mem_flatMap]
  constructor
  · rintro (hw | ⟨c, hc, hw⟩)
    · obtain ⟨hlt, hparent⟩ := (hf.mem_children v w).mp hw
      exact ⟨hlt, hf.lt_of_parent_eq hparent⟩
    · obtain ⟨hlt, hwc⟩ := (ih c hc).mp hw
      exact ⟨hlt, hwc.trans (hf.lt_of_parent_eq ((hf.mem_children v c).mp hc).2)⟩
  · rintro ⟨hw, hlt⟩
    obtain ⟨c, hc, rfl | hwc⟩ := hf.exists_child hw hv hlt
    · exact .inl hc
    · exact .inr ⟨c, hc, (ih c hc).mpr ⟨hw, hwc⟩⟩

/-- Different children of a vertex have no descendants in common: their sets share no register. -/
theorem disjoint_descendants (hf : f.Nested) {d : VertexId} (hc : c ∈ (f.vertex v).children)
    (hd : d ∈ (f.vertex v).children) (hne : c ≠ d) :
    List.Disjoint (f.vertex c).descendants (f.vertex d).descendants := by
  obtain ⟨hclt, hcparent⟩ := (hf.mem_children v c).mp hc
  obtain ⟨hdlt, hdparent⟩ := (hf.mem_children v d).mp hd
  intro w hwc hwd
  obtain ⟨hw, hwc⟩ := (hf.mem_descendants hclt).mp hwc
  obtain ⟨-, hwd⟩ := (hf.mem_descendants hdlt).mp hwd
  obtain ⟨r, hr⟩ := hf.nonempty w hw
  exact hf.disjoint c d hclt hdlt hne (hcparent.trans hdparent.symm) r (hwc.1 r hr) (hwd.1 r hr)

/-- No child of a vertex is a descendant of another: its parent would be no larger than that one. -/
theorem notMem_descendants_of_mem_children (hf : f.Nested) {d : VertexId}
    (hc : c ∈ (f.vertex v).children) (hd : d ∈ (f.vertex v).children) :
    c ∉ (f.vertex d).descendants := by
  obtain ⟨hclt, hcparent⟩ := (hf.mem_children v c).mp hc
  obtain ⟨hdlt, hdparent⟩ := (hf.mem_children v d).mp hd
  intro h
  have hle := hf.parent_le hclt hcparent hdlt ((hf.mem_descendants hdlt).mp h).2
  exact absurd (hf.lt_of_parent_eq hdparent) hle.not_gt

/-- No descendant is listed twice. -/
theorem nodup_descendants (hf : f.Nested) (hv : v < f.size) : (f.vertex v).descendants.Nodup := by
  refine hf.induction (P := fun v => (f.vertex v).descendants.Nodup) (fun v hv ih => ?_) hv
  rw [hf.descendants_eq v hv]
  refine List.Nodup.append (hf.nodup_children v) (List.nodup_flatMap.mpr ⟨ih, ?_⟩) ?_
  · exact (hf.nodup_children v).imp_of_mem fun hc hd hne => hf.disjoint_descendants hc hd hne
  · intro c hc hmem
    obtain ⟨d, hd, hcd⟩ := List.mem_flatMap.mp hmem
    exact hf.notMem_descendants_of_mem_children hc hd hcd

/-- What falls from parents to children falls from a vertex to its descendants. -/
theorem lt_of_mem_descendants (hf : f.Nested) {μ : VertexId → Nat}
    (hμ : ∀ v, ∀ c ∈ (f.vertex v).children, μ c < μ v) (hv : v < f.size)
    (hw : w ∈ (f.vertex v).descendants) : μ w < μ v := by
  refine hf.induction (P := fun v => w ∈ (f.vertex v).descendants → μ w < μ v) (fun v hv ih hw => ?_) hv hw
  rw [hf.descendants_eq v hv, List.mem_append, List.mem_flatMap] at hw
  rcases hw with hw | ⟨c, hc, hw⟩
  · exact hμ v w hw
  · exact (ih c hc hw).trans (hμ v c hc)

/-! ## Heights -/

/-- A child is lower than its parent. -/
theorem height_lt (hf : f.Nested) (v : VertexId) (hc : c ∈ (f.vertex v).children) :
    (f.vertex c).height < (f.vertex v).height := by
  have hv := (hf.parent_larger c v ((hf.mem_children v c).mp hc).2).1
  exact height_lt_of_height_eq (hf.height_eq v hv) hc

/-- A vertex without children has height 1, any other is one higher than one of its children. -/
theorem height_cases (hf : f.Nested) (hv : v < f.size) :
    (f.vertex v).height = 1 ∨
      ∃ c ∈ (f.vertex v).children, (f.vertex v).height = (f.vertex c).height + 1 := by
  rw [hf.height_eq v hv]
  rcases foldl_choice_mem (f := max) (fun a b => max_choice a b)
    ((f.vertex v).children.map fun c => (f.vertex c).height) 0 with hzero | hmem
  · exact .inl (by rw [hzero])
  · obtain ⟨c, hc, heq⟩ := List.mem_map.mp hmem
    exact .inr ⟨c, hc, by rw [heq]⟩

/-- Some chain up to a vertex has as many vertices as the vertex is high. -/
theorem exists_climbsTo (hf : f.Nested) (hv : v < f.size) :
    ∃ chain, f.ClimbsTo chain v ∧ chain.length = (f.vertex v).height := by
  refine hf.induction (P := fun v => ∃ chain, f.ClimbsTo chain v ∧
    chain.length = (f.vertex v).height) (fun v hv ih => ?_) hv
  rcases hf.height_cases hv with hone | ⟨c, hc, hheight⟩
  · exact ⟨[v], ⟨by simpa using hv, by simp, rfl⟩, hone.symm⟩
  · obtain ⟨chain, ⟨hsize, hgrows, hlast⟩, hlength⟩ := ih c hc
    have hcv := hf.lt_of_parent_eq ((hf.mem_children v c).mp hc).2
    obtain ⟨below, rfl⟩ := List.getLast?_eq_some_iff.mp hlast
    refine ⟨(below ++ [c]) ++ [v], ⟨?_, ?_, by simp⟩, by simp [hheight, ← hlength]⟩
    · intro w hw
      rcases List.mem_append.mp hw with hw | hw
      · exact hsize w hw
      · exact List.mem_singleton.mp hw ▸ hv
    · -- the chain ends at the child, which is inside the vertex
      refine List.pairwise_append.mpr ⟨hgrows, by simp, fun a ha b hb => ?_⟩
      rw [List.mem_singleton.mp hb]
      rcases List.mem_append.mp ha with ha | ha
      · exact ((List.pairwise_append.mp hgrows).2.2 a ha c (by simp)).trans hcv
      · rwa [List.mem_singleton.mp ha]

/-- No chain up to a vertex has more vertices than the vertex is high. -/
theorem length_le_height (hf : f.Nested) {below : List VertexId} (h : f.ClimbsTo (below ++ [v]) v) :
    below.length + 1 ≤ (f.vertex v).height := by
  obtain ⟨hsize, hgrows, -⟩ := h
  have hv := hsize v (by simp)
  -- from the end of the chain, where each vertex is higher than the one before it
  induction below using List.reverseRecOn generalizing v with
  | nil =>
    rw [hf.height_eq v hv]
    simp
  | append_singleton below u ih =>
    have hu := hsize u (by simp)
    have huv : (f.vertex u).set < (f.vertex v).set :=
      (List.pairwise_append.mp hgrows).2.2 u (by simp) v (by simp)
    have hlt := hf.lt_of_mem_descendants (μ := fun v => (f.vertex v).height)
      (fun v c hc => hf.height_lt v hc) hv ((hf.mem_descendants hv).mpr ⟨hu, huv⟩)
    have hle := ih (fun w hw => hsize w (List.mem_append_left _ hw))
      (List.pairwise_append.mp hgrows).1 hu
    simp only [List.length_append, List.length_singleton]
    omega

/-- The height of a vertex is the length of the longest chain up to it. -/
theorem isGreatest_height (hf : f.Nested) (hv : v < f.size) :
    IsGreatest {n | ∃ chain, f.ClimbsTo chain v ∧ chain.length = n} (f.vertex v).height := by
  refine ⟨hf.exists_climbsTo hv, ?_⟩
  rintro n ⟨chain, h, rfl⟩
  obtain ⟨below, rfl⟩ := List.getLast?_eq_some_iff.mp h.getLast?_eq
  rw [List.length_append, List.length_singleton]
  exact hf.length_le_height h

/-! ## Children first -/

/-- In the list with children first a child stands before its parent. -/
theorem idxOf_lt (hf : f.Nested) (v : VertexId) (hc : c ∈ (f.vertex v).children) :
    f.childrenFirst.idxOf c < f.childrenFirst.idxOf v := by
  obtain ⟨hclt, hparent⟩ := (hf.mem_children v c).mp hc
  have hcv := hf.lt_of_parent_eq hparent
  have hvlt := (hf.parent_larger c v hparent).1
  have place : ∀ {x}, x < f.size → f.childrenFirst.idxOf x < f.childrenFirst.length := fun hx =>
    List.idxOf_lt_length_iff.mpr (hf.childrenFirst_perm.mem_iff.mpr (List.mem_range.mpr hx))
  by_contra hnot
  rcases Nat.lt_or_eq_of_le (Nat.le_of_not_lt hnot) with hlt | heq
  · have := List.pairwise_iff_getElem.mp hf.childrenFirst_order _ _ (place hvlt) (place hclt) hlt
    rw [List.getElem_idxOf, List.getElem_idxOf] at this
    exact this hc
  · have hmem := List.idxOf_lt_length_iff.mp (place hvlt)
    rw [(List.idxOf_inj hmem).mp heq] at hcv
    exact lt_irrefl _ hcv

end Nested

/-! ## The order of inclusion -/

/-- Whether a forest has a vertex for each of the distinct ones of some sets, and is their order of inclusion. -/
structure OrdersByInclusion (f : ClassForest) (sets : List RegisterSet) : Prop where
  /-- Different vertices have different sets. -/
  set_inj : ∀ v w, v < f.size → w < f.size → (f.vertex v).set = (f.vertex w).set → v = w
  /-- The vertex of a class has the set of the class. -/
  set_vertexOf : ∀ c s, sets[c]? = some s → f.vertexOf c < f.size ∧ (f.vertex (f.vertexOf c)).set = s
  /-- A class is listed at its vertex and nowhere else. -/
  mem_classes : ∀ v c, v < f.size → (c ∈ (f.vertex v).classes ↔ c < sets.length ∧ f.vertexOf c = v)
  /-- Every vertex is that of a class. -/
  exists_class : ∀ v, v < f.size → ∃ c, c < sets.length ∧ f.vertexOf c = v
  /-- The parent of a vertex is the least set that is strictly around it. -/
  parent_eq_some_iff : ∀ v u, v < f.size → ((f.vertex v).parent = some u ↔
    u < f.size ∧ (f.vertex v).set < (f.vertex u).set ∧
      ∀ w, w < f.size → (f.vertex v).set < (f.vertex w).set → (f.vertex u).set ≤ (f.vertex w).set)
  /-- A vertex without parent is strictly inside no other. -/
  parent_eq_none_iff : ∀ v, v < f.size → ((f.vertex v).parent = none ↔
    ∀ w, w < f.size → ¬ (f.vertex v).set < (f.vertex w).set)
  /-- The children of a vertex are the vertices that have it as parent. -/
  mem_children : ∀ v c, c ∈ (f.vertex v).children ↔ c < f.size ∧ (f.vertex c).parent = some v
  /-- Children are listed in ascending order. -/
  ascending_children : ∀ v, (f.vertex v).children.Pairwise (· < ·)
  /-- The descendants of a vertex are the vertices that are strictly inside it. -/
  mem_descendants : ∀ v w, v < f.size →
    (w ∈ (f.vertex v).descendants ↔ w < f.size ∧ (f.vertex w).set < (f.vertex v).set)
  /-- Every descendant is listed once. -/
  nodup_descendants : ∀ v, v < f.size → (f.vertex v).descendants.Nodup
  /-- The roots are the vertices without a parent. -/
  mem_roots : ∀ v, v ∈ f.roots ↔ v < f.size ∧ (f.vertex v).parent = none
  /-- Different roots share no register. -/
  disjoint_roots : ∀ v ∈ f.roots, ∀ w ∈ f.roots, v ≠ w →
    ∀ r ∈ (f.vertex v).set, r ∉ (f.vertex w).set
  /-- Different children of a vertex share no register. -/
  disjoint_children : ∀ u, ∀ v ∈ (f.vertex u).children, ∀ w ∈ (f.vertex u).children, v ≠ w →
    ∀ r ∈ (f.vertex v).set, r ∉ (f.vertex w).set
  /-- The height of a vertex is the number of vertices on the longest chain of growing sets up to it. -/
  isGreatest_height : ∀ v, v < f.size →
    IsGreatest {n | ∃ chain, f.ClimbsTo chain v ∧ chain.length = n} (f.vertex v).height
  /-- The list with children first has every vertex once. -/
  childrenFirst_perm : f.childrenFirst.Perm (List.range f.size)
  /-- In that list every vertex stands after all its descendants. -/
  idxOf_lt : ∀ v, v < f.size → ∀ w ∈ (f.vertex v).descendants,
    f.childrenFirst.idxOf w < f.childrenFirst.idxOf v

end ClassForest

open ClassForest in
/-- The forest of sets of which any two nest or are disjoint is their order of inclusion: there is one vertex for
each distinct set, parents are least sets around, descendants are all sets inside, what is not nested is disjoint,
heights are lengths of longest chains, and descendants come first in the order of the vertices. -/
theorem ordersByInclusion_ofSets {sets : List RegisterSet} (h : LaminarFamily sets) :
    (ofSets sets).OrdersByInclusion sets := by
  have hf := nested_ofSets h
  have listed : ∀ v c, v < (ofSets sets).size → (c ∈ ((ofSets sets).vertex v).classes ↔
      c < sets.length ∧ (ofSets sets).vertexOf c = v) := by
    intro v c hv
    rw [size_ofSets] at hv
    rw [classes_ofSets hv, List.mem_filter, List.mem_range, beq_iff_eq]
    refine and_congr_right fun hc => ?_
    rw [vertexOf_ofSets (List.getElem?_eq_getElem hc), List.getElem?_eq_getElem hc, Option.some.injEq]
    constructor
    · intro heq
      rw [heq]
      exact (nodup_eraseDups sets).idxOf_getElem v hv
    · rintro rfl
      exact (List.getElem_idxOf hv).symm
  exact {
    set_inj := fun v w hv hw heq => hf.antisymm v w hv hw heq.le heq.ge
    set_vertexOf := fun c s hc => set_vertexOf_ofSets hc
    mem_classes := listed
    exists_class := fun v hv => by
      obtain ⟨c, hc⟩ := List.mem_iff_getElem?.mp (set_mem_ofSets hv)
      have hset := set_vertexOf_ofSets hc
      refine ⟨c, (List.getElem?_eq_some_iff.mp hc).1, ?_⟩
      exact hf.antisymm _ v hset.1 hv hset.2.le hset.2.ge
    parent_eq_some_iff := fun v u hv => hf.parent_eq_some_iff hv
    parent_eq_none_iff := fun v hv => hf.parent_eq_none_iff hv
    mem_children := hf.mem_children
    ascending_children := fun v => by
      rw [children_ofSets]
      exact List.pairwise_lt_range.filter _
    mem_descendants := fun v w hv => hf.mem_descendants hv
    nodup_descendants := fun v hv => hf.nodup_descendants hv
    mem_roots := hf.mem_roots
    disjoint_roots := fun v hv w hw hne => by
      obtain ⟨hvlt, hvparent⟩ := (hf.mem_roots v).mp hv
      obtain ⟨hwlt, hwparent⟩ := (hf.mem_roots w).mp hw
      exact hf.disjoint v w hvlt hwlt hne (hvparent.trans hwparent.symm)
    disjoint_children := fun u v hv w hw hne => by
      obtain ⟨hvlt, hvparent⟩ := (hf.mem_children u v).mp hv
      obtain ⟨hwlt, hwparent⟩ := (hf.mem_children u w).mp hw
      exact hf.disjoint v w hvlt hwlt hne (hvparent.trans hwparent.symm)
    isGreatest_height := fun v hv => hf.isGreatest_height hv
    childrenFirst_perm := hf.childrenFirst_perm
    idxOf_lt := fun v hv w hw =>
      hf.lt_of_mem_descendants (fun v c hc => hf.idxOf_lt v hc) hv hw }

/-- Sets of up to three levels, the largest of them twice. -/
def threeLevels : List RegisterSet :=
  [.ofList 8 [0, 1, 2, 3, 4, 5], .ofList 8 [0, 1, 2, 3], .ofList 8 [0, 1], .ofList 8 [0, 1, 2, 3, 4, 5],
    .ofList 8 [4], .ofList 8 [6, 7]]

open ClassForest in
/-- The six sets of `threeLevels` have five vertices. The set that is there twice has three sets inside it, of
which two are its children, and is the third of the longest chain up to it. -/
theorem ordersByInclusion_ofSets_threeLevels :
    (ofSets threeLevels).OrdersByInclusion threeLevels ∧ (ofSets threeLevels).size = 5 ∧
      (ofSets threeLevels).vertexOf 0 = 0 ∧ (ofSets threeLevels).vertexOf 3 = 0 ∧
      ((ofSets threeLevels).vertex 0).classes = [0, 3] ∧ ((ofSets threeLevels).vertex 0).children = [1, 3] ∧
      ((ofSets threeLevels).vertex 0).descendants = [1, 3, 2] ∧ ((ofSets threeLevels).vertex 0).height = 3 ∧
      ((ofSets threeLevels).vertex 2).parent = some 1 ∧ (ofSets threeLevels).roots = [0, 4] := by
  have hregister : ∀ s ∈ threeLevels, ∃ r ∈ List.range 8, r ∈ s := by decide +kernel
  have hfamily : LaminarFamily threeLevels := {
    nonempty := fun s hs => (hregister s hs).imp fun _ hr => hr.2
    width_eq := by decide +kernel
    laminar := by decide +kernel }
  exact ⟨ordersByInclusion_ofSets hfamily, by decide +kernel⟩

end RegisterColoring
