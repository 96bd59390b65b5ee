import RegisterColoring.Proofs.InclusionForest
import RegisterColoring.Proofs.Validation

/-! # Meets in the forest

Two vertices meet at the lower of them if one is below the other, and nowhere if neither is. No set is looked at for
this. Still, on the forest of an accepted machine it is the intersection of the two sets: sets that share a register
are nested, so that their intersection is the smaller one of them.

* `Machine.laminarFamily_of_ofDescription`: the alias sets of an accepted machine nest or are disjoint.
* `ClassForest.Nested.meet?_eq_some_iff`: two vertices meet where the intersection of their sets is.
* `ClassForest.Nested.meet?_comm`, `ClassForest.Nested.meet?_assoc`: so meeting has the laws of intersection.
* `set_meet_eq_inter`: all of this on accepted machines. -/

namespace RegisterColoring

/-- The alias sets of the classes of an accepted machine have registers, and nest or are disjoint. -/
theorem Machine.laminarFamily_of_ofDescription {d : MachineDescription} {m : Machine}
    (h : ofDescription d = .ok m) : LaminarFamily (m.classes.toList.map fun c => c.aliases) := by
  have hm := consistent_of_ofDescription h
  have width : ∀ k ∈ m.classes.toList, k.aliases.width = m.registerCount := by
    intro k hk
    obtain ⟨c, hc, rfl⟩ := mem_classes_iff.mp hk
    exact (width_of_ofDescription h hc).2
  constructor <;> simp only [List.forall_mem_map]
  · intro k hk
    obtain ⟨c, hc, rfl⟩ := mem_classes_iff.mp hk
    -- a member shares storage with itself
    obtain ⟨r, hr⟩ := exists_mem_members h hc
    exact ⟨r, (hm.mem_class_aliases c r).mpr ⟨r, hr, hm.mem_aliases_self r (hm.lt_of_mem_members c r hr)⟩⟩
  · intro k hk l hl
    rw [width k hk, width l hl]
  · exact laminar_of_ofDescription h

namespace ClassForest.Nested

variable {f : ClassForest} {c e u v w : VertexId}

/-! ## Where vertices meet -/

/-- Vertices meet at one of them, whose set is inside the other. -/
theorem meet?_cases (hf : f.Nested) (hv : v < f.size) (hw : w < f.size) (h : f.meet? v w = some c) :
    c = w ∧ (f.vertex w).set ≤ (f.vertex v).set ∨ c = v ∧ (f.vertex v).set ≤ (f.vertex w).set := by
  unfold meet? at h
  split at h
  · rename_i hbelow
    cases h
    rcases hbelow with rfl | hbelow
    · exact .inl ⟨rfl, le_rfl⟩
    · exact .inl ⟨rfl, ((hf.mem_descendants hv).mp hbelow).2.le⟩
  · obtain ⟨hbelow, h⟩ := Option.ite_none_right_eq_some.mp h
    cases h
    exact .inr ⟨rfl, ((hf.mem_descendants hw).mp hbelow).2.le⟩

/-- A vertex meets one inside it at that one. -/
theorem meet?_of_ge (hf : f.Nested) (hv : v < f.size) (hw : w < f.size)
    (h : (f.vertex w).set ≤ (f.vertex v).set) : f.meet? v w = some w := by
  unfold meet?
  apply if_pos
  rcases hf.eq_or_lt hw hv h with rfl | hlt
  · exact .inl rfl
  · exact .inr ((hf.mem_descendants hv).mpr ⟨hw, hlt⟩)

/-- A vertex meets one around it at itself. -/
theorem meet?_of_le (hf : f.Nested) (hv : v < f.size) (hw : w < f.size)
    (h : (f.vertex v).set ≤ (f.vertex w).set) : f.meet? v w = some v := by
  rcases hf.eq_or_lt hv hw h with rfl | hlt
  · exact hf.meet?_of_ge hv hv le_rfl
  · unfold meet?
    rw [if_neg, if_pos ((hf.mem_descendants hw).mpr ⟨hv, hlt⟩)]
    rintro (rfl | hbelow)
    · exact lt_irrefl _ hlt
    · exact lt_asymm hlt ((hf.mem_descendants hv).mp hbelow).2

/-- Two vertices meet at a third if and only if its set has the registers that are in both of theirs. -/
theorem meet?_eq_some_iff (hf : f.Nested) (hv : v < f.size) (hw : w < f.size) :
    f.meet? v w = some c ↔
      c < f.size ∧ ∀ r, r ∈ (f.vertex c).set ↔ r ∈ (f.vertex v).set ∧ r ∈ (f.vertex w).set := by
  constructor
  · intro h
    rcases hf.meet?_cases hv hw h with ⟨rfl, hle⟩ | ⟨rfl, hle⟩
    · exact ⟨hw, fun r => ⟨fun hr => ⟨hle r hr, hr⟩, And.right⟩⟩
    · exact ⟨hv, fun r => ⟨fun hr => ⟨hr, hle r hr⟩, And.left⟩⟩
  · rintro ⟨hc, hset⟩
    -- a register of the third is in both, so that one of them is inside the other and has the same registers
    obtain ⟨r, hr⟩ := hf.nonempty c hc
    obtain ⟨hrv, hrw⟩ := (hset r).mp hr
    rcases hf.comparable v w r hv hw hrv hrw with hle | hle
    · rw [hf.meet?_of_le hv hw hle]
      exact congrArg some (hf.antisymm v c hv hc (fun q hq => (hset q).mpr ⟨hq, hle q hq⟩)
        fun q hq => ((hset q).mp hq).1)
    · rw [hf.meet?_of_ge hv hw hle]
      exact congrArg some (hf.antisymm w c hw hc (fun q hq => (hset q).mpr ⟨hle q hq, hq⟩)
        fun q hq => ((hset q).mp hq).2)

/-- Two vertices meet if and only if their sets share a register. -/
theorem exists_meet?_iff (hf : f.Nested) (hv : v < f.size) (hw : w < f.size) :
    (∃ c, f.meet? v w = some c) ↔ ∃ r, r ∈ (f.vertex v).set ∧ r ∈ (f.vertex w).set := by
  constructor
  · rintro ⟨c, h⟩
    obtain ⟨hc, hset⟩ := (hf.meet?_eq_some_iff hv hw).mp h
    obtain ⟨r, hr⟩ := hf.nonempty c hc
    exact ⟨r, (hset r).mp hr⟩
  · rintro ⟨r, hrv, hrw⟩
    rcases hf.comparable v w r hv hw hrv hrw with hle | hle
    · exact ⟨v, hf.meet?_of_le hv hw hle⟩
    · exact ⟨w, hf.meet?_of_ge hv hw hle⟩

/-! ## Laws -/

theorem meet?_comm (hf : f.Nested) (hv : v < f.size) (hw : w < f.size) : f.meet? v w = f.meet? w v := by
  ext c
  rw [hf.meet?_eq_some_iff hv hw, hf.meet?_eq_some_iff hw hv]
  simp only [and_comm]

/-- Where two vertices meet, a third is met where the intersection of the three sets is. -/
theorem meet?_bind_eq_some_iff (hf : f.Nested) (hu : u < f.size) (hv : v < f.size) (hw : w < f.size) :
    ((f.meet? u v).bind fun c => f.meet? c w) = some e ↔ e < f.size ∧
      ∀ r, r ∈ (f.vertex e).set ↔ r ∈ (f.vertex u).set ∧ r ∈ (f.vertex v).set ∧ r ∈ (f.vertex w).set := by
  rw [Option.bind_eq_some_iff]
  constructor
  · rintro ⟨c, hmeet, h⟩
    obtain ⟨hc, hset⟩ := (hf.meet?_eq_some_iff hu hv).mp hmeet
    obtain ⟨he, hset'⟩ := (hf.meet?_eq_some_iff hc hw).mp h
    exact ⟨he, fun r => by rw [hset' r, hset r, and_assoc]⟩
  · rintro ⟨he, hset⟩
    obtain ⟨r, hr⟩ := hf.nonempty e he
    obtain ⟨hru, hrv, -⟩ := (hset r).mp hr
    obtain ⟨c, hmeet⟩ := (hf.exists_meet?_iff hu hv).mpr ⟨r, hru, hrv⟩
    obtain ⟨hc, hset'⟩ := (hf.meet?_eq_some_iff hu hv).mp hmeet
    refine ⟨c, hmeet, (hf.meet?_eq_some_iff hc hw).mpr ⟨he, fun q => ?_⟩⟩
    rw [hset q, hset' q, and_assoc]

theorem meet?_assoc (hf : f.Nested) (hu : u < f.size) (hv : v < f.size) (hw : w < f.size) :
    ((f.meet? u v).bind fun c => f.meet? c w) = (f.meet? v w).bind fun c => f.meet? u c := by
  have swap : ((f.meet? v w).bind fun c => f.meet? u c) = (f.meet? v w).bind fun c => f.meet? c u := by
    refine Option.bind_congr fun c hc => hf.meet?_comm hu ?_
    exact ((hf.meet?_eq_some_iff hv hw).mp hc).1
  rw [swap]
  ext e
  rw [hf.meet?_bind_eq_some_iff hu hv hw, hf.meet?_bind_eq_some_iff hv hw hu]
  simp only [and_comm, and_left_comm]

end ClassForest.Nested

/-! ## Accepted machines -/

open ClassForest in
/-- On an accepted machine vertices meet where the intersection of their sets is: if and only if they share a
register, at the vertex whose set is the intersection. So it does not matter in which order vertices meet, nor
whether one meets itself. -/
theorem set_meet_eq_inter {d : MachineDescription} {m : Machine} (h : Machine.ofDescription d = .ok m)
    {u v w : VertexId} (hu : u < m.forest.size) (hv : v < m.forest.size) (hw : w < m.forest.size) :
    ((∃ c, m.forest.meet? v w = some c) ↔
        ∃ r, r ∈ (m.forest.vertex v).set ∧ r ∈ (m.forest.vertex w).set) ∧
      (∀ c, m.forest.meet? v w = some c → c < m.forest.size ∧
        (m.forest.vertex c).set = (m.forest.vertex v).set.inter (m.forest.vertex w).set) ∧
      m.forest.meet? v w = m.forest.meet? w v ∧
      m.forest.meet? v v = some v ∧
      ((m.forest.meet? u v).bind fun c => m.forest.meet? c w) =
        (m.forest.meet? v w).bind fun c => m.forest.meet? u c := by
  have hfamily := Machine.laminarFamily_of_ofDescription h
  rw [(Machine.consistent_of_ofDescription h).forest_eq] at hu hv hw ⊢
  have hf := nested_ofSets hfamily
  refine ⟨hf.exists_meet?_iff hv hw, fun c hmeet => ?_, hf.meet?_comm hv hw, hf.meet?_of_le hv hv le_rfl,
    hf.meet?_assoc hu hv hw⟩
  obtain ⟨hc, hset⟩ := (hf.meet?_eq_some_iff hv hw).mp hmeet
  refine ⟨hc, RegisterSet.ext_mem ?_ fun r => ?_⟩
  · rw [RegisterSet.width_inter]
    exact hfamily.width_eq _ (set_mem_ofSets hc) _ (set_mem_ofSets hv)
  · rw [hset r, RegisterSet.mem_inter]

/-- Four bytes, with a class for each half of them, and a word that overlays the lower half. -/
def halves : MachineDescription where
  name := "halves"
  registers := [⟨"r0", []⟩, ⟨"r1", []⟩, ⟨"r2", []⟩, ⟨"r3", []⟩, ⟨"w", ["r0", "r1"]⟩]
  classes := [⟨"byte", 1, ["r0", "r1", "r2", "r3"]⟩, ⟨"low", 1, ["r0", "r1"]⟩, ⟨"high", 1, ["r2", "r3"]⟩,
    ⟨"word", 2, ["w"]⟩]

/-- The machine with two halves. -/
def halvesMachine : Machine :=
  (Machine.ofDescription halves).toOption.getD default

/-- The lower half and the word have one vertex. It meets all bytes at itself and the upper half nowhere, and there
is no place where all three meet. -/
theorem set_meet_eq_inter_halves :
    halvesMachine.vertexOf 1 = 1 ∧ halvesMachine.vertexOf 3 = 1 ∧ halvesMachine.forest.meet? 0 1 = some 1 ∧
      (halvesMachine.forest.vertex 1).set =
        (halvesMachine.forest.vertex 0).set.inter (halvesMachine.forest.vertex 1).set ∧
      (¬ ∃ r, r ∈ (halvesMachine.forest.vertex 1).set ∧ r ∈ (halvesMachine.forest.vertex 2).set) ∧
      ((halvesMachine.forest.meet? 1 2).bind fun c => halvesMachine.forest.meet? 0 c) = none := by
  have accepted : Machine.ofDescription halves = .ok halvesMachine := rfl
  have size : halvesMachine.forest.size = 3 := by decide +kernel
  have hmeet : halvesMachine.forest.meet? 0 1 = some 1 := by decide +kernel
  have hnone : halvesMachine.forest.meet? 1 2 = none := by decide +kernel
  have h0 : 0 < halvesMachine.forest.size := by omega
  have h1 : 1 < halvesMachine.forest.size := by omega
  have h2 : 2 < halvesMachine.forest.size := by omega
  refine ⟨by decide +kernel, by decide +kernel, hmeet, ?_, ?_, ?_⟩
  · exact ((set_meet_eq_inter accepted h0 h0 h1).2.1 1 hmeet).2
  · rw [← (set_meet_eq_inter accepted h0 h1 h2).1, hnone]
    simp
  · rw [← (set_meet_eq_inter accepted h0 h1 h2).2.2.2.2, hmeet]
    exact hnone

end RegisterColoring
