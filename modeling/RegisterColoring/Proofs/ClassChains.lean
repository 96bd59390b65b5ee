import RegisterColoring.Proofs.Conflicts
import RegisterColoring.Proofs.InclusionForest
import RegisterColoring.Proofs.Narrowing

/-! # Classes around classes and inside them

A machine tells of two classes the largest class inside both, and of each class the classes around it. Both come from
inclusion, each by its own filter and order. Classes may have the same registers, or as many, and several classes that
are not inside each other may be inside two; then the position of a class decides. Seen together the two agree: the
largest class inside two is the best one that has both around it.

* `Machine.mem_classesAround_iff`: around a class are the classes that it lies within.
* `Machine.le_of_largestWithin?`: of the classes inside two that are as large, the largest is the first.
* `Machine.AgreesOnInclusion`: what is asked of the two together.
* `agreesOnInclusion_of_ofDescription`: accepted machines have it. -/

namespace RegisterColoring

namespace Machine

variable {m : Machine} {a b c e s : ClassId}

/-! ## Chains -/

/-- Around a class are the classes that it lies within, among them itself. -/
theorem mem_classesAround_iff (hb : b < m.classCount) : b ∈ m.classesAround a ↔ m.Within a b := by
  rw [classesAround, List.mem_cons, mem_sortBy, List.mem_filter, Bool.and_eq_true, bne_iff_ne, classIds,
    List.mem_range]
  constructor
  · rintro (rfl | ⟨-, -, hwithin⟩)
    · exact .refl m b
    · exact hwithin
  · intro hwithin
    by_cases hba : b = a
    · exact .inl hba
    · exact .inr ⟨hb, hba, hwithin⟩

/-- A class inside another has no more registers. -/
theorem Within.capacity_le (h : m.Within a b) : m.capacity a ≤ m.capacity b :=
  RegisterSet.card_le_card (within_iff.mp h)

/-- No class is listed twice around another. -/
theorem nodup_classesAround (m : Machine) (c : ClassId) : (m.classesAround c).Nodup := by
  refine List.nodup_cons.mpr ⟨fun hmem => ?_, (sortBy_perm _ _).nodup_iff.mpr (List.nodup_range.filter _)⟩
  have := (List.mem_filter.mp (mem_sortBy.mp hmem)).2
  simp at this

/-- The classes around a class come with ascending capacities. -/
theorem pairwise_capacity_classesAround (m : Machine) (c : ClassId) :
    (m.classesAround c).Pairwise fun a b => m.capacity a ≤ m.capacity b := by
  refine List.pairwise_cons.mpr ⟨fun b hb => ?_, ?_⟩
  · have hwithin := (Bool.and_eq_true_iff.mp (List.mem_filter.mp (mem_sortBy.mp hb)).2).2
    exact Within.capacity_le hwithin
  · exact pairwise_key_sortBy (fun _ _ => decide_eq_true_iff) _

/-! ## The largest class inside two -/

/-- There is a largest class inside two unless none is inside both. -/
theorem largestWithin?_eq_none_iff : m.largestWithin? a b = none ↔
    ¬ ∃ c, c < m.classCount ∧ m.Within c a ∧ m.Within c b := by
  rw [← compatible_iff, Compatible, Option.not_isSome_iff_eq_none]

/-- Of the classes inside two that are as large as the largest, that one is the first. -/
theorem le_of_largestWithin? (h : m.largestWithin? a b = some s) (he : e < m.classCount)
    (hea : m.Within e a) (heb : m.Within e b) (hcapacity : m.capacity e = m.capacity s) : s ≤ e := by
  have ascending : (m.classIds.filter fun c => (m.members c).isSubset (m.members a) &&
      (m.members c).isSubset (m.members b)).Pairwise (· < ·) :=
    List.pairwise_lt_range.filter _
  rcases rel_of_leastBy? (f := fun c => OrderDual.toDual (m.capacity c))
    (fun _ _ => decide_eq_true_iff) ascending h (mem_candidates.mpr ⟨he, hea, heb⟩) hcapacity with rfl | hlt
  · exact le_rfl
  · exact Nat.le_of_lt hlt

/-- If a class lies inside another, the largest class inside both has its registers, provided that all classes
range over the registers of the machine. -/
theorem members_largestWithin? (hwidth : ∀ c, c < m.classCount → (m.members c).width = m.registerCount)
    (ha : a < m.classCount) (h : m.largestWithin? a b = some s) (hab : m.Within a b) :
    m.members s = m.members a := by
  obtain ⟨hs, hsa, -⟩ := within_of_largestWithin? h
  refine RegisterSet.ext_mem ((hwidth s hs).trans (hwidth a ha).symm) fun r => ?_
  exact ⟨within_iff.mp hsa r, within_iff.mp (within_largestWithin? h ha hab) r⟩

/-! ## Both together -/

/-- Whether the largest classes inside two and the classes around each agree on inclusion. -/
structure AgreesOnInclusion (m : Machine) : Prop where
  /-- The largest class inside two does not depend on their order. -/
  comm : ∀ a b, a < m.classCount → b < m.classCount → m.largestWithin? a b = m.largestWithin? b a
  /-- It is missing only if no class has all its registers in both. -/
  eq_none_iff : ∀ a b, a < m.classCount → b < m.classCount → (m.largestWithin? a b = none ↔
    ¬ ∃ c, c < m.classCount ∧ ∀ r ∈ m.members c, r ∈ m.members a ∧ r ∈ m.members b)
  /-- It is a class that has both around it. -/
  mem_classesAround : ∀ a b c, a < m.classCount → b < m.classCount → m.largestWithin? a b = some c →
    c < m.classCount ∧ a ∈ m.classesAround c ∧ b ∈ m.classesAround c
  /-- No other such class has more registers, and none before it has as many. -/
  best : ∀ a b c, a < m.classCount → b < m.classCount → m.largestWithin? a b = some c →
    ∀ e, e < m.classCount → a ∈ m.classesAround e → b ∈ m.classesAround e →
      m.capacity e ≤ m.capacity c ∧ (m.capacity e = m.capacity c → c ≤ e)
  /-- One class is around another if and only if the largest class inside both has the registers of that other. -/
  mem_classesAround_iff : ∀ a b, a < m.classCount → b < m.classCount → (b ∈ m.classesAround a ↔
    ∃ c, m.largestWithin? a b = some c ∧ m.members c = m.members a)
  /-- The classes around a class start with itself. -/
  head?_eq : ∀ c, c < m.classCount → (m.classesAround c).head? = some c
  /-- None of them is listed twice. -/
  nodup : ∀ c, c < m.classCount → (m.classesAround c).Nodup
  /-- They have ascending capacities. -/
  ascending : ∀ c, c < m.classCount →
    (m.classesAround c).Pairwise fun a b => m.capacity a ≤ m.capacity b

end Machine

open Machine in
/-- On every accepted machine the largest classes inside two and the classes around each agree on inclusion. -/
theorem agreesOnInclusion_of_ofDescription {d : MachineDescription} {m : Machine}
    (h : ofDescription d = .ok m) : m.AgreesOnInclusion where
  comm a b _ _ := m.largestWithin?_comm a b
  eq_none_iff a b _ _ := by
    rw [largestWithin?_eq_none_iff]
    simp only [within_iff, ← forall₂_and]
  mem_classesAround a b c ha hb hc := by
    obtain ⟨hlt, hca, hcb⟩ := within_of_largestWithin? hc
    exact ⟨hlt, (mem_classesAround_iff ha).mpr hca, (mem_classesAround_iff hb).mpr hcb⟩
  best a b c ha hb hc e he hae hbe := by
    have hea := (mem_classesAround_iff ha).mp hae
    have heb := (mem_classesAround_iff hb).mp hbe
    exact ⟨capacity_le_of_largestWithin? hc he hea heb, le_of_largestWithin? hc he hea heb⟩
  mem_classesAround_iff a b ha hb := by
    rw [Machine.mem_classesAround_iff hb]
    constructor
    · intro hab
      obtain ⟨c, hc⟩ := Option.isSome_iff_exists.mp (compatible_iff.mpr ⟨a, ha, .refl m a, hab⟩)
      exact ⟨c, hc, members_largestWithin? (fun c hc => (width_of_ofDescription h hc).1) ha hc hab⟩
    · rintro ⟨c, hc, hmembers⟩
      have hcb := (within_of_largestWithin? hc).2.2
      rwa [Within, hmembers] at hcb
  head?_eq c _ := rfl
  nodup c _ := m.nodup_classesAround c
  ascending c _ := m.pairwise_capacity_classesAround c

/-- On the machine with two registers to choose from, the two larger classes have two classes inside them that are
as large. The first of them is taken, and both larger classes are around it. -/
theorem agreesOnInclusion_of_ofDescription_fork :
    forkMachine.largestWithin? 0 1 = some 2 ∧ forkMachine.capacity 3 = forkMachine.capacity 2 ∧
      0 ∈ forkMachine.classesAround 2 ∧ 1 ∈ forkMachine.classesAround 2 ∧
      0 ∈ forkMachine.classesAround 3 ∧ 1 ∈ forkMachine.classesAround 3 ∧
      ∀ e, e < 4 → 0 ∈ forkMachine.classesAround e → 1 ∈ forkMachine.classesAround e →
        forkMachine.capacity e ≤ forkMachine.capacity 2 := by
  have accepted : Machine.ofDescription fork = .ok forkMachine := rfl
  have agrees := agreesOnInclusion_of_ofDescription accepted
  have count : forkMachine.classCount = 4 := by decide +kernel
  have chosen : forkMachine.largestWithin? 0 1 = some 2 := by decide +kernel
  obtain ⟨-, h0, h1⟩ := agrees.mem_classesAround 0 1 2 (by omega) (by omega) chosen
  refine ⟨chosen, by decide +kernel, h0, h1, by decide +kernel, by decide +kernel, fun e he h0 h1 => ?_⟩
  exact (agrees.best 0 1 2 (by omega) (by omega) chosen e (count ▸ he) h0 h1).1

end RegisterColoring
