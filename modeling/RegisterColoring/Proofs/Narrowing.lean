import RegisterColoring.Proofs.SharedClasses

/-! # Whether narrowing finds a shared class

A group narrows the class of its first use by those of the others one by one. Each time it takes the largest
class inside two, and of several that are equally large the first. The class it takes need not contain the one
that lies inside all classes to come. So a class that all uses share may be missed, and whether it is depends on
the order of the uses. This cannot happen with two classes, nor on a machine where the class it takes always has
a class in common with every other that it might have taken.

* `Machine.Within`: a class lies inside another.
* `Machine.NarrowsSafely`: narrowing two classes rules out no class inside both.
* `Group.exists_narrow_of_within`: on such a machine classes that share one can be narrowed to the end.
* `Group.exists_narrow_of_two`, `Group.exists_narrow_of_pair`: on every machine two classes that share one can.
* `narrowing_complete_iff`: on which machines narrowing finds a class whenever there is one.
* `noSharedClass_fork`: a machine where it does not. -/

namespace RegisterColoring

/-! ## Classes inside classes -/

namespace Machine

variable {m : Machine} {a b e s : ClassId}

/-- Whether the registers of a class are all in another. -/
def Within (m : Machine) (e c : ClassId) : Prop :=
  (m.members e).isSubset (m.members c) = true

instance (m : Machine) (e c : ClassId) : Decidable (m.Within e c) :=
  inferInstanceAs (Decidable (_ = true))

theorem within_iff : m.Within e a ↔ ∀ r ∈ m.members e, r ∈ m.members a :=
  RegisterSet.isSubset_iff

theorem Within.refl (m : Machine) (a : ClassId) : m.Within a a :=
  within_iff.mpr fun _ hr => hr

theorem Within.trans (hea : m.Within e a) (hab : m.Within a b) : m.Within e b :=
  within_iff.mpr fun r hr => within_iff.mp hab r (within_iff.mp hea r hr)

/-- The classes among which the largest inside two is chosen. -/
theorem mem_candidates {e : ClassId} : (e ∈ m.classIds.filter fun c =>
      (m.members c).isSubset (m.members a) && (m.members c).isSubset (m.members b)) ↔
    e < m.classCount ∧ m.Within e a ∧ m.Within e b := by
  simp [classIds, Within]

/-- Two classes are compatible if and only if some class lies inside both. -/
theorem compatible_iff : m.Compatible a b ↔ ∃ e < m.classCount, m.Within e a ∧ m.Within e b := by
  constructor
  · intro h
    obtain ⟨s, hs⟩ := Option.isSome_iff_exists.mp h
    exact ⟨s, mem_candidates.mp (leastBy?_mem hs)⟩
  · rintro ⟨e, he⟩
    obtain ⟨s, hs⟩ := exists_leastBy? (fun c d => m.capacity d < m.capacity c)
      (List.ne_nil_of_mem (mem_candidates.mpr he))
    exact Option.isSome_of_eq_some hs

/-- The largest class inside two lies inside both. -/
theorem within_of_largestWithin? (h : m.largestWithin? a b = some s) :
    s < m.classCount ∧ m.Within s a ∧ m.Within s b :=
  mem_candidates.mp (leastBy?_mem h)

/-- No class inside two is larger than the largest. -/
theorem capacity_le_of_largestWithin? (h : m.largestWithin? a b = some s) (he : e < m.classCount)
    (hea : m.Within e a) (heb : m.Within e b) : m.capacity e ≤ m.capacity s := by
  have hmem := mem_candidates.mpr ⟨he, hea, heb⟩
  exact le_key_of_leastBy? (f := m.capacity) (fun _ _ => decide_eq_true_iff) h hmem

/-- If the first of two classes lies inside the second, the largest class inside both has all its registers. -/
theorem within_largestWithin? (h : m.largestWithin? a b = some s) (ha : a < m.classCount)
    (hab : m.Within a b) : m.Within a s := by
  have hsub : (m.members s).toFinset ⊆ (m.members a).toFinset := fun r hr =>
    RegisterSet.mem_toFinset.mpr
      (within_iff.mp (within_of_largestWithin? h).2.1 r (RegisterSet.mem_toFinset.mp hr))
  have hcard : (m.members a).toFinset.card ≤ (m.members s).toFinset.card := by
    rw [RegisterSet.card_toFinset, RegisterSet.card_toFinset]
    exact capacity_le_of_largestWithin? h ha (.refl m a) hab
  have heq := Finset.eq_of_subset_of_card_le hsub hcard
  refine within_iff.mpr fun r hr => ?_
  rwa [← RegisterSet.mem_toFinset, heq, RegisterSet.mem_toFinset]

/-- Whether narrowing two classes rules out no class inside both: every such class has a class in common with
the largest. -/
def NarrowsSafely (m : Machine) : Prop :=
  ∀ a ∈ m.classIds, ∀ b ∈ m.classIds, ∀ e ∈ m.classIds, ∀ s ∈ m.largestWithin? a b,
    m.Within e a → m.Within e b → m.Compatible s e

instance (m : Machine) : Decidable m.NarrowsSafely :=
  inferInstanceAs (Decidable (∀ a ∈ m.classIds, _))

end Machine

/-! ## Narrowing to the end -/

namespace Group

variable {m : Machine} {c : ClassId} {others : List ClassId}

/-- Narrowing goes on with what the first two classes are narrowed to. -/
theorem narrow_cons {b s : ClassId} (h : m.largestWithin? c b = some s) :
    narrow m c (b :: others) = narrow m s others := by
  rw [narrow, List.foldlM_cons, h]
  rfl

/-- On a machine that narrows safely, classes that share a class can be narrowed to the end. -/
theorem exists_narrow_of_within (hm : m.NarrowsSafely) (hrange : ∀ b ∈ c :: others, b < m.classCount)
    {e : ClassId} (he : e < m.classCount) (hwithin : ∀ b ∈ c :: others, m.Within e b) :
    ∃ s, narrow m c others = some s := by
  induction others generalizing c e with
  | nil => exact ⟨c, rfl⟩
  | cons b others ih =>
    obtain ⟨hc, hb, hothers⟩ : c < m.classCount ∧ b < m.classCount ∧ ∀ x ∈ others, x < m.classCount := by
      simpa using hrange
    obtain ⟨hec, heb, hlater⟩ : m.Within e c ∧ m.Within e b ∧ ∀ x ∈ others, m.Within e x := by
      simpa using hwithin
    obtain ⟨s, hs⟩ := Option.isSome_iff_exists.mp (Machine.compatible_iff.mpr ⟨e, he, hec, heb⟩)
    -- the shared class may be lost, but not all classes inside it are
    have common : m.Compatible s e := hm c (List.mem_range.mpr hc) b (List.mem_range.mpr hb) e
      (List.mem_range.mpr he) s hs hec heb
    obtain ⟨e', he', hes, hee⟩ := Machine.compatible_iff.mp common
    rw [narrow_cons hs]
    refine ih (List.forall_mem_cons.mpr ⟨(Machine.within_of_largestWithin? hs).1, hothers⟩) he' ?_
    exact List.forall_mem_cons.mpr ⟨hes, fun x hx => hee.trans (hlater x hx)⟩

/-- On every machine, two classes that share a class can be narrowed by each other any number of times. -/
theorem exists_narrow_of_two {a b : ClassId} (htwo : ∀ x ∈ others, x = a ∨ x = b) (hc : c < m.classCount)
    (hside : m.Within c a ∨ m.Within c b)
    (hshared : ∃ e < m.classCount, m.Within e c ∧ m.Within e a ∧ m.Within e b) :
    ∃ s, narrow m c others = some s := by
  induction others generalizing c with
  | nil => exact ⟨c, rfl⟩
  | cons x others ih =>
    obtain ⟨hx, htwo⟩ := List.forall_mem_cons.mp htwo
    obtain ⟨e, he, hec, hea, heb⟩ := hshared
    have hex : m.Within e x := by
      rcases hx with rfl | rfl
      · exact hea
      · exact heb
    obtain ⟨s, hs⟩ := Option.isSome_iff_exists.mp (Machine.compatible_iff.mpr ⟨e, he, hec, hex⟩)
    obtain ⟨hlt, hsc, hsx⟩ := Machine.within_of_largestWithin? hs
    rw [narrow_cons hs]
    refine ih htwo hlt ?_ ?_
    · rcases hx with rfl | rfl
      · exact .inl hsx
      · exact .inr hsx
    · by_cases hcx : m.Within c x
      · -- nothing is lost
        exact ⟨e, he, hec.trans (Machine.within_largestWithin? hs hc hcx), hea, heb⟩
      · -- the class came from the other of the two, so that it now lies inside both
        refine ⟨s, hlt, .refl m s, ?_⟩
        rcases hx with rfl | rfl
        · exact ⟨hsx, hsc.trans (hside.resolve_left hcx)⟩
        · exact ⟨hsc.trans (hside.resolve_right hcx), hsx⟩

/-- So can classes of which no more than two differ, where all share a class. -/
theorem exists_narrow_of_pair {a b : ClassId} (htwo : ∀ x ∈ c :: others, x = a ∨ x = b)
    (hc : c < m.classCount) {e : ClassId} (he : e < m.classCount)
    (hwithin : ∀ x ∈ c :: others, m.Within e x) : ∃ s, narrow m c others = some s := by
  -- the second class is any that differs from the first, or the first again
  obtain ⟨d, hd, hothers⟩ : ∃ d ∈ c :: others, ∀ x ∈ others, x = c ∨ x = d := by
    by_cases hsame : ∀ x ∈ others, x = c
    · exact ⟨c, List.mem_cons_self, fun x hx => .inl (hsame x hx)⟩
    · push Not at hsame
      obtain ⟨d, hd, hne⟩ := hsame
      refine ⟨d, List.mem_cons_of_mem c hd, fun x hx => ?_⟩
      have hc := htwo c List.mem_cons_self
      have hd := htwo d (List.mem_cons_of_mem c hd)
      have hx := htwo x (List.mem_cons_of_mem c hx)
      grind
  have hec := hwithin c List.mem_cons_self
  exact exists_narrow_of_two hothers hc (.inl (.refl m c)) ⟨e, he, hec, hec, hwithin d hd⟩

end Group

/-- Whether some class lies inside all classes that some uses ask for. -/
def Program.SharesClass (p : Program) (m : Machine) (set : List UseId) : Prop :=
  ∃ e < m.classCount, ∀ c ∈ Group.requestedClasses p set, m.Within e c

/-- Where a set has no class, the classes it asks for cannot be narrowed to the end. -/
theorem Groups.narrow_of_noSharedClass {m : Machine} {p : Program} {part : Partition} {group : GroupId}
    {classes : List String} (h : ofPartition m p part = .error (.noSharedClass group classes)) :
    ∃ set ∈ part.sets, ∃ c others, Group.requestedClasses p set = c :: others ∧
      Group.narrow m c others = none := by
  obtain ⟨set, hset, id, hdefect⟩ := exists_of_ofPartition_error h
  exact ⟨set, hset, Group.narrow_of_noSharedClass hdefect⟩

/-- On every machine, sets that ask for two classes at most have a class if there is one. All sets have one if
there is one, in whatever order their uses stand, if and only if the machine narrows safely. -/
theorem narrowing_complete_iff (m : Machine) :
    (∀ (p : Program) (part : Partition), p.AsksWithin m →
        (∀ set ∈ part.sets, p.SharesClass m set ∧
          ∃ a b, ∀ c ∈ Group.requestedClasses p set, c = a ∨ c = b) →
        ∀ group classes, Groups.ofPartition m p part ≠ .error (.noSharedClass group classes)) ∧
      ((∀ (p : Program) (part : Partition), p.AsksWithin m → (∀ set ∈ part.sets, p.SharesClass m set) →
          ∀ group classes, Groups.ofPartition m p part ≠ .error (.noSharedClass group classes)) ↔
        m.NarrowsSafely) := by
  refine ⟨fun p part hasks hsets group classes h => ?_, fun h a ha b hb e he s hs hea heb => ?_,
    fun hm p part hasks hsets group classes h => ?_⟩
  · obtain ⟨set, hset, c, others, hrequested, hnarrow⟩ := Groups.narrow_of_noSharedClass h
    obtain ⟨⟨e, he, hwithin⟩, a, b, htwo⟩ := hsets set hset
    rw [hrequested] at hwithin htwo
    have hc : c < m.classCount := hasks.lt_of_mem_requestedClasses (hrequested ▸ List.mem_cons_self)
    obtain ⟨s, hs⟩ := Group.exists_narrow_of_pair htwo hc he hwithin
    rw [hnarrow] at hs
    cases hs
  · by_contra hse
    refine h (triad a b e) ⟨[[0, 1, 2]]⟩ ?_ ?_ 0 _ (ofPartition_triad hs hse)
    · simpa [Program.AsksWithin, triad] using
        ⟨List.mem_range.mp ha, List.mem_range.mp hb, List.mem_range.mp he⟩
    · intro set hset
      rw [List.mem_singleton.mp hset]
      refine ⟨e, List.mem_range.mp he, ?_⟩
      show ∀ c ∈ [a, b, e], m.Within e c
      simpa using ⟨hea, heb, .refl m e⟩
  · obtain ⟨set, hset, c, others, hrequested, hnarrow⟩ := Groups.narrow_of_noSharedClass h
    obtain ⟨e, he, hwithin⟩ := hsets set hset
    obtain ⟨s, hs⟩ := Group.exists_narrow_of_within hm
      (fun b hb => hasks.lt_of_mem_requestedClasses (hrequested ▸ hb)) he (hrequested ▸ hwithin)
    rw [hnarrow] at hs
    cases hs

/-- The built-in AVR narrows safely, so that it has a class for every set whose classes share one. -/
theorem narrowing_complete_avr :
    ∃ m, Builtin.avrMachine = .ok m ∧ m.NarrowsSafely ∧
      ∀ (p : Program) (part : Partition), p.AsksWithin m → (∀ set ∈ part.sets, p.SharesClass m set) →
        ∀ group classes, Groups.ofPartition m p part ≠ .error (.noSharedClass group classes) := by
  have computed : (Builtin.avrMachine.map fun m => decide m.NarrowsSafely) = .ok true := by
    decide +kernel
  cases h : Builtin.avrMachine with
  | error e =>
    rw [h] at computed
    cases computed
  | ok m =>
    rw [h] at computed
    have safe : m.NarrowsSafely := of_decide_eq_true (Except.ok.inj computed)
    exact ⟨m, rfl, safe, (narrowing_complete_iff m).2.mpr safe⟩

/-! ## Two registers to choose from -/

/-- Two registers that lie in both larger classes, with a class for each of them, and a third register of each of
the larger classes, which share storage. -/
def fork : MachineDescription where
  name := "fork"
  registers := [⟨"x", []⟩, ⟨"y", []⟩, ⟨"s", ["t"]⟩, ⟨"t", []⟩]
  classes := [⟨"xys", 1, ["x", "y", "s"]⟩, ⟨"xyt", 1, ["x", "y", "t"]⟩, ⟨"x", 1, ["x"]⟩, ⟨"y", 1, ["y"]⟩]

/-- The machine with two registers to choose from. -/
def forkMachine : Machine :=
  (Machine.ofDescription fork).toOption.getD default

/-- Three uses that ask for the two larger classes and for `y` share `y`. The larger classes are narrowed to `x`,
so that the three cannot be a group as they stand; with `y` before the second of the larger classes they can. -/
theorem noSharedClass_fork :
    Machine.ofDescription fork = .ok forkMachine ∧ (triad 0 1 3).AsksWithin forkMachine ∧
      (triad 0 1 3).joinedSets.sets = [[0, 1, 2]] ∧ (triad 0 1 3).SharesClass forkMachine [0, 1, 2] ∧
      Groups.ofPartition forkMachine (triad 0 1 3) ⟨[[0, 1, 2]]⟩ =
        .error (.noSharedClass 0 ["xys", "xyt", "y"]) ∧
      (Groups.ofPartition forkMachine (triad 0 1 3) ⟨[[0, 2, 1]]⟩).map (fun g => (g.get 0).classId) =
        .ok 3 := by
  have narrowed : forkMachine.largestWithin? 0 1 = some 2 := by decide +kernel
  have lost : ¬ forkMachine.Compatible 2 3 := by decide +kernel
  have classes : Group.squeeze ([0, 1, 3].map forkMachine.className) = ["xys", "xyt", "y"] := by
    decide +kernel
  refine ⟨rfl, by decide +kernel, joinedSets_triad 0 1 3, ⟨3, by decide +kernel, by decide +kernel⟩, ?_, ?_⟩
  · rw [ofPartition_triad narrowed lost, classes]
  · decide +kernel

end RegisterColoring
