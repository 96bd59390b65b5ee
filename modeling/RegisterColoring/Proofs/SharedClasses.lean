import RegisterColoring.Machine.Builtin
import RegisterColoring.Proofs.Conflicts
import RegisterColoring.Proofs.Singles

/-! # Classes that joined uses share

Separation leaves no two uses in a set whose classes have no class inside both. A group needs a class inside
all of them, and narrows the first class by the others one by one. Whether it can go on to the end is a matter
of the machine: it can on every program if and only if narrowing two classes never loses a third one that has
a class in common with each of the two.

* `Machine.Compatible`: some class lies inside two classes.
* `Machine.Coherent`: narrowing loses no compatible class.
* `Group.exists_narrow`: compatible classes of a coherent machine can be narrowed to the end.
* `Program.compatible_separate`: after separation joined uses ask for compatible classes.
* `ofPartition_triad`, `ofProgram_triad`: three uses whose classes cannot be narrowed to the end.
* `shared_class_iff_coherent`: which machines have a class for every set that separation leaves.
* `shared_class_avr`: the built-in AVR is one of them.
* `noSharedClass_ring`: a machine that is not. -/

namespace RegisterColoring

/-! ## Compatible classes -/

namespace Machine

/-- Whether some class lies inside two classes. -/
def Compatible (m : Machine) (c d : ClassId) : Prop :=
  (m.largestWithin? c d).isSome = true

instance (m : Machine) (c d : ClassId) : Decidable (m.Compatible c d) :=
  inferInstanceAs (Decidable (_ = true))

/-- Whether narrowing loses no compatible class: a class that has a class in common with each of two others has
one in common with the largest class inside the two. -/
def Coherent (m : Machine) : Prop :=
  ∀ a ∈ m.classIds, ∀ b ∈ m.classIds, ∀ c ∈ m.classIds, ∀ s ∈ m.largestWithin? a b,
    m.Compatible a c → m.Compatible b c → m.Compatible s c

instance (m : Machine) : Decidable m.Coherent :=
  inferInstanceAs (Decidable (∀ a ∈ m.classIds, _))

end Machine

/-- Classes that are compatible with each other can be narrowed to the end on a coherent machine. -/
theorem Group.exists_narrow {m : Machine} (hm : m.Coherent) {c : ClassId} {others : List ClassId}
    (hrange : ∀ b ∈ c :: others, b < m.classCount) (h : (c :: others).Pairwise m.Compatible) :
    ∃ e, narrow m c others = some e := by
  induction others generalizing c with
  | nil => exact ⟨c, rfl⟩
  | cons b others ih =>
    obtain ⟨hc, hb, hothers⟩ : c < m.classCount ∧ b < m.classCount ∧ ∀ e ∈ others, e < m.classCount := by
      simpa using hrange
    obtain ⟨hfirst, hsecond, hlater⟩ : (m.Compatible c b ∧ ∀ e ∈ others, m.Compatible c e) ∧
        (∀ e ∈ others, m.Compatible b e) ∧ others.Pairwise m.Compatible := by
      simpa using h
    obtain ⟨s, hs⟩ := Option.isSome_iff_exists.mp hfirst.1
    have hlt : s < m.classCount := List.mem_range.mp (List.mem_of_mem_filter (leastBy?_mem hs))
    -- what was compatible with both classes is compatible with what they are narrowed to
    have kept : ∀ e ∈ others, m.Compatible s e := fun e he =>
      hm c (List.mem_range.mpr hc) b (List.mem_range.mpr hb) e (List.mem_range.mpr (hothers e he)) s hs
        (hfirst.2 e he) (hsecond e he)
    obtain ⟨e, he⟩ := ih (List.forall_mem_cons.mpr ⟨hlt, hothers⟩) (List.pairwise_cons.mpr ⟨kept, hlater⟩)
    refine ⟨e, ?_⟩
    rw [narrow, List.foldlM_cons, hs]
    exact he

/-- Uses that cannot be a group for want of a shared class ask for classes that cannot be narrowed to the
end. -/
theorem Group.narrow_of_noSharedClass {m : Machine} {p : Program} {id group : GroupId}
    {members : List UseId} {classes : List String}
    (h : ofUses m p id members = .error (.noSharedClass group classes)) :
    ∃ c others, requestedClasses p members = c :: others ∧ narrow m c others = none := by
  rw [ofUses] at h
  split at h
  · simp only [pure_bind] at h
    split at h <;> cases h
  · rename_i c others hrequested
    cases hnarrow : narrow m c others with
    | none => exact ⟨c, others, hrequested, hnarrow⟩
    | some e =>
      simp only [hnarrow, pure_bind] at h
      split at h <;> cases h

/-! ## Separation -/

section

variable {m : Machine} {p q : Program} {number : Nat}

/-- Two uses do not conflict when they name different slots and ask for compatible classes. -/
theorem Program.conflict_eq_false_iff {u v : UseId} : p.conflict m u v = false ↔
    ∀ x y, p.use? u = some x → p.use? v = some y → x.sharesSlot y = false ∧
      ∀ c e, x.class? = some c → y.class? = some e → m.Compatible c e := by
  unfold conflict incompatible Machine.Compatible
  cases p.use? u with
  | none => simp
  | some x =>
    cases p.use? v with
    | none => simp
    | some y =>
      cases hx : x.class? <;> cases hy : y.class? <;> simp [hx, hy, and_comm, Option.isSome_iff_ne_none]

/-- After separation the uses of a set ask for compatible classes. -/
theorem Program.compatible_separate (hends : p.EndsInRange) {set : List UseId}
    (hset : set ∈ (p.separate m p.joinedSets).partition.sets) :
    (Group.requestedClasses p set).Pairwise m.Compatible := by
  refine List.pairwise_filterMap.mpr ?_
  refine ((p.normal_separate m).ascending set hset).imp_of_mem fun {u v} hu hv hlt c hc e he => ?_
  obtain ⟨x, hx, hc⟩ := Option.bind_eq_some_iff.mp hc
  obtain ⟨y, hy, he⟩ := Option.bind_eq_some_iff.mp he
  have apart := conflict_separate hends hset hu hv (Nat.ne_of_lt hlt)
  exact (conflict_eq_false_iff.mp apart x y hx hy).2 c e hc he

/-- Where no joined uses conflict, separation changes nothing. -/
theorem Program.separate_of_peace (h : ∀ set ∈ p.joinedSets.sets, p.conflictPairs m set = []) :
    (p.separate m p.joinedSets).program = p ∧
      (p.separate m p.joinedSets).partition = Partition.ofSets p.joinedSets.sets := by
  have hnone : ((p.joinedSets.sets.map (p.divideSet m (linkCount p.linkedUses))).all
      fun d => d.conflicts.isEmpty) = true := by
    refine List.all_eq_true.mpr fun d hd => ?_
    obtain ⟨set, hset, rfl⟩ := List.mem_map.mp hd
    exact List.isEmpty_iff.mpr (h set hset)
  rw [separate, if_pos hnone]
  exact ⟨rfl, congrArg Partition.ofSets (flatMap_parts_divideSet hnone)⟩

/-- An attempt that fails for a defect fails for that of the sets that separation left. -/
theorem Attempt.ofPartition_of_defect {cause : GroupDefect}
    (h : (ofProgram m p number).2 = .error (.defect cause)) :
    let s := p.resetSplits.separate m p.resetSplits.joinedSets
    Groups.ofPartition m s.program s.partition = .error cause := by
  intro s
  rw [ofProgram] at h
  split at h
  · cases h
  · split at h
    · rename_i cause' hcause
      cases h
      exact hcause
    · split at h <;> cases h

/-- On a coherent machine every set that separation leaves has a class. -/
theorem Attempt.ofProgram_of_coherent (hm : m.Coherent) (hends : p.EndsInRange) (hasks : p.AsksWithin m)
    (number group : Nat) (classes : List String) :
    (ofProgram m p number).2 ≠ .error (.defect (.noSharedClass group classes)) := by
  intro h
  obtain ⟨set, hset, id, hdefect⟩ := Groups.exists_of_ofPartition_error (ofPartition_of_defect h)
  obtain ⟨c, others, hrequested, hnarrow⟩ := Group.narrow_of_noSharedClass hdefect
  -- separation and the reset before it leave the uses as they are
  have same : Group.requestedClasses (p.resetSplits.separate m p.resetSplits.joinedSets).program set =
      Group.requestedClasses p.resetSplits set := by
    rw [Group.requestedClasses, Group.requestedClasses]
    simp only [Program.use?, Program.uses_separate]
  have reset : p.resetSplits.AsksWithin m := hasks
  have ends : p.resetSplits.EndsInRange := hends.mapStates _
  have compatible := Program.compatible_separate ends hset
  rw [same] at hrequested
  rw [hrequested] at compatible
  obtain ⟨e, he⟩ := Group.exists_narrow hm
    (fun b hb => reset.lt_of_mem_requestedClasses (hrequested ▸ hb)) compatible
  rw [hnarrow] at he
  cases he

end

/-! ## Three uses in a row -/

/-- Three uses that ask for the given classes, linked one after the other. -/
def triad (a b c : ClassId) : Program where
  functions := #["f"]
  uses := #[⟨0, .operand, 0, some a, 1, none, false⟩, ⟨0, .operand, 1, some b, 1, none, false⟩,
    ⟨0, .operand, 2, some c, 1, none, false⟩]
  linkages := #[⟨0, 1, .active⟩, ⟨1, 2, .active⟩]

section

variable {m : Machine} {a b c s : ClassId}

theorem endsInRange_triad (a b c : ClassId) : (triad a b c).EndsInRange := by
  show ∀ k ∈ (#[⟨0, 1, .active⟩, ⟨1, 2, .active⟩] : Array Linkage), k.first < 3 ∧ k.second < 3
  decide

/-- The three uses are joined. -/
theorem joinedSets_triad (a b c : ClassId) : (triad a b c).joinedSets.sets = [[0, 1, 2]] := by
  have linkages : (triad a b c).joiningLinkages = [⟨0, 1, .active⟩, ⟨1, 2, .active⟩] := rfl
  have uses : (triad a b c).usesInPlay = [0, 1, 2] := rfl
  have size : (triad a b c).uses.size = 3 := rfl
  rw [Program.joinedSets, linkages, uses, size]
  decide +kernel

/-- Three uses that ask for compatible classes do not conflict. -/
theorem conflictPairs_triad (hab : m.Compatible a b) (hac : m.Compatible a c) (hbc : m.Compatible b c) :
    (triad a b c).conflictPairs m [0, 1, 2] = [] := by
  have first : (triad a b c).conflict m 0 1 = false := by
    show ((m.largestWithin? a b).isNone || false) = false
    rw [Option.isNone_eq_false_iff.mpr hab, Bool.or_false]
  have second : (triad a b c).conflict m 0 2 = false := by
    show ((m.largestWithin? a c).isNone || false) = false
    rw [Option.isNone_eq_false_iff.mpr hac, Bool.or_false]
  have third : (triad a b c).conflict m 1 2 = false := by
    show ((m.largestWithin? b c).isNone || false) = false
    rw [Option.isNone_eq_false_iff.mpr hbc, Bool.or_false]
  simp [Program.conflictPairs, first, second, third]

/-- Three uses cannot be a group where the first two classes are narrowed to one that is not compatible with
the third. -/
theorem ofPartition_triad (hs : m.largestWithin? a b = some s) (hsc : ¬ m.Compatible s c) :
    Groups.ofPartition m (triad a b c) ⟨[[0, 1, 2]]⟩ =
      .error (.noSharedClass 0 (Group.squeeze ([a, b, c].map m.className))) := by
  have narrowed : Group.narrow m a [b, c] = none := by
    rw [Group.narrow, List.foldlM_cons, hs]
    show (m.largestWithin? s c).bind some = none
    rw [Option.not_isSome_iff_eq_none.mp hsc, Option.bind_none]
  have group : Group.ofUses m (triad a b c) 0 [0, 1, 2] =
      .error (.noSharedClass 0 (Group.squeeze ([a, b, c].map m.className))) := by
    rw [Group.ofUses, show Group.requestedClasses (triad a b c) [0, 1, 2] = [a, b, c] from rfl]
    simp only [narrowed]
    rfl
  simp [Groups.ofPartition, group]

/-- Separation leaves such uses together where their classes are compatible, and the attempt fails. -/
theorem ofProgram_triad (hs : m.largestWithin? a b = some s) (hac : m.Compatible a c)
    (hbc : m.Compatible b c) (hsc : ¬ m.Compatible s c) :
    (Attempt.ofProgram m (triad a b c) 1).2 =
      .error (.defect (.noSharedClass 0 (Group.squeeze ([a, b, c].map m.className)))) := by
  have hab : m.Compatible a b := Option.isSome_of_eq_some hs
  have reset : (triad a b c).resetSplits = triad a b c := rfl
  have peace : ∀ set ∈ (triad a b c).joinedSets.sets, (triad a b c).conflictPairs m set = [] := by
    rw [joinedSets_triad]
    exact fun set hset => List.mem_singleton.mp hset ▸ conflictPairs_triad hab hac hbc
  obtain ⟨program, partition⟩ := Program.separate_of_peace peace
  have sets : Partition.ofSets [[0, 1, 2]] = ⟨[[0, 1, 2]]⟩ := by decide +kernel
  rw [Attempt.ofProgram_eq (endsInRange_triad a b c) (by decide : 2 < 2 ^ 32), reset, program, partition,
    joinedSets_triad, sets, ofPartition_triad hs hsc]

end

/-- Separation never leaves two uses together that conflict. It leaves a class for every set, on every program
with its ends and classes in range, if and only if the machine is coherent. -/
theorem shared_class_iff_coherent (m : Machine) :
    (∀ p : Program, p.EndsInRange → ∀ set ∈ (p.separate m p.joinedSets).partition.sets,
        ∀ u ∈ set, ∀ v ∈ set, u ≠ v → p.conflict m u v = false) ∧
      ((∀ p : Program, p.EndsInRange → p.AsksWithin m → ∀ number group classes,
          (Attempt.ofProgram m p number).2 ≠ .error (.defect (.noSharedClass group classes))) ↔
        m.Coherent) := by
  refine ⟨fun p hends set hset u hu v hv => Program.conflict_separate hends hset hu hv, ?_, ?_⟩
  · intro h a ha b hb c hc s hs hac hbc
    by_contra hsc
    refine h (triad a b c) (endsInRange_triad a b c) ?_ 1 0 _ (ofProgram_triad hs hac hbc hsc)
    simpa [Program.AsksWithin, triad] using ⟨List.mem_range.mp ha, List.mem_range.mp hb, List.mem_range.mp hc⟩
  · intro hm p hends hasks number group classes
    exact Attempt.ofProgram_of_coherent hm hends hasks number group classes

/-- The built-in AVR is coherent, so that it has a class for every set that separation leaves. -/
theorem shared_class_avr :
    ∃ m, Builtin.avrMachine = .ok m ∧ m.Coherent ∧
      ∀ p : Program, p.EndsInRange → p.AsksWithin m → ∀ number group classes,
        (Attempt.ofProgram m p number).2 ≠ .error (.defect (.noSharedClass group classes)) := by
  have computed : (Builtin.avrMachine.map fun m => decide m.Coherent) = .ok true := by
    decide +kernel
  cases h : Builtin.avrMachine with
  | error e =>
    rw [h] at computed
    cases computed
  | ok m =>
    rw [h] at computed
    have coherent : m.Coherent := of_decide_eq_true (Except.ok.inj computed)
    exact ⟨m, rfl, coherent, (shared_class_iff_coherent m).2.mpr coherent⟩

/-! ## Three registers in a ring -/

/-- Three registers that share storage with each other, with a class for each of them and for each two. -/
def ring : MachineDescription where
  name := "ring"
  registers := [⟨"x", ["y", "z"]⟩, ⟨"y", ["z"]⟩, ⟨"z", []⟩]
  classes := [⟨"xy", 1, ["x", "y"]⟩, ⟨"yz", 1, ["y", "z"]⟩, ⟨"xz", 1, ["x", "z"]⟩, ⟨"x", 1, ["x"]⟩,
    ⟨"y", 1, ["y"]⟩, ⟨"z", 1, ["z"]⟩]

/-- The machine with three registers in a ring. -/
def ringMachine : Machine :=
  (Machine.ofDescription ring).toOption.getD default

/-- Each two of the three larger classes have a class in common, and all three have none. So three uses that ask
for them are left together and cannot be a group. -/
theorem noSharedClass_ring :
    Machine.ofDescription ring = .ok ringMachine ∧ (triad 0 1 2).EndsInRange ∧
      (triad 0 1 2).AsksWithin ringMachine ∧ (Attempt.ofProgram ringMachine (triad 0 1 2) 1).2 =
        .error (.defect (.noSharedClass 0 ["xy", "yz", "xz"])) := by
  have narrowed : ringMachine.largestWithin? 0 1 = some 4 := by decide +kernel
  have classes : Group.squeeze ([0, 1, 2].map ringMachine.className) = ["xy", "yz", "xz"] := by
    decide +kernel
  refine ⟨rfl, endsInRange_triad 0 1 2, by decide +kernel, ?_⟩
  rw [ofProgram_triad narrowed (by decide +kernel) (by decide +kernel) (by decide +kernel), classes]

end RegisterColoring
