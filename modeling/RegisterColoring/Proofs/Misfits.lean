import RegisterColoring.Proofs.Frame
import RegisterColoring.Proofs.Rules
import RegisterColoring.Proofs.Singles

/-! # Groups that do not fit their class

A group that nothing blocks and that goes without registers all the same is said not to fit its class, and
makes the allocation fail or goes to memory. Registers are picked one by one, and a pick is never taken back.
So all that this shows is that some picks leave no register of the class to add and are fewer than the group
needs. Where all such picks are equally many, no others would have been enough.

* `Machine.Selects`, `Machine.Saturates`: registers of a class that share no storage, and such that no other
  can be added.
* `Machine.Uniform`: all registers of a class that saturate it are equally many.
* `Machine.FallsShort`: what it means that a class has too few registers.
* `exists_saturates_of_pickRegisters`: picks that end too early saturate what is available.
* `Attempt.fallsShort_of_helpless`: groups that nothing blocks.
* `fallsShort_of_misfit`: what a failed allocation and an eviction say of a class.
* `doesNotFit_overlay`: a class that is said to be too small and is not. -/

namespace RegisterColoring

/-! ## Registers of a class -/

namespace Machine

/-- Whether registers are of a class and no two of them share storage. -/
structure Selects (m : Machine) (c : ClassId) (rs : List RegisterId) : Prop where
  /-- They are of the class. -/
  mem_class : ∀ r ∈ rs, r ∈ m.members c
  /-- No two of them share storage. -/
  apart : rs.Pairwise fun r q => ¬ m.Overlap r q

/-- Whether such registers leave no other one of the class that could be added. -/
structure Saturates (m : Machine) (c : ClassId) (rs : List RegisterId) : Prop extends m.Selects c rs where
  /-- Every register of the class shares storage with one of them. -/
  overlaps : ∀ q ∈ m.members c, ∃ r ∈ rs, m.Overlap r q

/-- Whether all registers that saturate a class are equally many. -/
def Uniform (m : Machine) (c : ClassId) : Prop :=
  ∀ rs qs, m.Saturates c rs → m.Saturates c qs → rs.length = qs.length

/-- Whether a class has too few registers for those who pick one after the other: some that saturate it are
fewer than are needed, and where these are as many as any, no registers of the class are enough. -/
structure FallsShort (m : Machine) (c : ClassId) (needed : Nat) : Prop where
  /-- Fewer registers saturate the class. -/
  saturated : ∃ rs, m.Saturates c rs ∧ rs.length < needed
  /-- A uniform class has no selection of so many registers. -/
  selected : m.Uniform c → ∀ rs, m.Selects c rs → rs.length < needed

variable {m : Machine} {c : ClassId} {needed : Nat}

/-- Registers without shared storage can be completed by others until they saturate their class. -/
theorem Selects.exists_saturates (hm : m.Consistent) {rs : List RegisterId} (h : m.Selects c rs) :
    ∃ more, m.Saturates c (more ++ rs) := by
  -- register by register of the class, adding one whenever it shares no storage with those before
  have complete : ∀ l : List RegisterId, (∀ q ∈ l, q ∈ m.members c) →
      ∃ more, m.Selects c (more ++ rs) ∧ ∀ q ∈ l, ∃ r ∈ more ++ rs, m.Overlap r q := by
    intro l hl
    induction l with
    | nil => exact ⟨[], h, by simp⟩
    | cons q l ih =>
      obtain ⟨hq, hl⟩ := List.forall_mem_cons.mp hl
      obtain ⟨more, hmore, hover⟩ := ih hl
      by_cases hfree : ∃ r ∈ more ++ rs, m.Overlap r q
      · exact ⟨more, hmore, List.forall_mem_cons.mpr ⟨hfree, hover⟩⟩
      · have hself : m.Overlap q q := .inl (hm.mem_aliases_self q (hm.lt_of_mem_members c q hq))
        refine ⟨q :: more, ⟨?_, ?_⟩, ?_⟩
        · exact List.forall_mem_cons.mpr ⟨hq, hmore.mem_class⟩
        · exact List.pairwise_cons.mpr ⟨fun r hr hqr => hfree ⟨r, hr, hqr.symm⟩, hmore.apart⟩
        · refine List.forall_mem_cons.mpr ⟨⟨q, List.mem_cons_self, hself⟩, fun x hx => ?_⟩
          obtain ⟨r, hr, hrx⟩ := hover x hx
          exact ⟨r, List.mem_cons_of_mem q hr, hrx⟩
  obtain ⟨more, hmore, hover⟩ := complete (m.members c).toList fun q => RegisterSet.mem_toList.mp
  exact ⟨more, hmore, fun q hq => hover q (RegisterSet.mem_toList.mpr hq)⟩

/-- A class that fewer registers saturate falls short. -/
theorem Saturates.fallsShort (hm : m.Consistent) {rs : List RegisterId} (h : m.Saturates c rs)
    (hlt : rs.length < needed) : m.FallsShort c needed := by
  refine ⟨⟨rs, h, hlt⟩, fun huniform qs hqs => ?_⟩
  obtain ⟨more, hmore⟩ := hqs.exists_saturates hm
  have hlength := huniform _ _ hmore h
  rw [List.length_append] at hlength
  omega

/-- Where registers that share storage with the same one share storage with each other, a class is uniform:
the registers of one saturating list are matched with those of another one that they share storage with. -/
theorem uniform_of_trans (htrans : ∀ x ∈ m.members c, ∀ y ∈ m.members c, ∀ z ∈ m.members c,
    m.Overlap x y → m.Overlap y z → m.Overlap x z) : m.Uniform c := by
  have matched : ∀ rs qs, m.Saturates c rs → m.Saturates c qs → rs.length ≤ qs.length := by
    intro rs qs hrs hqs
    have partner : ∀ r ∈ rs, ∃ q ∈ qs, m.Overlap q r := fun r hr => hqs.overlaps r (hrs.mem_class r hr)
    choose! f hf hover using partner
    have apart : (rs.map f).Nodup := by
      refine List.pairwise_map.mpr (hrs.apart.imp_of_mem fun {r r'} hr hr' hapart heq => hapart ?_)
      have hmem := fun r hr => hqs.mem_class (f r) (hf r hr)
      exact htrans r (hrs.mem_class r hr) (f r) (hmem r hr) r' (hrs.mem_class r' hr') (hover r hr).symm
        (heq ▸ hover r' hr')
    have hsub : rs.map f ⊆ qs := by
      intro q hq
      obtain ⟨r, hr, rfl⟩ := List.mem_map.mp hq
      exact hf r hr
    rw [← List.length_map f]
    exact (apart.subperm hsub).length_le
  exact fun rs qs hrs hqs => Nat.le_antisymm (matched rs qs hrs hqs) (matched qs rs hqs hrs)

end Machine

/-! ## Picking one register after the other -/

/-- When picks come to an end too early, nothing is left to pick: they saturate what was available. -/
theorem exists_saturates_of_pickRegisters {m : Machine} {waiting : List Waiting} {count : Nat}
    {available : RegisterSet} (h : pickRegisters m waiting count available = none) :
    ∃ rs : List RegisterId, rs.length < count ∧ (∀ r ∈ rs, r ∈ available) ∧
      (rs.Pairwise fun r q => q ∉ m.aliases r) ∧ ∀ q ∈ available, ∃ r ∈ rs, q ∈ m.aliases r := by
  induction count generalizing available with
  | zero => cases h
  | succ count ih =>
    rw [pickRegisters] at h
    split at h
    · rename_i r hr
      obtain ⟨rs, hlength, hmem, hpairwise, hover⟩ := ih (Option.map_eq_none_iff.mp h)
      refine ⟨r :: rs, Nat.succ_lt_succ hlength, ?_, ?_, fun q hq => ?_⟩
      · exact List.forall_mem_cons.mpr
          ⟨mem_of_bestRegister? hr, fun q hq => (RegisterSet.mem_sdiff.mp (hmem q hq)).1⟩
      · exact .cons (fun q hq => (RegisterSet.mem_sdiff.mp (hmem q hq)).2) hpairwise
      · by_cases hqr : q ∈ m.aliases r
        · exact ⟨r, List.mem_cons_self, hqr⟩
        · obtain ⟨x, hx, hqx⟩ := hover q (RegisterSet.mem_sdiff.mpr ⟨hq, hqr⟩)
          exact ⟨x, List.mem_cons_of_mem r hx, hqx⟩
    · rename_i hbest
      refine ⟨[], Nat.succ_pos count, by simp, .nil, fun q hq => ?_⟩
      obtain ⟨r, hr⟩ := exists_bestRegister? m waiting hq
      rw [hbest] at hr
      cases hr

/-- A group that went without registers although nothing of its class is blocked is of a class that falls
short. -/
theorem fallsShort_of_registersFor? {m : Machine} (hm : m.Consistent) {groups : Groups}
    {graph : Interference} {a : Assignment} {g : GroupId}
    (hfree : ∀ r ∈ m.members (groups.get g).classId, r ∉ blockedFor m graph a g)
    (h : registersFor? m groups graph a g = none) :
    m.FallsShort (groups.get g).classId (groups.get g).registers := by
  obtain ⟨rs, hlength, hmem, hpairwise, hover⟩ := exists_saturates_of_pickRegisters h
  refine Machine.Saturates.fallsShort hm ⟨⟨fun r hr => ?_, ?_⟩, fun q hq => ?_⟩ hlength
  · exact (RegisterSet.mem_sdiff.mp (hmem r hr)).1
  · exact hpairwise.imp fun hrq hover => hrq (hm.overlap_iff.mp hover)
  · obtain ⟨r, hr, hqr⟩ := hover q (RegisterSet.mem_sdiff.mpr ⟨hq, hfree q hq⟩)
    exact ⟨r, hr, .inl hqr⟩

/-! ## Attempts and runs -/

section

variable {m : Machine} {settings : Settings} {limit remaining number : Nat} {p q : Program} {a : Attempt}

/-- A group that went without registers and has no way out is of a class that falls short: nothing was blocked
for it at its turn. -/
theorem Attempt.fallsShort_of_helpless (hm : m.Consistent) (hsound : a.Sound m q) {g : GroupId}
    (hg : g ∈ (a.trial m).uncolored)
    (hways : waysOut m a.groups a.graph (a.trial m).coloring.assignment g = []) :
    m.FallsShort (a.groups.get g).classId (a.groups.get g).registers := by
  obtain ⟨before, later, hturns, hnone⟩ := exists_turn_of_mem_uncolored hg
  refine fallsShort_of_registersFor? hm (fun r hr hblocked => ?_) hnone
  have hassignment : (a.trial m).coloring.assignment = (colorInOrder m a.groups a.graph
      (before ++ g :: later) (.none a.groups)).assignment := by
    rw [← hturns]
    rfl
  rw [hassignment] at hways
  rw [hsound.graph_eq] at hways hblocked
  exact (waysOut_eq_nil_iff hm).mp hways r hr (mem_blockedFor_append hm (hturns ▸ a.nodup_turns m) hblocked)

/-- How the allocation came to fail for a group that does not fit its class. -/
theorem exists_of_doesNotFit {function kind operation className needed capacity}
    (h : (allocateFrom m settings limit remaining number p).result =
      .error (.doesNotFit function kind operation className needed capacity)) :
    ∃ p' number' q a, p.Keeps p' ∧ Attempt.ofProgram m p' number' = (q, .ok a) ∧
      (a.trial m).revision m q settings =
        .error (.doesNotFit function kind operation className needed capacity) := by
  fun_induction allocateFrom m settings limit remaining number p with
  | case1 number p => cases h
  | case2 remaining number p q e hattempt =>
    obtain rfl := Except.error.inj h
    rcases Attempt.ofProgram_cases hattempt with ⟨f, hf⟩ | ⟨cause, hcause⟩ | ⟨s, groups, -, -, -, -, hok⟩
    · cases hf
    · cases hcause
    · cases hok
  | case3 remaining number p q a hattempt t hcolored => cases h
  | case4 remaining number p q a hattempt t hcolored e hrevision =>
    obtain rfl := Except.error.inj h
    exact ⟨p, number, q, a, .refl p, hattempt, hrevision⟩
  | case5 remaining number p q a hattempt t hcolored r hrevision hempty => cases h
  | case6 remaining number p q a hattempt t hcolored r hrevision hempty ih =>
    obtain ⟨p', number', q', a', hkeeps, hlast⟩ := ih h
    have revised := Program.keeps_revise (Attempt.sound_of_ofProgram hattempt).1 hrevision
    exact ⟨p', number', q', a', ((Attempt.keeps_ofProgram hattempt).trans revised).trans hkeeps, hlast⟩

end

/-- What the error for a group that does not fit its class says. -/
theorem misfit_eq_doesNotFit {m : Machine} {p : Program} {groups : Groups} {g : GroupId}
    {function kind operation className needed capacity}
    (h : misfit m p groups g = .doesNotFit function kind operation className needed capacity) :
    m.className (groups.get g).classId = className ∧ (groups.get g).registers = needed ∧
      m.capacity (groups.get g).classId = capacity := by
  rw [misfit] at h
  split at h
  · rename_i e hnamed
    obtain ⟨use, -, hnamed⟩ := bind_eq_ok.mp hnamed
    obtain ⟨name, -, hnamed⟩ := bind_eq_ok.mp hnamed
    cases hnamed
    cases h
    exact ⟨rfl, rfl, rfl⟩
  · cases h

/-- Programs keep asking for classes of the machine. -/
theorem Program.AsksWithin.of_keeps {m : Machine} {p q : Program} (hp : p.AsksWithin m) (h : p.Keeps q) :
    q.AsksWithin m := by
  intro use huse c hc
  obtain ⟨before, hbefore, moved, rfl⟩ := h.exists_use huse
  exact hp before hbefore c hc

/-- When an allocation fails because a group does not fit its class, and when a group goes to memory, the
class falls short of what the group needs. -/
theorem fallsShort_of_misfit {d : MachineDescription} {m : Machine} (hm : Machine.ofDescription d = .ok m)
    (settings : Settings) {p : Program} (hp : p.AsksWithin m) :
    (∀ function kind operation className needed capacity, (allocate m settings p).result =
        .error (.doesNotFit function kind operation className needed capacity) →
      ∃ c, m.classNamed? className = some c ∧ m.capacity c = capacity ∧ m.FallsShort c needed) ∧
    ∀ round ∈ (allocate m settings p).rounds, ∀ r, round.ending = .revised r → ∀ g ∈ r.evicted,
      m.FallsShort (round.trial.attempt.groups.get g).classId
        (round.trial.attempt.groups.get g).registers := by
  have hconsistent := Machine.consistent_of_ofDescription hm
  constructor
  · intro function kind operation className needed capacity h
    obtain ⟨p', number, q, a, hkeeps, hattempt, hrevision⟩ := exists_of_doesNotFit h
    obtain ⟨hsound, -, -⟩ := Attempt.sound_of_ofProgram hattempt
    rcases Revision.choose_eq_error hrevision with ⟨_, -, -, hfault⟩ | ⟨g, hg, hways, -, he⟩
    · cases hfault
    · obtain ⟨hname, hneeded, hcapacity⟩ := misfit_eq_doesNotFit he.symm
      have hclass := Attempt.class_lt (hp.of_keeps hkeeps) hattempt (Attempt.lt_of_mem_uncolored hg)
      refine ⟨(a.groups.get g).classId, ?_, hcapacity, ?_⟩
      · rw [← hname]
        exact Machine.classNamed?_className hm hclass
      · rw [← hneeded]
        exact Attempt.fallsShort_of_helpless hconsistent hsound hg hways
  · intro round hround r hending g hg
    obtain ⟨q, a, hattempt, htrial, -, hrevision⟩ := exists_of_mem_rounds hround hending
    obtain ⟨hsound, -, -⟩ := Attempt.sound_of_ofProgram hattempt
    obtain ⟨huncolored, hways⟩ := Revision.helpless_of_mem_evicted hrevision hg
    rw [htrial]
    exact Attempt.fallsShort_of_helpless hconsistent hsound huncolored hways

/-- The use of `contended` that needs two words does not fit the class of the only word. -/
theorem fallsShort_of_misfit_contended :
    contended.AsksWithin bytePairMachine ∧
      (allocate bytePairMachine {} contended).result = .error (.doesNotFit "f" .temp 3 "word" 2 1) ∧
      bytePairMachine.FallsShort 1 2 ∧ ∀ rs, bytePairMachine.Selects 1 rs → rs.length < 2 := by
  have hp : contended.AsksWithin bytePairMachine := by decide
  have result : (allocate bytePairMachine {} contended).result =
      .error (.doesNotFit "f" .temp 3 "word" 2 1) := by
    decide +kernel
  obtain ⟨c, hc, -, short⟩ := (fallsShort_of_misfit ofDescription_bytePair {} hp).1 _ _ _ _ _ _ result
  have named : bytePairMachine.classNamed? "word" = some 1 := by decide +kernel
  obtain rfl := Option.some.inj (named.symm.trans hc)
  refine ⟨hp, result, short, short.selected (Machine.uniform_of_trans fun x hx y _ z hz _ _ => ?_)⟩
  have only : ∀ r ∈ bytePairMachine.members 1, r = 2 := fun r hr =>
    List.mem_singleton.mp (RegisterSet.mem_toList.mpr hr)
  rw [only x hx, only z hz]
  decide

/-! ## A word over two bytes in one class -/

/-- A word that overlays two bytes, with one class for all three. -/
def overlay : MachineDescription where
  name := "overlay"
  registers := [⟨"w", ["a", "b"]⟩, ⟨"a", []⟩, ⟨"b", []⟩]
  classes := [⟨"any", 1, ["w", "a", "b"]⟩]

/-- The machine with one class for a word and its two bytes. -/
def overlayMachine : Machine :=
  (Machine.ofDescription overlay).toOption.getD default

/-- A use that needs two registers. -/
def pairOnly : Program where
  functions := #["f"]
  uses := #[⟨0, .temp, 0, some 0, 2, none, false⟩]

/-- The class of a word and its two bytes has two registers that share no storage. Still it is said not to
hold a pair, and the use that needs one goes to memory where that is allowed: the word comes first, and takes
both bytes with it. -/
theorem doesNotFit_overlay :
    Machine.ofDescription overlay = .ok overlayMachine ∧ pairOnly.AsksWithin overlayMachine ∧
      overlayMachine.Selects 0 [1, 2] ∧
      (allocate overlayMachine {} pairOnly).result = .error (.doesNotFit "f" .temp 0 "any" 2 3) ∧
      (allocate overlayMachine { spillUnallocatable := true } pairOnly).result = .ok #[.memory] := by
  exact ⟨rfl, by decide, ⟨by decide, by decide⟩, by decide +kernel, by decide +kernel⟩

end RegisterColoring
