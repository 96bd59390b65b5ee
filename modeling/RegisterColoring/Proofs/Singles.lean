import RegisterColoring.Proofs.Certainty
import RegisterColoring.Proofs.Legality
import RegisterColoring.Proofs.Progress
import RegisterColoring.Proofs.Separation

/-! # Programs whose uses need one register each

A group that needs one register goes without only if its neighbours block every register of its class, and
behind each of these neighbours are linkages that can be broken. So an attempt on such a program always
leaves something to break, and allocation goes on until every use has its register, unless the classes of
joined uses have no class in common.

* `Program.Single`: every use needs one register of a class of the machine, and none is in memory.
* `Program.Single.error_ofProgram`: the only defect that such a program has.
* `waysOut_eq_nil_iff`, `waysOut_ne_nil`: a group has a way out if neighbours block a register of its class, and so
  it has one if it goes without.
* `Program.Single.next`: a revision keeps such a program one of its kind.
* `allocate_single`: how the allocation of such a program ends.
* `outOfAttempts_uncountable`: unless it is too large for its attempts to be counted. -/

namespace RegisterColoring

/-! ## Groups of such a program -/

namespace Program

/-- Whether every use needs one register of a class of the machine and does not live in memory, and every
linkage joins two uses. -/
structure Single (m : Machine) (p : Program) : Prop where
  /-- The ends of linkages are uses of the program. -/
  ends : p.EndsInRange
  /-- Every use asks for a class of the machine. -/
  asks : ∀ use ∈ p.uses, ∃ c ∈ use.class?, c < m.classCount
  /-- Every use needs one register. -/
  one : ∀ use ∈ p.uses, use.registers = 1
  /-- No use is in memory. -/
  inPlay : ∀ use ∈ p.uses, use.inMemory = false

variable {m : Machine} {p q : Program} {u : UseId}

/-- What is asked of the uses stays true as long as the uses stay the same. -/
theorem Single.of_uses_eq (hp : p.Single m) (hends : q.EndsInRange) (huses : q.uses = p.uses) :
    q.Single m where
  ends := hends
  asks := huses ▸ hp.asks
  one := huses ▸ hp.one
  inPlay := huses ▸ hp.inPlay

/-- Every use is in play. -/
theorem Single.mem_usesInPlay (hp : p.Single m) (hu : u < p.uses.size) : u ∈ p.usesInPlay := by
  rw [Program.mem_usesInPlay, isInMemory, use?, Array.getElem?_eq_getElem hu]
  exact ⟨hu, hp.inPlay _ (Array.getElem_mem hu)⟩

/-- The use at a position that is in play. -/
theorem exists_use?_of_mem_usesInPlay (hu : u ∈ p.usesInPlay) :
    ∃ use ∈ p.uses, p.use? u = some use := by
  have hlt := (Program.mem_usesInPlay.mp hu).1
  exact ⟨p.uses[u], Array.getElem_mem hlt, Array.getElem?_eq_getElem hlt⟩

/-- Whether all classes that uses ask for are classes of the machine. -/
def AsksWithin (m : Machine) (p : Program) : Prop :=
  ∀ use ∈ p.uses, ∀ c ∈ use.class?, c < m.classCount

instance (m : Machine) (p : Program) : Decidable (p.AsksWithin m) :=
  inferInstanceAs (Decidable (∀ use ∈ p.uses, _))

theorem AsksWithin.lt_of_mem_requestedClasses (hp : p.AsksWithin m) {members : List UseId} {c : ClassId}
    (hc : c ∈ Group.requestedClasses p members) : c < m.classCount := by
  obtain ⟨u, -, hu⟩ := List.mem_filterMap.mp hc
  obtain ⟨use, huse, hclass⟩ := Option.bind_eq_some_iff.mp hu
  exact hp use (Array.mem_of_getElem? huse) c hclass

theorem Single.asksWithin (hp : p.Single m) : p.AsksWithin m := by
  intro use huse c hc
  obtain ⟨c', hc', hlt⟩ := hp.asks use huse
  obtain rfl : c = c' := Option.some.inj (hc.symm.trans hc')
  exact hlt

/-- A set that is not empty asks for a class. -/
theorem Single.requestedClasses_ne_nil (hp : p.Single m) {members : List UseId}
    (hu : u ∈ members) (huse : u ∈ p.usesInPlay) : Group.requestedClasses p members ≠ [] := by
  obtain ⟨use, hmem, hget⟩ := exists_use?_of_mem_usesInPlay huse
  obtain ⟨c, hc, -⟩ := hp.asks use hmem
  refine List.ne_nil_of_mem (a := c) (List.mem_filterMap.mpr ⟨u, hu, ?_⟩)
  rw [hget]
  exact hc

/-- No set of uses asks for two numbers of registers. -/
theorem Single.length_requestedCounts (hp : p.Single m) (members : List UseId) :
    ¬ (Group.requestedCounts p members).length > 1 := by
  have ones : ∀ k ∈ members.filterMap fun u => (p.use? u).map Use.registers, k = 1 := by
    intro k hk
    obtain ⟨u, -, hu⟩ := List.mem_filterMap.mp hk
    obtain ⟨use, huse, rfl⟩ := Option.map_eq_some_iff.mp hu
    exact hp.one use (Array.mem_of_getElem? huse)
  rw [Group.requestedCounts]
  generalize (members.filterMap fun u => (p.use? u).map Use.registers) = counts at ones
  cases counts with
  | nil => simp
  | cons k counts =>
    -- what follows the first number is the same number, and drops out
    have hnil : counts.filter (fun k' => !k' == k) = [] := by
      rw [List.filter_eq_nil_iff]
      intro k' hk'
      rw [ones k' (List.mem_cons_of_mem k hk'), ones k List.mem_cons_self]
      simp
    rw [List.eraseDups_cons, hnil]
    simp

end Program

/-- A narrowed class is a class of the machine if the class that it was narrowed from is one. -/
theorem Group.lt_of_narrow {m : Machine} {c e : ClassId} {others : List ClassId}
    (h : narrow m c others = some e) (hc : c < m.classCount) : e < m.classCount := by
  induction others generalizing c with
  | nil =>
    obtain rfl : c = e := Option.some.inj h
    exact hc
  | cons b others ih =>
    rw [narrow, List.foldlM_cons] at h
    obtain ⟨a, ha, h⟩ := Option.bind_eq_some_iff.mp h
    exact ih h (List.mem_range.mp (List.mem_of_mem_filter (leastBy?_mem ha)))

/-- The groups of a program that asks for classes of the machine have classes of the machine. -/
theorem Groups.class_lt_of_ofPartition {m : Machine} {p : Program} (hp : p.AsksWithin m) {part : Partition}
    {groups : Groups} (h : ofPartition m p part = .ok groups) {g : GroupId} (hg : g < groups.size) :
    (groups.get g).classId < m.classCount := by
  obtain ⟨hsize, hsets⟩ := ofUses_of_ofPartition h
  have hset := List.getElem?_eq_getElem (hsize ▸ hg)
  obtain ⟨b, others, c, hrequested, hnarrow, -, hgroup⟩ := Group.ofUses_eq_ok (hsets g _ hset)
  -- the class was narrowed from one that the program asks for
  rw [hgroup]
  exact Group.lt_of_narrow hnarrow (hp.lt_of_mem_requestedClasses (hrequested ▸ List.mem_cons_self))

/-- So have the groups of an attempt. -/
theorem Attempt.class_lt {m : Machine} {p q : Program} {number : Nat} {a : Attempt} (hp : p.AsksWithin m)
    (h : ofProgram m p number = (q, .ok a)) {g : GroupId} (hg : g < a.groups.size) :
    (a.groups.get g).classId < m.classCount := by
  have hsep : (p.resetSplits.separate m p.resetSplits.joinedSets).program.AsksWithin m := by
    rw [Program.AsksWithin, Program.uses_separate]
    exact hp
  exact Groups.class_lt_of_ofPartition hsep (ofPartition_of_ofProgram h) hg

/-- Uses that ask for a class and for one number of registers fail to be a group only for want of a shared
class. -/
theorem Group.ofUses_eq_error {m : Machine} {p : Program} {id : GroupId} {members : List UseId}
    {cause : GroupDefect} (hclasses : requestedClasses p members ≠ [])
    (hcounts : ¬ (requestedCounts p members).length > 1) (h : ofUses m p id members = .error cause) :
    ∃ classes, cause = .noSharedClass id classes := by
  rw [ofUses] at h
  simp only [if_neg hcounts] at h
  split at h
  · rename_i hnil
    exact absurd hnil hclasses
  · split at h
    · cases h
    · cases h
      exact ⟨_, rfl⟩

/-! ## One attempt -/

section

variable {m : Machine} {p q : Program} {number : Nat}

/-- Making split linkages active again keeps a program of single uses one. -/
theorem Program.Single.resetSplits (hp : p.Single m) : p.resetSplits.Single m :=
  hp.of_uses_eq (hp.ends.mapStates _) rfl

/-- So does separation. -/
theorem Program.Single.separate (hp : p.Single m) (part : Partition) :
    (p.separate m part).program.Single m :=
  hp.of_uses_eq (hp.ends.separate m part) (Program.uses_separate m part)

/-- An attempt on a program of single uses fails to form its groups only for want of a shared class. -/
theorem Program.Single.error_ofProgram (hp : p.Single m) (hsize : p.linkages.size < 2 ^ 32)
    {e : AllocationError} (h : Attempt.ofProgram m p number = (q, .error e)) :
    ∃ group classes, e = .defect (.noSharedClass group classes) := by
  have hsep := hp.resetSplits.separate (m := m) p.resetSplits.joinedSets
  rw [Attempt.ofProgram_eq hp.ends hsize] at h
  obtain ⟨-, h⟩ := Prod.mk.inj h
  split at h
  · rename_i cause hcause
    cases h
    -- the set that is no group asks for classes, and for one register
    obtain ⟨set, hset, id, hdefect⟩ := Groups.exists_of_ofPartition_error hcause
    obtain ⟨u, hu, hiff⟩ := (Program.sortedBy_separate m p.resetSplits).mem_iff set hset
    obtain ⟨classes, rfl⟩ := Group.ofUses_eq_error
      (hsep.requestedClasses_ne_nil ((hiff u).mpr ⟨hu, rfl⟩) hu) (hsep.length_requestedCounts set)
      hdefect
    exact ⟨id, classes, rfl⟩
  · cases h

/-- Behind every neighbour of a group there is a linkage. -/
theorem Interference.exists_mem_linkagesBehind {groups : Groups} {x y : GroupId}
    (h : y ∈ (Interference.ofGroups p groups).neighbors x) :
    ∃ l, l ∈ (Interference.ofGroups p groups).linkagesBehind x y := by
  obtain ⟨hx, hy, c, hc, hfirst, hsecond⟩ := mem_neighbors_iff.mp h
  exact ⟨c.intrusion.linkage,
    mem_linkagesBehind_iff.mpr ⟨max_lt hx hy, c, hc, hfirst, hsecond, rfl⟩⟩

/-- A linkage behind a neighbour that blocks a register is on the way out by that register. -/
theorem mem_wayOut (hm : m.Consistent) {graph : Interference} {a : Assignment} {g n : GroupId}
    {r s : RegisterId} {l : LinkageId} (hn : n ∈ graph.neighbors g) (hs : s ∈ a.heldBy n)
    (hrs : r ∈ m.aliases s) (hl : l ∈ graph.linkagesBehind g n) :
    l ∈ wayOut graph g (blockers m graph a g) r := by
  have blocks : ⟨n, m.aliasesOfAll (a.heldBy n)⟩ ∈ blockers m graph a g := by
    refine List.mem_map.mpr ⟨n, List.mem_filter.mpr ⟨hn, ?_⟩, rfl⟩
    rw [Bool.not_eq_true', List.isEmpty_eq_false_iff]
    exact List.ne_nil_of_mem hs
  rw [wayOut, mem_foldl_unionAscending]
  refine .inr ⟨_, List.mem_filter.mpr ⟨blocks, ?_⟩, hl⟩
  exact hm.mem_aliasesOfAll.mpr ⟨s, hs, hrs⟩

/-- There is a way out by a register if and only if neighbours block it. -/
theorem wayOut_ne_nil_iff (hm : m.Consistent) {groups : Groups} {a : Assignment} {g : GroupId} {r : RegisterId} :
    wayOut (.ofGroups p groups) g (blockers m (.ofGroups p groups) a g) r ≠ [] ↔
      r ∈ blockedFor m (.ofGroups p groups) a g := by
  rw [mem_blockedFor hm]
  constructor
  · intro hne
    obtain ⟨l, hl⟩ := List.exists_mem_of_ne_nil _ hne
    rw [wayOut] at hl
    rcases mem_foldl_unionAscending.mp hl with hl | ⟨b, hb, -⟩
    · cases hl
    · obtain ⟨hb, hcontains⟩ := List.mem_filter.mp hb
      obtain ⟨n, hn, rfl⟩ := List.mem_map.mp hb
      obtain ⟨s, hs, hrs⟩ := hm.mem_aliasesOfAll.mp hcontains
      exact ⟨n, (List.mem_filter.mp hn).1, s, hs, hrs⟩
  · rintro ⟨n, hn, s, hs, hrs⟩
    obtain ⟨l, hl⟩ := Interference.exists_mem_linkagesBehind hn
    exact List.ne_nil_of_mem (mem_wayOut hm hn hs hrs hl)

/-- A group has no way out if and only if neighbours block no register of its class. -/
theorem waysOut_eq_nil_iff (hm : m.Consistent) {groups : Groups} {a : Assignment} {g : GroupId} :
    waysOut m groups (.ofGroups p groups) a g = [] ↔
      ∀ r ∈ m.members (groups.get g).classId, r ∉ blockedFor m (.ofGroups p groups) a g := by
  rw [List.eq_nil_iff_forall_not_mem]
  simp only [mem_waysOut, ← wayOut_ne_nil_iff hm]
  constructor
  · intro h r hr hne
    exact h _ ⟨hne, r, hr, rfl⟩
  · rintro h way ⟨hne, r, hr, rfl⟩
    exact h r hr hne

/-- A group that needs one register of a class that has some and goes without has a way out: the register
is blocked in the end. -/
theorem waysOut_ne_nil (hm : m.Consistent) {groups : Groups} {order : List GroupId}
    (hnodup : order.Nodup) {g : GroupId} (hone : (groups.get g).registers = 1) {r : RegisterId}
    (hr : r ∈ m.members (groups.get g).classId)
    (hg : g ∈ (colorInOrder m groups (.ofGroups p groups) order (.none groups)).uncolored) :
    waysOut m groups (.ofGroups p groups)
      (colorInOrder m groups (.ofGroups p groups) order (.none groups)).assignment g ≠ [] := by
  intro hnil
  exact (waysOut_eq_nil_iff hm).mp hnil r hr (blocked_of_mem_uncolored hm hnodup hg hone hr)

end

/-! ## Groups that go without -/

section

variable {d : MachineDescription} {m : Machine} {p q : Program} {number : Nat} {a : Attempt}
  {settings : Settings} {r : Revision}

/-- An attempt works on a program of single uses if it starts from one. -/
theorem Program.Single.ofProgram (hp : p.Single m) (h : Attempt.ofProgram m p number = (q, .ok a)) :
    q.Single m := by
  obtain ⟨-, -, rfl⟩ := Attempt.sound_of_ofProgram h
  exact hp.resetSplits.separate _

/-- The groups of a program of single uses need one register, of a class that has some. -/
theorem Program.Single.group (hm : Machine.ofDescription d = .ok m) (hp : p.Single m)
    (h : Attempt.ofProgram m p number = (q, .ok a)) {g : GroupId} (hg : g < a.groups.size) :
    (a.groups.get g).registers = 1 ∧ ∃ r, r ∈ m.members (a.groups.get g).classId := by
  have hq := hp.ofProgram h
  have hformed := (Attempt.sound_of_ofProgram h).1.formed
  constructor
  · obtain ⟨u, hu⟩ := List.exists_mem_of_ne_nil _ (hformed.members_ne_nil g hg)
    obtain ⟨use, hmem, huse⟩ :=
      Program.exists_use?_of_mem_usesInPlay (hformed.members_subset g hg u hu)
    rw [← (hformed.suits g hg).registers_eq u hu use huse]
    exact hq.one use hmem
  · exact Machine.exists_mem_members hm (Attempt.class_lt hp.asksWithin h hg)

/-- After an attempt on a program of single uses a revision can be chosen, and it evicts no group. -/
theorem Program.Single.exists_revision (settings : Settings) (hm : Machine.ofDescription d = .ok m)
    (hp : p.Single m) (h : Attempt.ofProgram m p number = (q, .ok a)) :
    ∃ r, (a.trial m).revision m q settings = .ok r ∧ r.evicted = [] := by
  obtain ⟨hsound, -⟩ := Attempt.sound_of_ofProgram h
  -- every group that goes without is there and has a way out
  have ways : ∀ g ∈ (a.trial m).uncolored, g < a.groups.size ∧
      waysOut m a.groups a.graph (a.trial m).coloring.assignment g ≠ [] := by
    intro g hg
    have hlt := Attempt.lt_of_mem_uncolored hg
    obtain ⟨hone, r, hr⟩ := hp.group hm h hlt
    refine ⟨hlt, ?_⟩
    have hnodup := a.nodup_turns m
    rw [Attempt.trial, hsound.graph_eq] at hnodup
    rw [Trial.uncolored, Attempt.trial, hsound.graph_eq] at hg
    rw [Attempt.trial, hsound.graph_eq]
    exact waysOut_ne_nil (Machine.consistent_of_ofDescription hm) hnodup hone hr hg
  obtain ⟨r, hr⟩ : ∃ r, (a.trial m).revision m q settings = .ok r := by
    refine Revision.exists_choose fun n hn => ?_
    obtain ⟨g, hg, rfl⟩ := List.mem_map.mp hn
    exact ⟨(ways g hg).1, fun hnil => absurd hnil (ways g hg).2⟩
  refine ⟨r, hr, ?_⟩
  rw [(Revision.choose_eq_ok hr).2.2, List.map_eq_nil_iff, List.filter_eq_nil_iff]
  intro n hn
  obtain ⟨g, hg, rfl⟩ := List.mem_map.mp hn
  rw [List.isEmpty_iff]
  exact (ways g hg).2

/-- After such a revision the program is still one of single uses, with fewer linkages that are not broken
for good. -/
theorem Program.Single.next (hp : p.Single m) (h : Attempt.ofProgram m p number = (q, .ok a))
    (hr : (a.trial m).revision m q settings = .ok r) (hevicted : r.evicted = [])
    (hne : ¬(a.trial m).uncolored.isEmpty = true) :
    (q.revise (a.trial m) r).Single m ∧
      (q.revise (a.trial m) r).unbroken.length < p.unbroken.length ∧
      (q.revise (a.trial m) r).uses.size = p.uses.size ∧
      (q.revise (a.trial m) r).linkages.size = p.linkages.size := by
  have hq := hp.ofProgram h
  have shape := (Attempt.sameShape_of_ofProgram h).trans (.revise q (a.trial m) r)
  have hmoved : (a.trial m).movedUses r = [] := by
    rw [Trial.movedUses, hevicted, List.flatMap_nil]
  refine ⟨hq.of_uses_eq (shape.endsInRange hp.ends) (Program.uses_revise hmoved), ?_, shape.size_uses,
    shape.size_linkages⟩
  obtain ⟨hsound, -, rfl⟩ := Attempt.sound_of_ofProgram h
  rcases Program.cuts_or_moves hsound hr hne with ⟨k, l, hl, hk⟩ | ⟨-, u, -, hu⟩
  · refine (Program.length_unbroken_revise_lt hl hk).trans_eq ?_
    rw [Program.unbroken_separate, Program.unbroken_resetSplits]
  · rw [hmoved] at hu
    cases hu

/-- When no group of a program of single uses goes without, every use is given one register. -/
theorem Program.Single.locations (hm : Machine.ofDescription d = .ok m) (hp : p.Single m)
    (h : Attempt.ofProgram m p number = (q, .ok a)) (hcolored : (a.trial m).uncolored = []) :
    ∀ l ∈ RegisterColoring.locations q a.groups (a.trial m).coloring.assignment,
      ∃ r, l = .registers [r] := by
  have hq := hp.ofProgram h
  have hformed := (Attempt.sound_of_ofProgram h).1.formed
  intro l hl
  obtain ⟨u, hu, rfl⟩ := Array.mem_iff_getElem.mp hl
  have hlt : u < q.uses.size := by rwa [size_locations] at hu
  obtain ⟨g, hg⟩ := Option.isSome_iff_exists.mp
    ((hformed.isSome_ofUse? u).mpr (hq.mem_usesInPlay hlt))
  have hgroup := (hformed.mem_members u g hg).1
  obtain ⟨hone, -⟩ := hp.group hm h hgroup
  have hfits := Attempt.fits_trial hcolored hgroup
  obtain ⟨r, hr⟩ := List.length_eq_one_iff.mp (hfits.length_eq.trans hone)
  have hlocation := locationOf_locations (a := (a.trial m).coloring.assignment) hformed u
  rw [hg, Option.elim_some, hr] at hlocation
  refine ⟨r, Eq.trans ?_ hlocation⟩
  rw [locationOf, Array.getD_eq_getD_getElem?, Array.getElem?_eq_getElem hu, Option.getD_some]

end

/-! ## Whole runs -/

/-- How a run on a program of single uses ends when there are more attempts left than linkages to break. -/
theorem allocateFrom_single {d : MachineDescription} {m : Machine}
    (hm : Machine.ofDescription d = .ok m) {settings : Settings} {limit remaining number : Nat}
    {p : Program} (hp : p.Single m) (hsize : p.linkages.size < 2 ^ 32)
    (hremaining : p.unbroken.length < remaining) :
    (∃ ls, (allocateFrom m settings limit remaining number p).result = .ok ls ∧
        ls.size = p.uses.size ∧ (∀ l ∈ ls, ∃ r, l = .registers [r]) ∧
        (allocateFrom m settings limit remaining number p).attempts ≤ p.unbroken.length + 1) ∨
      ∃ group classes, (allocateFrom m settings limit remaining number p).result =
        .error (.defect (.noSharedClass group classes)) := by
  fun_induction allocateFrom m settings limit remaining number p with
  | case1 number p => cases hremaining
  | case2 remaining number p q e hattempt =>
    obtain ⟨group, classes, rfl⟩ := hp.error_ofProgram hsize hattempt
    exact .inr ⟨group, classes, rfl⟩
  | case3 remaining number p q a hattempt t hcolored =>
    have hlocations := hp.locations hm hattempt (List.isEmpty_iff.mp hcolored)
    refine .inl ⟨_, rfl, ?_, hlocations, Nat.le_add_left 1 _⟩
    obtain ⟨-, -, rfl⟩ := Attempt.sound_of_ofProgram hattempt
    rw [size_locations, Program.uses_separate]
    rfl
  | case4 remaining number p q a hattempt t hcolored e hrevision =>
    obtain ⟨r, hr, -⟩ := hp.exists_revision settings hm hattempt
    cases hrevision.symm.trans hr
  | case5 remaining number p q a hattempt t hcolored r hrevision hempty =>
    rw [Revision.isEmpty_eq_false (Attempt.sound_of_ofProgram hattempt).1 hrevision hcolored] at hempty
    cases hempty
  | case6 remaining number p q a hattempt t hcolored r hrevision hempty ih =>
    obtain ⟨r', hr', hevicted⟩ := hp.exists_revision settings hm hattempt
    obtain rfl : r = r' := Except.ok.inj (hrevision.symm.trans hr')
    obtain ⟨hnext, hless, huses, hlinkages⟩ := hp.next hattempt hrevision hevicted hcolored
    rcases ih hnext (hlinkages ▸ hsize)
        (Nat.lt_of_lt_of_le hless (Nat.le_of_lt_succ hremaining)) with ⟨ls, hresult, hls, hone, hattempts⟩ | herror
    · refine .inl ⟨ls, hresult, hls.trans huses, hone, ?_⟩
      rw [Run.attempts_after]
      exact Nat.succ_le_succ (hattempts.trans hless)
    · exact .inr herror

/-- Allocation of a program whose uses need one register each and are not in memory, and which can be
counted in 32 bits: if no limit is set to the attempts, it gives one register to every use, with at most
one attempt more than there are linkages to break, unless it fails for joined uses whose classes have no
class in common. It never fails otherwise, whether or not uses may go to memory. -/
theorem allocate_single {d : MachineDescription} {m : Machine} (hm : Machine.ofDescription d = .ok m)
    {settings : Settings} (hlimit : settings.maxAttempts = none) {p : Program} (hp : p.Single m)
    (hsize : p.linkages.size + p.uses.size + 1 < 2 ^ 32) :
    (∃ ls, (allocate m settings p).result = .ok ls ∧ ls.size = p.uses.size ∧
        (∀ l ∈ ls, ∃ r, l = .registers [r]) ∧
        (allocate m settings p).attempts ≤ p.unbroken.length + 1) ∨
      ∃ group classes, (allocate m settings p).result =
        .error (.defect (.noSharedClass group classes)) := by
  have enough := p.effort_le {}
  rw [allocate, attemptsAllowed_of_none hlimit hsize]
  refine allocateFrom_single hm hp (by omega) ?_
  have : p.effort {} = p.unbroken.length := Nat.add_zero _
  omega

/-- Three bytes that are live at one time. -/
def crowded : Program where
  functions := #["f"]
  uses := #[
    ⟨0, .tripleOutput, 0, some 0, 1, some ⟨0, 0⟩, false⟩,
    ⟨0, .tripleOutput, 1, some 0, 1, some ⟨0, 1⟩, false⟩,
    ⟨0, .tripleOutput, 2, some 0, 1, some ⟨0, 2⟩, false⟩,
    ⟨0, .operand, 3, some 0, 1, some ⟨0, 3⟩, false⟩,
    ⟨0, .operand, 4, some 0, 1, some ⟨0, 4⟩, false⟩,
    ⟨0, .operand, 5, some 0, 1, some ⟨0, 5⟩, false⟩]
  linkages := #[⟨0, 3, .active⟩, ⟨1, 4, .active⟩, ⟨2, 5, .active⟩]

/-- On a machine with two bytes, `crowded` is given registers in the second attempt. -/
theorem allocate_single_crowded :
    ∃ ls, (allocate bytePairMachine {} crowded).result = .ok ls ∧ ls.size = 6 ∧
      (∀ l ∈ ls, ∃ r, l = .registers [r]) ∧ (allocate bytePairMachine {} crowded).attempts = 2 := by
  have hp : crowded.Single bytePairMachine := ⟨by decide, by decide, by decide, by decide⟩
  have unlimited : ({} : Settings).maxAttempts = none := rfl
  rcases allocate_single ofDescription_bytePair unlimited hp (by decide) with
    ⟨ls, hresult, hsize, hone, -⟩ | ⟨group, classes, herror⟩
  · exact ⟨ls, hresult, hsize, hone, by decide +kernel⟩
  · have hok : (allocate bytePairMachine {} crowded).result.isOk = true := by decide +kernel
    rw [herror] at hok
    cases hok

/-- As many bytes as 32 binary digits can count. -/
def uncountable : Program where
  functions := #["f"]
  uses := Array.replicate (2 ^ 32 - 1) ⟨0, .temp, 0, some 0, 1, none, false⟩

/-- The attempts that are allowed are counted in 32 bits: of one more than `uncountable` has uses none is left, and
its allocation fails before the first attempt, although every use needs one register only. -/
theorem outOfAttempts_uncountable :
    uncountable.Single bytePairMachine ∧
      (allocate bytePairMachine {} uncountable).result = .error (.outOfAttempts 0) := by
  have same : ∀ use ∈ uncountable.uses, use = ⟨0, .temp, 0, some 0, 1, none, false⟩ := fun use huse =>
    Array.eq_of_mem_replicate huse
  have none_left : attemptsAllowed {} uncountable = 0 := by
    have huses : uncountable.uses.size = 2 ^ 32 - 1 := Array.size_replicate
    have hlinkages : uncountable.linkages.size = 0 := rfl
    rw [attemptsAllowed, huses, hlinkages]
    rfl
  refine ⟨⟨?_, ?_, ?_, ?_⟩, ?_⟩
  · exact fun l hl => absurd hl (Array.not_mem_empty l)
  · exact fun use huse => same use huse ▸ ⟨0, rfl, by decide⟩
  · exact fun use huse => same use huse ▸ rfl
  · exact fun use huse => same use huse ▸ rfl
  · rw [allocate, none_left]
    rfl

end RegisterColoring
