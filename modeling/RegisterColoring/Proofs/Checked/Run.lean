import RegisterColoring.Proofs.Checked.Coloring
import RegisterColoring.Proofs.Loading
import RegisterColoring.Proofs.Misfits

/-! # Checked runs

A program that was accepted for a machine refers to nothing that is not there. Attempts keep it so: they change
the states of linkages and move uses to memory.

* `Program.sized_of_ofDescription`, `Program.Sized.of_keeps`: what is known of a program that was accepted, and
  stays known while registers are allocated.
* `Checked.attempt_eq_some`, `Checked.trial_eq_some`: one attempt can be made.
* `Checked.allocate_eq_some`: so can all of them, whatever they come to.
* `Checked.result_allocateFrom_ne_fault`: and none of them ends with a fault. -/

namespace RegisterColoring

/-! ## Accepted programs -/

/-- A linkage that was accepted joins two uses that are there. -/
theorem ends_lt_of_linkageOf {count index : Nat} {ends : Nat × Nat} {l : Linkage}
    (h : linkageOf count index ends = .ok l) : l.first < count ∧ l.second < count := by
  obtain ⟨⟨hfirst, hsecond, -⟩, rfl⟩ := (settles_linkageOf count).eq_ok_iff.mp h
  exact ⟨(Nat.mod_le _ _).trans_lt hfirst, (Nat.mod_le _ _).trans_lt hsecond⟩

namespace Program

variable {m : Machine} {p q : Program}

/-- A program that was accepted for a machine refers to what it or the machine has. -/
theorem sized_of_ofDescription {d : ProgramDescription} (h : ofDescription m d = .ok p)
    (huses : d.uses.length < 2 ^ 15) (hlinkages : d.linkages.length < 2 ^ 31)
    (hregisters : ∀ use ∈ d.uses, use.registers < 2 ^ 32) : p.Sized m := by
  rw [ofDescription] at h
  obtain ⟨uses, hmapped, h⟩ := bind_eq_ok.mp h
  obtain ⟨linkages, hjoined, h⟩ := bind_eq_ok.mp h
  cases h
  have hcount : uses.length = d.uses.length := by
    rw [← (forall₂_of_mapM_ok hmapped).length_eq, List.length_zipIdx]
  have hjoinedCount : linkages.length = d.linkages.length := by
    rw [← (forall₂_of_mapM_ok hjoined).length_eq, List.length_zipIdx]
  have resolved : ∀ use ∈ uses, use.function < d.functions.length ∧ (∀ c ∈ use.class?, c < m.classCount) ∧
      ∃ decl ∈ d.uses, use.registers = decl.registers := by
    intro use huse
    obtain ⟨⟨decl, index⟩, hdecl, huse⟩ := exists_of_mem_mapM_ok hmapped huse
    have hresolves := UseDecl.resolves_of_toUse huse
    obtain ⟨place, hplace, -, hnumber⟩ := hresolves.function_eq
    refine ⟨?_, hresolves.class_eq.1, decl, List.fst_mem_of_mem_zipIdx hdecl, hresolves.registers_eq⟩
    rw [hnumber]
    exact (Nat.mod_le _ _).trans_lt (List.getElem?_eq_some_iff.mp hplace).1
  constructor
  case ends =>
    intro l hl
    obtain ⟨ends, -, hl⟩ := exists_of_mem_mapM_ok hjoined (List.mem_toArray.mp hl)
    rw [List.size_toArray, hcount]
    exact ends_lt_of_linkageOf hl
  case asks => exact fun use huse => (resolved use (List.mem_toArray.mp huse)).2.1
  case function_lt => exact fun use huse => (resolved use (List.mem_toArray.mp huse)).1
  case registers_lt =>
    intro use huse
    obtain ⟨-, -, decl, hdecl, hneeds⟩ := resolved use (List.mem_toArray.mp huse)
    exact hneeds ▸ hregisters decl hdecl
  case uses_lt => rwa [List.size_toArray, hcount]
  case linkages_lt => rwa [List.size_toArray, hjoinedCount]

/-- What allocation leaves of an accepted program is as good as accepted. -/
theorem Sized.of_keeps (hp : p.Sized m) (h : p.Keeps q) : q.Sized m where
  ends := h.toSameShape.endsInRange hp.ends
  asks := hp.asks.of_keeps h
  function_lt use huse := by
    obtain ⟨before, hbefore, moved, rfl⟩ := h.exists_use huse
    rw [h.functions_eq]
    exact hp.function_lt before hbefore
  registers_lt use huse := by
    obtain ⟨before, hbefore, moved, rfl⟩ := h.exists_use huse
    exact hp.registers_lt before hbefore
  uses_lt := h.size_uses ▸ hp.uses_lt
  linkages_lt := h.toSameShape.size_linkages ▸ hp.linkages_lt

end Program

/-- The groups and the graph of an attempt are those of an accepted program. -/
structure Attempt.Sized (m : Machine) (q : Program) (a : Attempt) : Prop where
  /-- The program is as good as accepted. -/
  program : q.Sized m
  /-- The groups are those of the program. -/
  groups : a.groups.Sized m q
  /-- The graph is the interference of these groups. -/
  graph_eq : a.graph = .ofGroups q a.groups

/-- An attempt on an accepted program. -/
theorem Attempt.sized_of_ofProgram {m : Machine} {p q : Program} {number : Nat} {a : Attempt}
    (hp : p.Sized m) (h : ofProgram m p number = (q, .ok a)) : a.Sized m q := by
  have hq : q.Sized m := hp.of_keeps (keeps_ofProgram h)
  obtain ⟨hsound, -, hseparate⟩ := sound_of_ofProgram h
  have hgroups := ofPartition_of_ofProgram h
  have hjoins := p.resetSplits.joins_separate m
  rw [← hseparate] at hgroups hjoins
  exact ⟨hq, Groups.sized_of_ofPartition hq hjoins hgroups, hsound.graph_eq⟩

/-- A revision after such an attempt leaves a program that is as good as accepted. -/
theorem Attempt.sized_revise {m : Machine} {p q : Program} {number : Nat} {a : Attempt} {settings : Settings}
    {r : Revision} (hp : p.Sized m) (h : ofProgram m p number = (q, .ok a))
    (hr : (a.trial m).revision m q settings = .ok r) : (q.revise (a.trial m) r).Sized m :=
  hp.of_keeps ((keeps_ofProgram h).trans (Program.keeps_revise (sound_of_ofProgram h).1 hr))

/-- The colouring of an attempt gives registers of the machine. -/
theorem Attempt.sized_assignment {m : Machine} (hm : m.Consistent) (a : Attempt) :
    (a.trial m).coloring.assignment.Sized m a.groups := by
  exact colorInOrder_induction (fun b g _ rs hb h => Checked.sized_give hm hb h)
    (Assignment.sized_none m a.groups)

namespace Checked

variable {m : Machine} {p : Program} {settings : Settings} {limit remaining number : Nat}

/-! ## One attempt -/

/-- Join the uses anew, separate the conflicts, and find out which groups interfere. -/
def attempt (m : Machine) (p : Program) (number : Nat) :
    Option (Program × Except AllocationError Attempt) := do
  let s ← separate m p.resetSplits (← joinedSets p.resetSplits)
  match ← formGroups m s.program s.partition with
  | .error cause => return (s.program, .error (.defect cause))
  | .ok groups =>
    return (s.program, .ok ⟨number, groups, ← graphOf s.program groups, s.splits.length⟩)

/-- Rank the groups of an attempt and colour them. -/
def trial (m : Machine) (a : Attempt) : Option Trial := do
  let ranking ← rankGroups m a.groups a.graph (← pressureOf m a.groups a.graph)
  let coloring ← colorInOrder m a.groups a.graph (turns ranking.groupRanks) (.none a.groups)
  return ⟨a, ranking, coloring⟩

/-- What to change after groups went without registers. -/
def revision (m : Machine) (p : Program) (settings : Settings) (t : Trial) :
    Option (Except AllocationError Revision) :=
  choose m p t.attempt.groups t.attempt.graph t.coloring.assignment t.uncolored settings

/-- The groups of an accepted program can be formed, and their interference found. -/
theorem attempt_eq_some (hp : p.Sized m) (number : Nat) :
    attempt m p number = some (Attempt.ofProgram m p number) := by
  have hreset : p.resetSplits.Sized m := hp.of_keeps p.keeps_resetSplits
  have huses := hreset.uses_lt
  have hlinkages := hreset.linkages_lt
  have hjoined : joinedSets p.resetSplits = some p.resetSplits.joinedSets :=
    joinedSets_eq_some hreset.ends (by omega)
  have hseparate := separate_eq_some hreset.ends hreset.asks (by omega) (by omega)
  have hleft : (p.resetSplits.separate m p.resetSplits.joinedSets).program.Sized m :=
    hreset.of_keeps (Program.keeps_separate m _ _)
  -- the sets that are left have uses of the program, and none is empty
  have hjoins := p.resetSplits.joins_separate m
  have hformed := formGroups_eq_some hleft.asks (fun set hset => hjoins.ne_nil hset) fun u hu => by
    obtain ⟨set, hset, hu⟩ := List.mem_flatten.mp hu
    exact hjoins.lt_of_mem hset hu
  rw [Attempt.ofProgram_eq hp.ends (by have := hp.linkages_lt; omega), attempt, hjoined]
  simp only [Option.bind_eq_bind, Option.bind_some, hseparate, hformed]
  cases hgroups : Groups.ofPartition m (p.resetSplits.separate m p.resetSplits.joinedSets).program
      (p.resetSplits.separate m p.resetSplits.joinedSets).partition with
  | error cause => rfl
  | ok groups =>
    simp only [graphOf_eq_some hleft.ends (Groups.sized_of_ofPartition hleft hjoins hgroups)]
    rfl

/-- The groups of an attempt can be ranked and coloured. -/
theorem trial_eq_some {q : Program} {a : Attempt} (hm : m.Sized) (ha : a.Sized m q) :
    trial m a = some (a.trial m) := by
  have hgraph : a.graph.Sized a.groups := ha.graph_eq ▸ Interference.sized_ofGroups q a.groups
  have hranking : rankGroups m a.groups a.graph (.ofGroups m a.groups a.graph) =
      some (a.trial m).ranking := by
    rw [Attempt.trial, ha.graph_eq]
    exact rankGroups_eq_some hm ha.groups
  have horder : ∀ g ∈ turns (a.trial m).ranking.groupRanks, g < a.groups.size := fun g hg =>
    List.mem_range.mp ((mem_turns_rankWithin (Nat.le_of_eq List.length_range)).mp hg)
  have hcoloring := colorInOrder_eq_some hm ha.groups hgraph horder (Assignment.sized_none m a.groups)
  rw [trial, pressureOf_eq_some hm ha.groups hgraph]
  simp only [Option.bind_eq_bind, Option.bind_some, hranking, hcoloring]
  rfl

/-- What to change after an attempt can be found. -/
theorem revision_eq_some {q : Program} {a : Attempt} (hm : m.Consistent) (ha : a.Sized m q)
    (settings : Settings) :
    revision m q settings (a.trial m) = some ((a.trial m).revision m q settings) :=
  choose_eq_some hm ha.program ha.groups (ha.graph_eq ▸ Interference.sized_ofGroups q a.groups)
    (a.sized_assignment hm) (fun _ hg => Attempt.lt_of_mem_uncolored hg) settings

/-! ## Whole runs -/

/-- Make up to `remaining` attempts, the next of which has the number `number`. -/
def allocateFrom (m : Machine) (settings : Settings) (limit : Nat) :
    (remaining number : Nat) → Program → Option Run
  | 0, _, p => some ⟨[], p, .error (.outOfAttempts limit)⟩
  | remaining + 1, number, p => do
    match ← attempt m p number with
    | (q, .error e) => return ⟨[], q, .error e⟩
    | (q, .ok a) =>
      let t ← trial m a
      if t.uncolored.isEmpty then
        return ⟨[⟨p, t, .assigned⟩], q, .ok (← locations q a.groups t.coloring.assignment)⟩
      else
        match ← revision m q settings t with
        | .error e => return ⟨[⟨p, t, .stuck e⟩], q, .error e⟩
        | .ok r =>
          if r.isEmpty then
            return ⟨[⟨p, t, .stuck (.stalled number)⟩], q, .error (.stalled number)⟩
          else
            let run ← allocateFrom m settings limit remaining (number + 1) (← revise q t r)
            return run.after ⟨p, t, .revised r⟩

/-- Give registers to every use of a program. The attempts that are enough have to be counted in 32 bits. -/
def allocate (m : Machine) (settings : Settings) (p : Program) : Option Run := do
  let enough ← word32 (p.linkages.size + p.uses.size + 1)
  let limit := settings.maxAttempts.getD enough
  allocateFrom m settings limit limit 1 p

/-- Attempts on an accepted program can be made, whatever they come to. -/
theorem allocateFrom_eq_some (hm : m.Sized) (hp : p.Sized m) :
    allocateFrom m settings limit remaining number p =
      some (RegisterColoring.allocateFrom m settings limit remaining number p) := by
  -- the invariant is that the program of the next attempt is as good as accepted
  fun_induction RegisterColoring.allocateFrom m settings limit remaining number p with
  | case1 number p => rfl
  | case2 remaining number p q e hattempt =>
    rw [allocateFrom, attempt_eq_some hp, hattempt]
    rfl
  | case3 remaining number p q a hattempt t hcolored =>
    have ha := Attempt.sized_of_ofProgram hp hattempt
    have htrial : trial m a = some t := trial_eq_some hm ha
    have hlocations : locations q a.groups t.coloring.assignment = some _ :=
      locations_eq_some ha.groups (a.sized_assignment hm.toConsistent)
    rw [allocateFrom, attempt_eq_some hp, hattempt]
    simp only [Option.bind_eq_bind, Option.bind_some, htrial, if_pos hcolored, hlocations]
    rfl
  | case4 remaining number p q a hattempt t hcolored e hrevision =>
    have ha := Attempt.sized_of_ofProgram hp hattempt
    have htrial : trial m a = some t := trial_eq_some hm ha
    have hchosen : revision m q settings t = some (.error e) :=
      (revision_eq_some hm.toConsistent ha settings).trans (congrArg some hrevision)
    rw [allocateFrom, attempt_eq_some hp, hattempt]
    simp only [Option.bind_eq_bind, Option.bind_some, htrial, if_neg hcolored, hchosen]
    rfl
  | case5 remaining number p q a hattempt t hcolored r hrevision hempty =>
    have ha := Attempt.sized_of_ofProgram hp hattempt
    have htrial : trial m a = some t := trial_eq_some hm ha
    have hchosen : revision m q settings t = some (.ok r) :=
      (revision_eq_some hm.toConsistent ha settings).trans (congrArg some hrevision)
    rw [allocateFrom, attempt_eq_some hp, hattempt]
    simp only [Option.bind_eq_bind, Option.bind_some, htrial, if_neg hcolored, hchosen, if_pos hempty]
    rfl
  | case6 remaining number p q a hattempt t hcolored r hrevision hempty ih =>
    have ha := Attempt.sized_of_ofProgram hp hattempt
    have htrial : trial m a = some t := trial_eq_some hm ha
    have hchosen : revision m q settings t = some (.ok r) :=
      (revision_eq_some hm.toConsistent ha settings).trans (congrArg some hrevision)
    have hrevise : revise q t r = some (q.revise t r) := revise_eq_some ha.groups ha.graph_eq hrevision
    have hnext := ih (Attempt.sized_revise hp hattempt hrevision)
    rw [allocateFrom, attempt_eq_some hp, hattempt]
    simp only [Option.bind_eq_bind, Option.bind_some, htrial, if_neg hcolored, hchosen, if_neg hempty,
      hrevise, hnext]
    rfl

/-- Registers of a machine can be allocated to a program that was accepted for it, whatever comes of it. -/
theorem allocate_eq_some (hm : m.Sized) (hp : p.Sized m) (settings : Settings) :
    allocate m settings p = some (RegisterColoring.allocate m settings p) := by
  have huses := hp.uses_lt
  have hlinkages := hp.linkages_lt
  have henough : p.linkages.size + p.uses.size + 1 < 2 ^ 32 := by omega
  -- the number of attempts is cut to 32 bits, which changes nothing here
  have hallowed : attemptsAllowed settings p =
      settings.maxAttempts.getD (p.linkages.size + p.uses.size + 1) := by
    rw [attemptsAllowed, show (0x100000000 : Nat) = 2 ^ 32 from rfl, Nat.mod_eq_of_lt henough]
  rw [allocate, word32_eq_some henough, RegisterColoring.allocate, hallowed]
  exact allocateFrom_eq_some hm hp

/-! ## No faults -/

/-- The error for a group that does not fit is no fault. -/
theorem misfit_ne_fault {groups : Groups} {g : GroupId} {f : Fault} :
    misfit m p groups g ≠ some (.fault f) := by
  intro h
  rw [misfit] at h
  simp [Option.bind_eq_some_iff] at h

/-- Where what to change can be looked for, it is not missed because of a fault. -/
theorem choose_ne_fault {groups : Groups} {graph : Interference} {a : Assignment} {uncolored : List GroupId}
    {f : Fault} : choose m p groups graph a uncolored settings ≠ some (.error (.fault f)) := by
  intro h
  rw [choose] at h
  obtain ⟨needs, -, h⟩ := Option.bind_eq_some_iff.mp h
  split at h
  · obtain ⟨e, he, h⟩ := Option.bind_eq_some_iff.mp h
    cases h
    exact misfit_ne_fault he
  · obtain ⟨rescues, -, h⟩ := Option.bind_eq_some_iff.mp h
    cases h

/-- Where the groups of an attempt can be looked for, they are not missed because of a fault. -/
theorem attempt_ne_fault {q : Program} {f : Fault} : attempt m p number ≠ some (q, .error (.fault f)) := by
  intro h
  rw [attempt] at h
  obtain ⟨sets, -, h⟩ := Option.bind_eq_some_iff.mp h
  obtain ⟨s, -, h⟩ := Option.bind_eq_some_iff.mp h
  obtain ⟨formed, -, h⟩ := Option.bind_eq_some_iff.mp h
  split at h
  · cases h
  · obtain ⟨graph, -, h⟩ := Option.bind_eq_some_iff.mp h
    cases h

/-- Attempts on an accepted program do not end with a fault. -/
theorem result_allocateFrom_ne_fault (hm : m.Consistent) (hp : p.Sized m) (f : Fault) :
    (RegisterColoring.allocateFrom m settings limit remaining number p).result ≠ .error (.fault f) := by
  fun_induction RegisterColoring.allocateFrom m settings limit remaining number p with
  | case1 number p => simp
  | case2 remaining number p q e hattempt =>
    intro hfault
    cases hfault
    exact attempt_ne_fault ((attempt_eq_some hp number).trans (congrArg some hattempt))
  | case3 remaining number p q a hattempt t hcolored => simp
  | case4 remaining number p q a hattempt t hcolored e hrevision =>
    intro hfault
    cases hfault
    have ha := Attempt.sized_of_ofProgram hp hattempt
    exact choose_ne_fault ((revision_eq_some hm ha settings).trans (congrArg some hrevision))
  | case5 remaining number p q a hattempt t hcolored r hrevision hempty => simp
  | case6 remaining number p q a hattempt t hcolored r hrevision hempty ih =>
    exact ih (Attempt.sized_revise hp hattempt hrevision)

end Checked

end RegisterColoring
