import RegisterColoring.Proofs.Rules

/-! # Linkages that are live at one time

The graph of an attempt records only that a use lies in the span of a linkage. That is enough to keep whole
spans apart: where two spans meet, an end of one lies in the other, so that the groups of two linkages that
are live at one time are neighbours.

* `Program.Chained`: a chain of active linkages joins two uses.
* `Program.Coexist`: two linkages that are live at one time and not chained.
* `Span.exists_end_of_meet`: where two spans meet, an end of one lies in the other.
* `mem_neighbors_of_coexist`: linkages that are live at one time are in neighbouring groups.
* `settled_allocateFrom`: a run that starts from a settled program leaves one.
* `apart_of_coexist`: linkages that are live at one time hold registers that share no storage.
* `overlap_of_half_in_memory`: unless just one end of a linkage is in memory. -/

namespace RegisterColoring

namespace Program

/-- Whether a chain of active linkages joins two uses. -/
def Chained (p : Program) : UseId → UseId → Prop :=
  Relation.EqvGen (Linked (p.activeLinkages.map Prod.fst))

/-- Two linkages of a program that are live at one time, and have nothing to do with each other. -/
structure Coexist (p : Program) (l k : Linkage) : Prop where
  /-- The one is a linkage of the program. -/
  left_mem : l ∈ p.linkages
  /-- So is the other. -/
  right_mem : k ∈ p.linkages
  /-- The one is active. -/
  left_active : l.state = .active
  /-- So is the other. -/
  right_active : k.state = .active
  /-- Each has both ends at positions of one block, and some position lies between the ends of both. -/
  meet : ∃ s t c, p.span? l = some s ∧ p.span? k = some t ∧ s.contains c = true ∧ t.contains c = true
  /-- No chain of active linkages joins them. -/
  unchained : ¬ p.Chained l.first k.first

/-- Uses with one root are chained. -/
theorem chained_of_root_eq {q : Program} (hends : q.missingEnd? = none) {x y : UseId}
    (hx : x < q.uses.size) (hy : y < q.uses.size) (h : q.joined.root x = q.joined.root y) :
    q.Chained x y := by
  refine Relation.EqvGen.mono ?_ _ _
    ((root_unite_eq_iff (endsBelow_joiningLinkages hends) hx hy).mp h)
  rintro a b ⟨k, hk, hab⟩
  exact ⟨k, List.mem_of_mem_filter hk, hab⟩

end Program

/-! ## Spans that meet -/

namespace Span

/-- A position lies in a span when it is in its block and between its ends. -/
theorem contains_iff {s : Span} {c : Position} :
    s.contains c = true ↔ c.block = s.block ∧ s.start ≤ c.offset ∧ c.offset ≤ s.stop := by
  simp only [contains, Bool.and_eq_true, beq_iff_eq, decide_eq_true_eq, and_assoc]

/-- Where two spans meet, an end of one lies in the other: of the two starts the later one. -/
theorem exists_end_of_meet {a b a' b' c : Position} {s t : Span} (hs : between? a b = some s)
    (ht : between? a' b' = some t) (hcs : s.contains c = true) (hct : t.contains c = true) :
    (s.contains a' = true ∨ s.contains b' = true) ∨ t.contains a = true ∨ t.contains b = true := by
  rw [between?, Option.ite_none_right_eq_some, Option.some.injEq] at hs ht
  obtain ⟨hab, rfl⟩ := hs
  obtain ⟨hab', rfl⟩ := ht
  simp only [contains_iff] at hcs hct ⊢
  omega

end Span

section

variable {m : Machine} {q : Program} {groups : Groups}

/-- The ends of an active linkage that are not in memory are in one group. -/
theorem Groups.Formed.exists_ofUse?_ends (h : groups.Formed m q) (hends : q.missingEnd? = none)
    {k : Linkage} (hk : k ∈ q.linkages) (hactive : k.state = .active)
    (hfirst : q.isInMemory k.first = false) (hsecond : q.isInMemory k.second = false) :
    ∃ g, groups.ofUse? k.first = some g ∧ groups.ofUse? k.second = some g := by
  obtain ⟨id, active⟩ := Program.exists_mem_activeLinkages.mpr ⟨hk, hactive⟩
  obtain ⟨hlt, hlt'⟩ := Program.ends_lt_of_missingEnd? hends active
  have inPlay : k.first ∈ q.usesInPlay := Program.mem_usesInPlay.mpr ⟨hlt, hfirst⟩
  have joins : k ∈ q.joiningLinkages := (Program.mem_joiningLinkages hends).mpr
    ⟨⟨id, active⟩, inPlay, Program.mem_usesInPlay.mpr ⟨hlt', hsecond⟩⟩
  obtain ⟨g, hg⟩ := Option.isSome_iff_exists.mp ((h.isSome_ofUse? _).mpr inPlay)
  exact ⟨g, hg, (h.ofUse?_ends hends joins).symm.trans hg⟩

/-- Two linkages that are live at one time are in one group or in neighbouring ones. -/
theorem mem_neighbors_of_coexist (h : groups.Formed m q) {l k : Linkage} (hlk : q.Coexist l k)
    {x y : GroupId} (hx : groups.ofUse? l.first = some x) (hx' : groups.ofUse? l.second = some x)
    (hy : groups.ofUse? k.first = some y) (hy' : groups.ofUse? k.second = some y) (hne : x ≠ y) :
    y ∈ (Interference.ofGroups q groups).neighbors x := by
  obtain ⟨s, t, c, hs, ht, hcs, hct⟩ := hlk.meet
  obtain ⟨_, left⟩ := Program.exists_mem_activeLinkages.mpr ⟨hlk.left_mem, hlk.left_active⟩
  obtain ⟨_, right⟩ := Program.exists_mem_activeLinkages.mpr ⟨hlk.right_mem, hlk.right_active⟩
  obtain ⟨a, ha, hs'⟩ := Option.bind_eq_some_iff.mp hs
  obtain ⟨b, hb, hab⟩ := Option.bind_eq_some_iff.mp hs'
  obtain ⟨a', ha', ht'⟩ := Option.bind_eq_some_iff.mp ht
  obtain ⟨b', hb', hab'⟩ := Option.bind_eq_some_iff.mp ht'
  -- whichever end lies in the other span, it is a use of the other group there
  rcases Span.exists_end_of_meet hab hab' hcs hct with (hin | hin) | hin | hin
  · exact mem_neighbors_of_span h left hs ha' hin hx hy hne.symm
  · exact mem_neighbors_of_span h left hs hb' hin hx hy' hne.symm
  · exact Interference.neighbors_comm.mp (mem_neighbors_of_span h right ht ha hin hy hx hne)
  · exact Interference.neighbors_comm.mp (mem_neighbors_of_span h right ht hb hin hy hx' hne)

end

/-! ## Settled programs stay settled -/

/-- A run that starts from a settled program leaves one. -/
theorem settled_allocateFrom {m : Machine} {settings : Settings} {limit remaining number : Nat}
    {p : Program} (hp : p.Settled) :
    (allocateFrom m settings limit remaining number p).program.Settled := by
  fun_induction allocateFrom m settings limit remaining number p with
  | case1 number p => exact hp
  | case2 remaining number p q e hattempt => exact Attempt.settled_ofProgram hattempt hp
  | case3 remaining number p q a hattempt t hcolored => exact Attempt.settled_ofProgram hattempt hp
  | case4 remaining number p q a hattempt t hcolored e hrevision =>
    exact Attempt.settled_ofProgram hattempt hp
  | case5 remaining number p q a hattempt t hcolored r hrevision hempty =>
    exact Attempt.settled_ofProgram hattempt hp
  | case6 remaining number p q a hattempt t hcolored r hrevision hempty ih =>
    exact ih (Attempt.settled_ofProgram hattempt hp).revise

/-! ## Registers of linkages that are live at one time -/

section

variable {m : Machine} {q : Program} {groups : Groups} {a : Assignment}

/-- A use that holds a register is in play. -/
theorem mem_usesInPlay_of_mem_held (h : groups.Formed m q) {u : UseId} {r : RegisterId}
    (hr : r ∈ (locationOf (locations q groups a) u).held) : u ∈ q.usesInPlay := by
  rw [← inRegisters_locations (a := a) h, inRegisters]
  cases hu : locationOf (locations q groups a) u with
  | memory =>
    rw [hu] at hr
    cases hr
  | registers rs => rfl

/-- When neighbours are apart, linkages that are live at one time hold registers that share no storage. A
linkage with both ends in memory holds none. -/
theorem not_overlap_of_coexist (hm : m.Consistent) (h : groups.Formed m q)
    (hends : q.missingEnd? = none) (hapart : a.Apart m (.ofGroups q groups)) {l k : Linkage}
    (hlk : q.Coexist l k) (hl : q.isInMemory l.first = q.isInMemory l.second)
    (hk : q.isInMemory k.first = q.isInMemory k.second) :
    ∀ r ∈ (locationOf (locations q groups a) l.first).held,
      ∀ r' ∈ (locationOf (locations q groups a) k.first).held, ¬ m.Overlap r r' := by
  intro r hr r' hr' hoverlap
  have left := mem_usesInPlay_of_mem_held h hr
  have right := mem_usesInPlay_of_mem_held h hr'
  obtain ⟨hlt, hmemory⟩ := Program.mem_usesInPlay.mp left
  obtain ⟨hlt', hmemory'⟩ := Program.mem_usesInPlay.mp right
  obtain ⟨x, hx, hx'⟩ :=
    h.exists_ofUse?_ends hends hlk.left_mem hlk.left_active hmemory (hl.symm.trans hmemory)
  obtain ⟨y, hy, hy'⟩ :=
    h.exists_ofUse?_ends hends hlk.right_mem hlk.right_active hmemory' (hk.symm.trans hmemory')
  -- in one group they would be joined, and so chained
  have hne : x ≠ y := by
    rintro rfl
    refine hlk.unchained (Program.chained_of_root_eq hends hlt hlt' ?_)
    exact (h.ofUse?_eq_iff _ left _ right).mp (hx.trans hy.symm)
  have neighbor := mem_neighbors_of_coexist h hlk hx hx' hy hy' hne
  rw [held_locationOf h hx] at hr
  rw [held_locationOf h hy] at hr'
  exact hapart x y neighbor r hr r' hr' (hm.overlap_iff.mp hoverlap)

/-- The ends of an active linkage live in one place, unless just one of them is in memory. -/
theorem locationOf_ends_eq (h : groups.Formed m q) (hends : q.missingEnd? = none) {k : Linkage}
    (hk : k ∈ q.linkages) (hactive : k.state = .active)
    (hmemory : q.isInMemory k.first = q.isInMemory k.second) :
    locationOf (locations q groups a) k.first = locationOf (locations q groups a) k.second := by
  obtain ⟨id, active⟩ := Program.exists_mem_activeLinkages.mpr ⟨hk, hactive⟩
  obtain ⟨hlt, hlt'⟩ := Program.ends_lt_of_missingEnd? hends active
  cases hfirst : q.isInMemory k.first with
  | true =>
    rw [(locationOf_locations_eq_memory h hlt).mpr hfirst,
      (locationOf_locations_eq_memory h hlt').mpr (hmemory.symm.trans hfirst)]
  | false =>
    obtain ⟨g, hg, hg'⟩ :=
      h.exists_ofUse?_ends hends hk hactive hfirst (hmemory.symm.trans hfirst)
    rw [locationOf_locations h, locationOf_locations h, hg, hg']

end

/-- After a successful allocation, two linkages that are live at one time are each given one list of
registers, and no register of the one shares storage with a register of the other, provided that neither
of them has just one end in memory. In the program that is left no active linkage has, if that is so in
the program to be allocated: it stays settled. -/
theorem apart_of_coexist {d : MachineDescription} {m : Machine} (hm : Machine.ofDescription d = .ok m)
    {settings : Settings} {p q : Program} {rounds : List Round} {ls : Array Location}
    (h : allocate m settings p = ⟨rounds, q, .ok ls⟩) :
    (∀ l k, q.Coexist l k → q.isInMemory l.first = q.isInMemory l.second →
      q.isInMemory k.first = q.isInMemory k.second →
      locationOf ls l.first = locationOf ls l.second ∧ locationOf ls k.first = locationOf ls k.second ∧
        ∀ r ∈ (locationOf ls l.first).held, ∀ r' ∈ (locationOf ls k.first).held, ¬ m.Overlap r r') ∧
      (p.Settled → q.Settled) := by
  have hm := Machine.consistent_of_ofDescription hm
  rw [allocate] at h
  constructor
  · obtain ⟨_, _, q', a, hattempt, -, hprogram, rfl⟩ :=
      allocateFrom_eq_ok (show (allocateFrom m settings _ _ 1 p).result = .ok ls by rw [h])
    rw [h] at hprogram
    obtain rfl : q = q' := hprogram
    obtain ⟨hsound, -⟩ := Attempt.sound_of_ofProgram hattempt
    have hapart := hsound.apart hm
    rw [hsound.graph_eq] at hapart
    intro l k hlk hl hk
    exact ⟨locationOf_ends_eq hsound.formed hsound.missingEnd?_eq hlk.left_mem hlk.left_active hl,
      locationOf_ends_eq hsound.formed hsound.missingEnd?_eq hlk.right_mem hlk.right_active hk,
      not_overlap_of_coexist hm hsound.formed hsound.missingEnd?_eq hapart hlk hl hk⟩
  · intro hp
    have left := @settled_allocateFrom m settings (attemptsAllowed settings p)
      (attemptsAllowed settings p) 1 p hp
    rwa [h] at left

/-- Two bytes whose spans cross. -/
def crossingBytes : Program where
  functions := #["f"]
  uses := #[
    ⟨0, .tripleOutput, 0, some 0, 1, some ⟨0, 0⟩, false⟩,
    ⟨0, .operand, 1, some 0, 1, some ⟨0, 4⟩, false⟩,
    ⟨0, .tripleOutput, 2, some 0, 1, some ⟨0, 2⟩, false⟩,
    ⟨0, .operand, 3, some 0, 1, some ⟨0, 6⟩, false⟩]
  linkages := #[⟨0, 1, .active⟩, ⟨2, 3, .active⟩]

/-- Linkages that join even uses with the odd ones after them chain no other uses. -/
theorem Program.not_chained_of_pairs {q : Program} (h : ∀ k ∈ q.linkages, k.first / 2 = k.second / 2)
    {x y : UseId} (hxy : x / 2 ≠ y / 2) : ¬ q.Chained x y := by
  refine fun chained => hxy (eq_of_eqvGen_linked (f := (· / 2)) (fun k hk => ?_) chained)
  obtain ⟨⟨_, id⟩, hid, rfl⟩ := List.mem_map.mp hk
  exact h _ (exists_mem_activeLinkages.mp ⟨id, hid⟩).1

/-- On `crossingBytes` the two bytes are given different registers, and nothing goes to memory. -/
theorem apart_of_coexist_crossingBytes :
    let run := allocate bytePairMachine {} crossingBytes
    run.program.Coexist ⟨0, 1, .active⟩ ⟨2, 3, .active⟩ ∧ run.program.Settled ∧
      ¬ bytePairMachine.Overlap 0 1 := by
  intro run
  have h : run.result = .ok #[.registers [0], .registers [0], .registers [1], .registers [1]] := by
    decide +kernel
  have settled : crossingBytes.Settled := by decide
  have apart := apart_of_coexist ofDescription_bytePair (Run.eq_of_result h)
  have coexist : run.program.Coexist ⟨0, 1, .active⟩ ⟨2, 3, .active⟩ := by
    refine ⟨by decide +kernel, by decide +kernel, rfl, rfl,
      ⟨⟨0, 0, 4⟩, ⟨0, 2, 6⟩, ⟨0, 3⟩, by decide +kernel, by decide +kernel, rfl, rfl⟩,
      Program.not_chained_of_pairs (by decide +kernel) (by decide)⟩
  refine ⟨coexist, apart.2 settled, ?_⟩
  exact (apart.1 _ _ coexist (by decide +kernel) (by decide +kernel)).2.2 0 (.head _) 1 (.head _)

/-- Two bytes and two uses that need two words. -/
def oversized : Program where
  functions := #["f"]
  uses := #[
    ⟨0, .operand, 0, some 0, 1, some ⟨0, 0⟩, false⟩,
    ⟨0, .operand, 1, some 1, 2, some ⟨0, 5⟩, false⟩,
    ⟨0, .operand, 2, some 0, 1, some ⟨0, 10⟩, false⟩,
    ⟨0, .operand, 3, some 1, 2, some ⟨0, 3⟩, false⟩]

/-- The same after its allocation has moved the uses of two words to memory, with a linkage from each of
the bytes to one of them. -/
def halfInMemory : Program :=
  let moved := (allocate bytePairMachine { spillUnallocatable := true } oversized).program
  (moved.withLinkage 0 1).withLinkage 2 3

/-- Linkages that are live at one time may hold one register if each of them has just one end in memory:
on `halfInMemory` both bytes are given register 0, at ends of linkages whose spans meet. -/
theorem overlap_of_half_in_memory :
    ∃ rounds q ls l k, allocate bytePairMachine {} halfInMemory = ⟨rounds, q, .ok ls⟩ ∧ q.Coexist l k ∧
      ∃ r ∈ (locationOf ls l.first).held, ∃ r' ∈ (locationOf ls k.first).held,
        bytePairMachine.Overlap r r' := by
  have h : (allocate bytePairMachine {} halfInMemory).result =
      .ok #[.registers [0], .memory, .registers [0], .memory] := by decide +kernel
  refine ⟨_, _, _, ⟨0, 1, .active⟩, ⟨2, 3, .active⟩, Run.eq_of_result h, ?_,
    0, .head _, 0, .head _, .inl rfl⟩
  exact ⟨by decide +kernel, by decide +kernel, rfl, rfl,
    ⟨⟨0, 0, 5⟩, ⟨0, 3, 10⟩, ⟨0, 4⟩, by decide +kernel, by decide +kernel, rfl, rfl⟩,
    Program.not_chained_of_pairs (by decide +kernel) (by decide)⟩

end RegisterColoring
