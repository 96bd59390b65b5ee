import RegisterColoring.Legality
import RegisterColoring.Proofs.Attempt
import RegisterColoring.Proofs.Program

/-! # Allocations are legal

What the allocator returns passes the second look: the locations read off the groups of an attempt that
coloured all of them violate no rule, and the uses in memory are those that the program says.

* `locationOf_locations`: a use lives in the registers of its group, and in memory without one.
* `liveLinkages_locations`: the linkages that the second look follows are those that were joined.
* `violations_locations`: a colouring of all groups violates no rule.
* `checkLegal_allocate`: every allocation of an accepted machine is legal. -/

namespace RegisterColoring

variable {m : Machine} {q : Program} {groups : Groups} {a : Assignment}

/-! ## Locations -/

/-- There is a location for every use. -/
@[simp] theorem size_locations : (locations q groups a).size = q.uses.size := by
  rw [locations, List.size_toArray, List.length_map, Program.useIds, List.length_range]

/-- A use lives in the registers of its group, and in memory without one. -/
theorem locationOf_locations (h : groups.Formed m q) (u : UseId) :
    locationOf (locations q groups a) u =
      (groups.ofUse? u).elim .memory fun g => .registers (a.heldBy g) := by
  rw [locationOf, locations, Array.getD_eq_getD_getElem?, List.getElem?_toArray, List.getElem?_map,
    Program.useIds]
  have inPlay := h.isSome_ofUse? u
  rw [Program.mem_usesInPlay] at inPlay
  by_cases hu : u < q.uses.size
  · rw [List.getElem?_range hu, Option.map_some, Option.getD_some]
    cases hg : groups.ofUse? u with
    | none => rfl
    | some g =>
      rw [hg] at inPlay
      simp [(inPlay.mp rfl).2]
  · have hnone : groups.ofUse? u = none := by
      rw [← Option.not_isSome_iff_eq_none]
      exact fun hsome => hu (inPlay.mp hsome).1
    rw [List.getElem?_eq_none (by simpa using hu), hnone]
    rfl

/-- A use holds what its group holds. -/
theorem held_locationOf (h : groups.Formed m q) {u : UseId} {g : GroupId}
    (hg : groups.ofUse? u = some g) : (locationOf (locations q groups a) u).held = a.heldBy g := by
  rw [locationOf_locations h, hg]
  rfl

/-- A use lives in registers if and only if it is in play. -/
theorem inRegisters_locations (h : groups.Formed m q) {u : UseId} :
    inRegisters (locations q groups a) u = true ↔ u ∈ q.usesInPlay := by
  rw [← h.isSome_ofUse? u, inRegisters, locationOf_locations h]
  cases groups.ofUse? u <;> simp [Location.isMemory]

/-- A use of the program lives in memory if and only if the program says so. -/
theorem locationOf_locations_eq_memory (h : groups.Formed m q) {u : UseId} (hu : u < q.uses.size) :
    locationOf (locations q groups a) u = .memory ↔ q.isInMemory u = true := by
  have inPlay := h.isSome_ofUse? u
  rw [Program.mem_usesInPlay] at inPlay
  rw [locationOf_locations h]
  cases hg : groups.ofUse? u with
  | none =>
    have : ¬ q.isInMemory u = false := by
      intro hmem
      have hsome := inPlay.mpr ⟨hu, hmem⟩
      rw [hg] at hsome
      cases hsome
    simpa using this
  | some g =>
    rw [hg] at inPlay
    simp [(inPlay.mp rfl).2]

/-- The uses that live in registers are those in play. -/
theorem usesInRegisters_locations (h : groups.Formed m q) :
    usesInRegisters q (locations q groups a) = q.usesInPlay := by
  refine List.filter_congr fun u hu => ?_
  rw [Bool.eq_iff_iff, inRegisters_locations h, Program.mem_usesInPlay, Bool.not_eq_true']
  exact and_iff_right (List.mem_range.mp hu)

/-- The linkages whose ends live in registers are those that join. -/
theorem liveLinkages_locations (h : groups.Formed m q) (hends : q.missingEnd? = none) :
    liveLinkages q (locations q groups a) = q.joiningLinkages := by
  refine List.filter_congr fun l hl => ?_
  obtain ⟨⟨k, id⟩, hk, rfl⟩ := List.mem_map.mp hl
  obtain ⟨hfirst, hsecond⟩ := Program.ends_lt_of_missingEnd? hends hk
  rw [Bool.eq_iff_iff, Bool.and_eq_true, inRegisters_locations h, inRegisters_locations h,
    Program.mem_usesInPlay, Program.mem_usesInPlay, Program.joins, Bool.and_eq_true,
    Bool.not_eq_true', Bool.not_eq_true']
  exact and_congr (and_iff_right hfirst) (and_iff_right hsecond)

/-! ## The rules -/

/-- Registers of the asked class that share no storage with each other violate no rule. -/
theorem registerViolations_eq_nil {u : UseId} {class? : Option ClassId} {rs : List RegisterId}
    (hclass : ∀ c, class? = some c → ∀ r ∈ rs, r ∈ m.members c)
    (hpair : rs.Pairwise fun r q => q ∉ m.aliases r) : registerViolations m u class? rs = [] := by
  induction rs with
  | nil => rfl
  | cons r later ih =>
    obtain ⟨hr, hlater⟩ := List.pairwise_cons.mp hpair
    have apart : later.any (m.aliases r).contains = false := by
      rw [List.any_eq_false]
      exact hr
    have rest := ih (fun c hc q hq => hclass c hc q (List.mem_cons_of_mem r hq)) hlater
    cases class? with
    | none => simp [registerViolations, apart, rest]
    | some c =>
      have member : (m.members c).contains r = true := hclass c rfl r List.mem_cons_self
      simp [registerViolations, member, apart, rest]

/-- A use whose group holds what fits it violates no rule. -/
theorem useViolations_locations (h : groups.Formed m q)
    (hfits : ∀ g, g < groups.size → (groups.get g).Fits m (a.heldBy g)) {u : UseId}
    (hu : u ∈ q.usesInPlay) : useViolations m q (locations q groups a) u = [] := by
  obtain ⟨g, hg⟩ := Option.isSome_iff_exists.mp ((h.isSome_ofUse? u).mpr hu)
  obtain ⟨hlt, hmem⟩ := h.mem_members u g hg
  rw [useViolations, held_locationOf h hg]
  cases huse : q.use? u with
  | none => rfl
  | some use =>
    have count : (a.heldBy g).length = use.registers :=
      (hfits g hlt).length_eq.trans ((h.suits g hlt).registers_eq u hmem use huse).symm
    have inClass : ∀ c, use.class? = some c → ∀ r ∈ a.heldBy g, r ∈ m.members c := by
      intro c hc r hr
      exact (h.suits g hlt).class_subset u hmem use c huse hc r ((hfits g hlt).mem_class r hr)
    simp only [if_pos count, List.nil_append]
    exact registerViolations_eq_nil inClass (hfits g hlt).pairwise

/-- The ends of a linkage that joins are in one group. -/
theorem Groups.Formed.ofUse?_ends (h : groups.Formed m q) (hends : q.missingEnd? = none) {l : Linkage}
    (hl : l ∈ q.joiningLinkages) : groups.ofUse? l.first = groups.ofUse? l.second := by
  obtain ⟨-, hfirst, hsecond⟩ := (Program.mem_joiningLinkages hends).mp hl
  exact (h.ofUse?_eq_iff _ hfirst _ hsecond).mpr (Program.root_joined_ends hends hl)

/-- Linked uses hold the same registers. -/
theorem linkViolations_locations (h : groups.Formed m q) (hends : q.missingEnd? = none) {l : Linkage}
    (hl : l ∈ q.joiningLinkages) : linkViolations (locations q groups a) l = [] := by
  rw [linkViolations, locationOf_locations h, locationOf_locations h, h.ofUse?_ends hends hl,
    if_pos rfl]

/-- A use in the span of a linkage and not joined with it is in a group that is a neighbour of the
linkage's. -/
theorem mem_neighbors_of_span (h : groups.Formed m q) {l : Linkage} {id : LinkageId} {span : Span}
    {position : Position} {u : UseId} {x y : GroupId} (hl : (l, id) ∈ q.activeLinkages)
    (hspan : q.span? l = some span) (hposition : q.position? u = some position)
    (hcontains : span.contains position = true) (hx : groups.ofUse? l.first = some x)
    (hy : groups.ofUse? u = some y) (hne : y ≠ x) :
    y ∈ (Interference.ofGroups q groups).neighbors x := by
  refine Interference.mem_neighbors_iff.mpr
    ⟨(h.mem_members _ x hx).1, (h.mem_members u y hy).1, ⟨min x y, max x y, ⟨id, u⟩⟩, ?_, rfl, rfl⟩
  exact mem_encounters_iff.mpr
    ⟨l, span, x, position, y, hl, hspan, hx, hposition, hcontains, hy, hne, rfl, rfl⟩

/-- When neighbours are apart, no use inside the span of a linkage holds what shares storage with the
linkage's registers. -/
theorem spanViolations_locations (h : groups.Formed m q) (hends : q.missingEnd? = none)
    (hapart : a.Apart m (.ofGroups q groups)) {l : Linkage} (hl : l ∈ q.joiningLinkages) :
    spanViolations m q (locations q groups a) q.joined q.usesInPlay l = [] := by
  rw [spanViolations]
  cases hspan : q.span? l with
  | none => rfl
  | some span =>
    refine List.map_eq_nil_iff.mpr (List.filter_eq_nil_iff.mpr fun u hu hviolates => ?_)
    simp only [Bool.and_eq_true, Bool.not_eq_true', UnionFind.same, beq_eq_false_iff_ne, ne_eq,
      Option.any_eq_true_iff_get] at hviolates
    obtain ⟨⟨⟨hposition, hcontains⟩, hroot⟩, hshare⟩ := hviolates
    obtain ⟨⟨id, hactive⟩, hfirst, -⟩ := (Program.mem_joiningLinkages hends).mp hl
    obtain ⟨x, hx⟩ := Option.isSome_iff_exists.mp ((h.isSome_ofUse? _).mpr hfirst)
    obtain ⟨y, hy⟩ := Option.isSome_iff_exists.mp ((h.isSome_ofUse? u).mpr hu)
    -- in one group they would have one root, and the rule asks for different ones
    have hne : y ≠ x := by
      rintro rfl
      exact hroot ((h.ofUse?_eq_iff _ hfirst u hu).mp (hx.trans hy.symm))
    have neighbor := mem_neighbors_of_span h hactive hspan (Option.eq_some_of_isSome hposition)
      hcontains hx hy hne
    -- both hold registers of their groups, and those are apart
    rw [held_locationOf h hx, held_locationOf h hy] at hshare
    obtain ⟨s, hs, hshare⟩ := List.any_eq_true.mp hshare
    obtain ⟨r, hr, hrs⟩ := List.any_eq_true.mp hshare
    exact hapart x y neighbor r hr s hs hrs

/-- A colouring of all groups that keeps neighbours apart violates no rule. -/
theorem violations_locations (h : groups.Formed m q) (hends : q.missingEnd? = none)
    (hfits : ∀ g, g < groups.size → (groups.get g).Fits m (a.heldBy g))
    (hapart : a.Apart m (.ofGroups q groups)) : violations m q (locations q groups a) = [] := by
  -- the second look follows the same uses, linkages and joined sets; then it has three rules
  rw [violations, usesInRegisters_locations h, liveLinkages_locations h hends, ← Program.joined]
  rw [List.flatMap_eq_nil_iff.mpr fun u hu => useViolations_locations h hfits hu,
    List.flatMap_eq_nil_iff.mpr fun l hl => linkViolations_locations h hends hl,
    List.flatMap_eq_nil_iff.mpr fun l hl => spanViolations_locations h hends hapart hl]
  rfl

/-! ## The second look -/

/-- Locations of all uses lead to no fault when active linkages join uses of the program. -/
theorem checkLegal_eq_ok {ls : Array Location} (hsize : ls.size = q.uses.size)
    (hends : q.missingEnd? = none) : checkLegal m q ls = .ok (violations m q ls) := by
  have located : ∀ u, u < q.uses.size → locationFault? ls u = none := by
    intro u hu
    rw [locationFault?, if_pos (hsize ▸ hu)]
  have there : ∀ u, u < q.uses.size → useFault? q u = none := by
    intro u hu
    rw [useFault?, Program.use?, Array.getElem?_eq_getElem hu]
    rfl
  have ofUses : q.useIds.findSome? (locationFault? ls) = none :=
    List.findSome?_eq_none_iff.mpr fun u hu => located u (List.mem_range.mp hu)
  have ofLinkages : ∀ x ∈ q.activeLinkages, linkageFault? q ls x.1 = none := by
    intro x hx
    obtain ⟨hfirst, hsecond⟩ := Program.ends_lt_of_missingEnd? hends hx
    simp [linkageFault?, located _ hfirst, located _ hsecond, there _ hfirst, there _ hsecond]
  rw [checkLegal, ofUses, Option.none_or]
  split
  · rename_i f hfault
    obtain ⟨x, hx, hf⟩ := List.exists_of_findSome?_eq_some hfault
    cases (ofLinkages x hx).symm.trans hf
  · rfl

/-- Every allocation on an accepted machine passes the second look, and has in memory exactly the uses
that the program left by it has there. -/
theorem checkLegal_allocate {d : MachineDescription} (hm : Machine.ofDescription d = .ok m)
    (settings : Settings) (p : Program) {found : Allocation}
    (h : (allocate m settings p).allocation = .ok found) :
    checkLegal m (allocate m settings p).program found.locations = .ok [] ∧
      found.locations.size = (allocate m settings p).program.uses.size ∧
      ∀ u, u < (allocate m settings p).program.uses.size →
        (locationOf found.locations u = .memory ↔
          (allocate m settings p).program.isInMemory u = true) := by
  have result : (allocate m settings p).result = .ok found.locations := by
    rw [Run.allocation] at h
    cases hresult : (allocate m settings p).result with
    | error e =>
      rw [hresult] at h
      cases h
    | ok ls =>
      rw [hresult] at h
      cases h
      rfl
  obtain ⟨p', number, q, a, hattempt, hcolored, hprogram, hlocations⟩ := allocateFrom_eq_ok result
  obtain ⟨hsound, -⟩ := Attempt.sound_of_ofProgram hattempt
  have apart := hsound.apart (Machine.consistent_of_ofDescription hm)
  rw [hsound.graph_eq] at apart
  rw [allocate, hprogram, hlocations]
  refine ⟨?_, size_locations, fun u hu => locationOf_locations_eq_memory hsound.formed hu⟩
  rw [checkLegal_eq_ok size_locations hsound.missingEnd?_eq, violations_locations hsound.formed
    hsound.missingEnd?_eq (fun g hg => Attempt.fits_trial hcolored hg) apart]

/-- The second attempt on `contended` succeeds, after one linkage was broken and one use moved. -/
theorem checkLegal_allocate_contended :
    ∃ found, (allocate bytePairMachine { spillUnallocatable := true } contended).allocation = .ok found ∧
      found.locations = #[.registers [0], .registers [0], .registers [2], .memory, .registers [0],
        .registers [0], .registers [1]] ∧
      checkLegal bytePairMachine
        (allocate bytePairMachine { spillUnallocatable := true } contended).program found.locations =
          .ok [] := by
  have computed : ((allocate bytePairMachine { spillUnallocatable := true }
      contended).allocation.map Allocation.locations) = .ok #[.registers [0], .registers [0],
        .registers [2], .memory, .registers [0], .registers [0], .registers [1]] := by
    decide +kernel
  cases h : (allocate bytePairMachine { spillUnallocatable := true } contended).allocation with
  | error e =>
    rw [h] at computed
    cases computed
  | ok found =>
    rw [h] at computed
    exact ⟨found, rfl, Except.ok.inj computed, (checkLegal_allocate ofDescription_bytePair _ _ h).1⟩

end RegisterColoring
