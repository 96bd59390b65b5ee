import RegisterColoring.Proofs.Checked.Run

/-! # Checked second looks and listings

A second look at an allocation and its listing ask for the location and the function of every use and for the
registers that uses hold. All of these are there when the allocation is one of an accepted program.

* `Allocation.Sized`: every use has a location, and holds registers of the machine.
* `Allocation.sized_of_allocate`: so it is with the allocations that are found.
* `Checked.violations_eq_some`, `Checked.exists_listing`: such an allocation can be looked at and listed.
* `allocate_passes_checks`: nothing that is not there is asked for and no word is too small, from the tables of
  a machine to the listing of an allocation. -/

namespace RegisterColoring

/-- What is known of an allocation for a program. -/
structure Allocation.Sized (m : Machine) (p : Program) (found : Allocation) : Prop where
  /-- Every use has a location. -/
  size_eq : found.locations.size = p.uses.size
  /-- Uses hold registers of the machine. -/
  held_lt : ∀ location ∈ found.locations, ∀ r ∈ location.held, r < m.registerCount

/-- The allocations that are found have a location for every use and use registers of the machine. -/
theorem Allocation.sized_of_allocate {m : Machine} (hm : m.Consistent) {settings : Settings} {p : Program}
    {found : Allocation} (h : (allocate m settings p).allocation = .ok found) :
    found.Sized m (allocate m settings p).program := by
  obtain ⟨hresult, -⟩ := Run.allocation_eq_ok_iff.mp h
  obtain ⟨p', number, q, a, -, -, hprogram, hlocations⟩ := allocateFrom_eq_ok hresult
  rw [allocate, hprogram]
  refine ⟨hlocations ▸ size_locations, fun location hlocation r hr => ?_⟩
  rw [hlocations, RegisterColoring.locations, List.mem_toArray] at hlocation
  obtain ⟨u, -, rfl⟩ := List.mem_map.mp hlocation
  split at hr
  · split at hr
    · cases hr
    · exact (a.sized_assignment hm).held_lt _ r hr
  · cases hr

namespace Checked

variable {m : Machine} {p : Program} {found : Allocation}

/-! ## The rules -/

/-- The location of a use. -/
def locationOf (locations : Array Location) (u : UseId) : Option Location :=
  locations[u]?

/-- Whether a use lives in registers. -/
def inRegisters (locations : Array Location) (u : UseId) : Option Bool := do
  return !(← locationOf locations u).isMemory

/-- The name of a register. -/
def registerName (m : Machine) (r : RegisterId) : Option String := do
  return (← m.registers[r]?).name

/-- Violations by the registers that one use holds. -/
def registerViolations (m : Machine) (u : UseId) (class? : Option ClassId) :
    List RegisterId → Option (List Violation)
  | [] => some []
  | r :: later => do
    let name ← registerName m r
    let outside ← match class? with
      | some c => do
        let fitting ← classAt m c
        pure (if fitting.members.contains r then [] else [.wrongClass u name fitting.name])
      | none => pure []
    let overlapping := if later.any (← aliases m r).contains then [.selfOverlap u name] else []
    return outside ++ overlapping ++ (← registerViolations m u class? later)

/-- Violations of one use. -/
def useViolations (m : Machine) (p : Program) (locations : Array Location) (u : UseId) :
    Option (List Violation) := do
  let use ← p.use? u
  let held := (← locationOf locations u).held
  return (if held.length = use.registers then [] else [.wrongCount u held.length use.registers]) ++
    (← registerViolations m u use.class? held)

/-- Violations of a linkage: its ends hold different registers. -/
def linkViolations (locations : Array Location) (l : Linkage) : Option (List Violation) := do
  return if (← locationOf locations l.first) = (← locationOf locations l.second) then []
    else [.linkedApart l.first l.second]

/-- Whether some register of one list shares storage with one of the other. -/
def shareStorage (m : Machine) (rs qs : List RegisterId) : Option Bool := do
  let shared ← rs.mapM (aliases m)
  return qs.any fun q => shared.any fun s => s.contains q

/-- The uses inside the span of a linkage, each with the linkage. -/
def inside (p : Program) (uses : List UseId) (l : Linkage) : Option (List (Linkage × UseId)) := do
  match ← span p l with
  | none => return []
  | some s =>
    let within ← filterM (fun u => do return (← p.use? u).position.any s.contains) uses
    return within.map fun u => (l, u)

/-- The uses that hold a register which shares storage with one of the linkage around them. To ask whether a use
is joined with the linkage shortens the paths to their roots. -/
def overwriting (m : Machine) (locations : Array Location) :
    UnionFind → List (Linkage × UseId) → Option (List (Linkage × UseId))
  | _, [] => some []
  | joined, (l, u) :: later => do
    let (a, joined) ← find joined l.first
    let (b, joined) ← find joined u
    let held := (← locationOf locations l.first).held
    let shared ← shareStorage m held (← locationOf locations u).held
    let rest ← overwriting m locations joined later
    return if a != b && shared then (l, u) :: rest else rest

/-- Violations inside the spans of linkages. -/
def spanViolations (m : Machine) (p : Program) (locations : Array Location) (joined : UnionFind)
    (uses : List UseId) (linkages : List Linkage) : Option (List Violation) := do
  let spanned ← linkages.mapM (inside p uses)
  return (← overwriting m locations joined spanned.flatten).map fun (l, u) => .overwritten l.first u

/-- All violations of an allocation: those of each use, of each linkage, and of each span. -/
def violations (m : Machine) (p : Program) (locations : Array Location) : Option (List Violation) := do
  let uses ← filterM (inRegisters locations) p.useIds
  let linkages ← filterM
    (fun l => do return (← inRegisters locations l.first) && (← inRegisters locations l.second))
    (p.activeLinkages.map Prod.fst)
  let joined ← unite p.uses.size linkages
  let ofUses ← uses.mapM (useViolations m p locations)
  let ofLinkages ← linkages.mapM (linkViolations locations)
  let ofSpans ← spanViolations m p locations joined uses linkages
  return ofUses.flatten ++ ofLinkages.flatten ++ ofSpans

theorem locationOf_eq_some (h : found.Sized m p) {u : UseId} (hu : u < p.uses.size) :
    locationOf found.locations u = some (RegisterColoring.locationOf found.locations u) :=
  getElem?_eq_some_getD (h.size_eq ▸ hu) .memory

theorem inRegisters_eq_some (h : found.Sized m p) {u : UseId} (hu : u < p.uses.size) :
    inRegisters found.locations u = some (RegisterColoring.inRegisters found.locations u) := by
  rw [inRegisters, locationOf_eq_some h hu]
  rfl

theorem registerName_eq_some {r : RegisterId} (hr : r < m.registerCount) :
    registerName m r = some (m.registerName r) := by
  rw [registerName, getElem?_eq_some_getD hr default]
  rfl

/-- What a use holds are registers of the machine. -/
theorem held_locationOf_lt (h : found.Sized m p) {u : UseId} (hu : u < p.uses.size) :
    ∀ r ∈ (RegisterColoring.locationOf found.locations u).held, r < m.registerCount :=
  h.held_lt _ (Array.mem_of_getElem? (locationOf_eq_some h hu))

/-- The registers that a use holds can be looked at. -/
theorem registerViolations_eq_some {u : UseId} {class? : Option ClassId} (hclass : ∀ c ∈ class?, c < m.classCount)
    {held : List RegisterId} (hheld : ∀ r ∈ held, r < m.registerCount) :
    registerViolations m u class? held = some (RegisterColoring.registerViolations m u class? held) := by
  induction held with
  | nil => rfl
  | cons r later ih =>
    have hr := hheld r List.mem_cons_self
    have hlater := ih fun q hq => hheld q (List.mem_cons_of_mem r hq)
    rw [registerViolations, registerName_eq_some hr]
    cases class? with
    | none =>
      simp only [RegisterColoring.registerViolations, Option.bind_eq_bind, Option.bind_some, aliases_eq_some hr, hlater]
      rfl
    | some c =>
      simp only [RegisterColoring.registerViolations, Option.bind_eq_bind, Option.bind_some, aliases_eq_some hr, hlater,
        classAt_eq_some (hclass c rfl)]
      rfl

/-- A use can be looked at. -/
theorem useViolations_eq_some (hp : p.Sized m) (h : found.Sized m p) {u : UseId} (hu : u < p.uses.size) :
    useViolations m p found.locations u =
      some (RegisterColoring.useViolations m p found.locations u) := by
  have huse : p.use? u = some p.uses[u] := Array.getElem?_eq_getElem hu
  have hregisters := registerViolations_eq_some (u := u) (hp.asks _ (Array.getElem_mem hu))
    (held_locationOf_lt h hu)
  rw [useViolations, RegisterColoring.useViolations, huse]
  simp only [Option.bind_eq_bind, Option.bind_some, locationOf_eq_some h hu, hregisters]
  rfl

/-- Two lists of registers of the machine can be compared. -/
theorem shareStorage_eq_some {rs : List RegisterId} (hrs : ∀ r ∈ rs, r < m.registerCount)
    (qs : List RegisterId) : shareStorage m rs qs = some (RegisterColoring.shareStorage m rs qs) := by
  rw [shareStorage, mapM_eq_some fun r hr => aliases_eq_some (hrs r hr), RegisterColoring.shareStorage]
  simp only [Option.bind_eq_bind, Option.bind_some, List.any_map]
  rfl

/-- The uses inside the span of a linkage can be found. -/
theorem inside_eq_some {uses : List UseId} (huses : ∀ u ∈ uses, u < p.uses.size) {l : Linkage}
    (hfirst : l.first < p.uses.size) (hsecond : l.second < p.uses.size) :
    inside p uses l = some ((p.span? l).elim [] fun s =>
      (uses.filter fun u => (p.position? u).any s.contains).map fun u => (l, u)) := by
  rw [inside, span_eq_some hfirst hsecond, Option.bind_eq_bind, Option.bind_some]
  cases p.span? l with
  | none => rfl
  | some s =>
    have hwithin : filterM (fun u => do return (← p.use? u).position.any s.contains) uses =
        some (uses.filter fun u => (p.position? u).any s.contains) := by
      refine filterM_eq_some fun u hu => ?_
      rw [Program.position?, Program.use?, Array.getElem?_eq_getElem (huses u hu)]
      rfl
    simp only [hwithin]
    rfl

/-- Pairs of a linkage and a use inside its span can be looked at. -/
theorem overwriting_eq_some (h : found.Sized m p) {joined : UnionFind} {rep rank : Nat → Nat}
    (hjoined : joined.Ranked rep rank) (hlength : joined.length = p.uses.size)
    {spanned : List (Linkage × UseId)}
    (hspanned : ∀ x ∈ spanned, x.1.first < p.uses.size ∧ x.2 < p.uses.size) :
    overwriting m found.locations joined spanned =
      some (spanned.filter fun x => rep x.1.first != rep x.2 && RegisterColoring.shareStorage m
        (RegisterColoring.locationOf found.locations x.1.first).held
        (RegisterColoring.locationOf found.locations x.2).held) := by
  induction spanned generalizing joined with
  | nil => rfl
  | cons x later ih =>
    obtain ⟨l, u⟩ := x
    obtain ⟨hfirst, hu⟩ := hspanned (l, u) List.mem_cons_self
    -- looking for two roots shortens paths, and the roots stay the same for the pairs that follow
    obtain ⟨hroot, hjoined', hlength'⟩ := hjoined.find (hlength ▸ hfirst)
    have hu' : u < (joined.find l.first).2.length := hlength' ▸ hlength ▸ hu
    obtain ⟨hroot', hjoined'', hlength''⟩ := hjoined'.find hu'
    have hlater := ih hjoined'' (hlength''.trans (hlength'.trans hlength)) fun x hx =>
      hspanned x (List.mem_cons_of_mem _ hx)
    rw [overwriting, find_eq_some hjoined (hlength ▸ hfirst)]
    simp only [Option.bind_eq_bind, Option.bind_some, find_eq_some hjoined' hu', locationOf_eq_some h hfirst,
      locationOf_eq_some h hu, shareStorage_eq_some (held_locationOf_lt h hfirst), hlater, hroot, hroot',
      List.filter_cons]
    rfl

/-- The spans of linkages can be looked at. -/
theorem spanViolations_eq_some (h : found.Sized m p) {linkages : List Linkage}
    (hends : Program.EndsBelow p.uses.size linkages) {uses : List UseId} (huses : ∀ u ∈ uses, u < p.uses.size) :
    spanViolations m p found.locations (Program.unite p.uses.size linkages) uses linkages =
      some (linkages.flatMap (RegisterColoring.spanViolations m p found.locations
        (Program.unite p.uses.size linkages) uses)) := by
  obtain ⟨hlength, rep, hrep, -⟩ := Program.represents_unite hends
  generalize Program.unite p.uses.size linkages = joined at hlength hrep ⊢
  have hsame : ∀ l ∈ linkages, ∀ u ∈ uses, (!joined.same l.first u) = (rep l.first != rep u) := by
    intro l hl u hu
    rw [UnionFind.same, hrep.root_eq (hlength ▸ (hends l hl).1), hrep.root_eq (hlength ▸ huses u hu)]
    rfl
  have hspanned : ∀ x ∈ (linkages.map fun l => (p.span? l).elim [] fun s =>
      (uses.filter fun u => (p.position? u).any s.contains).map fun u => (l, u)).flatten,
        x.1.first < p.uses.size ∧ x.2 < p.uses.size := by
    intro x hx
    rw [← List.flatMap_def] at hx
    obtain ⟨l, hl, hx⟩ := List.mem_flatMap.mp hx
    cases hspan : p.span? l with
    | none =>
      rw [hspan] at hx
      cases hx
    | some s =>
      rw [hspan] at hx
      obtain ⟨u, hu, rfl⟩ := List.mem_map.mp hx
      exact ⟨(hends l hl).1, huses u (List.mem_of_mem_filter hu)⟩
  obtain ⟨rank, hranked⟩ := hrep
  rw [spanViolations, mapM_eq_some fun l hl => inside_eq_some huses (hends l hl).1 (hends l hl).2,
    Option.bind_eq_bind, Option.bind_some, overwriting_eq_some h hranked hlength hspanned]
  refine congrArg some ?_
  -- linkage by linkage, what is left of the uses inside its span are those that violate it
  rw [← List.flatMap_def, List.filter_flatMap, List.map_flatMap]
  refine List.flatMap_congr fun l hl => ?_
  rw [RegisterColoring.spanViolations]
  cases p.span? l with
  | none => rfl
  | some s =>
    simp only [Option.elim_some, List.filter_map, List.map_map, List.filter_filter]
    refine congrArg (List.map fun u => Violation.overwritten l.first u) (List.filter_congr fun u hu => ?_)
    rw [hsame l hl u hu, Bool.and_comm, Bool.and_assoc]
    rfl

/-- An allocation for an accepted program can be looked at. -/
theorem violations_eq_some (hp : p.Sized m) (h : found.Sized m p) :
    violations m p found.locations = some (RegisterColoring.violations m p found.locations) := by
  have huses : filterM (inRegisters found.locations) p.useIds = some (usesInRegisters p found.locations) :=
    filterM_eq_some fun u hu => inRegisters_eq_some h (List.mem_range.mp hu)
  have hlt : ∀ u ∈ usesInRegisters p found.locations, u < p.uses.size := fun u hu =>
    List.mem_range.mp (List.mem_of_mem_filter hu)
  have hactive : Program.EndsBelow p.uses.size (p.activeLinkages.map Prod.fst) := by
    intro l hl
    obtain ⟨x, hx, rfl⟩ := List.mem_map.mp hl
    exact Program.ends_lt_of_missingEnd? (Program.missingEnd?_eq_none hp.ends) hx
  have hlinkages : filterM (fun l => do
      return (← inRegisters found.locations l.first) && (← inRegisters found.locations l.second))
        (p.activeLinkages.map Prod.fst) = some (liveLinkages p found.locations) := by
    refine filterM_eq_some fun l hl => ?_
    rw [inRegisters_eq_some h (hactive l hl).1, inRegisters_eq_some h (hactive l hl).2]
    rfl
  have hends : Program.EndsBelow p.uses.size (liveLinkages p found.locations) := fun l hl =>
    hactive l (List.mem_of_mem_filter hl)
  have hunite := unite_eq_some hends (by have := hp.uses_lt; omega)
  have hofUses := mapM_eq_some fun u hu => useViolations_eq_some hp h (hlt u hu)
  have hofLinkages : (liveLinkages p found.locations).mapM (linkViolations found.locations) =
      some ((liveLinkages p found.locations).map (RegisterColoring.linkViolations found.locations)) := by
    refine mapM_eq_some fun l hl => ?_
    rw [linkViolations, locationOf_eq_some h (hends l hl).1, locationOf_eq_some h (hends l hl).2]
    rfl
  have hofSpans := spanViolations_eq_some h hends hlt
  rw [violations, huses, Option.bind_eq_bind, Option.bind_some, hlinkages]
  simp only [Option.bind_eq_bind, Option.bind_some, hunite, hofUses, hofLinkages, hofSpans,
    ← List.flatMap_def]
  rfl

/-! ## The listing -/

/-- The location as text: the names of its registers, or `spill`. -/
def locationText (m : Machine) : Location → Option String
  | .registers rs => do return ", ".intercalate (← rs.mapM (registerName m))
  | .memory => some "spill"

/-- One line for a use: its function, its kind, its operation, and where it lives. -/
def line (m : Machine) (p : Program) (use : Use) (location : Location) : Option String := do
  let function ← p.functions[use.function]?
  let place ← locationText m location
  return "\t".intercalate [function, use.kind.name, toString use.operation, place] ++ "\n"

/-- One line for every use that has a location. -/
def listing (m : Machine) (p : Program) (found : Allocation) : Option String := do
  let lines ← (p.uses.toList.zip found.locations.toList).mapM fun (use, location) => line m p use location
  return String.join lines

theorem locationText_eq_some {location : Location} (h : ∀ r ∈ location.held, r < m.registerCount) :
    locationText m location = some (location.text m) := by
  cases location with
  | memory => rfl
  | registers rs =>
    have hnames : rs.mapM (registerName m) = some (rs.map m.registerName) :=
      mapM_eq_some fun r hr => registerName_eq_some (h r hr)
    rw [locationText, hnames]
    rfl

/-- An allocation for an accepted program can be listed. -/
theorem exists_listing (hp : p.Sized m) (h : found.Sized m p) :
    ∃ text, listing m p found = some text ∧ found.listing m p = .ok text := by
  obtain ⟨text, hlines⟩ : ∃ text : Use × Location → String, ∀ x ∈ p.uses.toList.zip found.locations.toList,
      line m p x.1 x.2 = some (text x) ∧ Allocation.line m p x.1 x.2 = .ok (text x) := by
    refine ⟨fun x => "\t".intercalate [p.functions.getD x.1.function "", x.1.kind.name,
      toString x.1.operation, x.2.text m] ++ "\n", ?_⟩
    rintro ⟨use, location⟩ hx
    obtain ⟨huse, hlocation⟩ := List.of_mem_zip hx
    have hfunction := getElem?_eq_some_getD (hp.function_lt use (Array.mem_toList_iff.mp huse)) ""
    have htext := locationText_eq_some (h.held_lt location (Array.mem_toList_iff.mp hlocation))
    rw [line, Allocation.line, Program.nameOfFunction, hfunction, htext]
    exact ⟨rfl, rfl⟩
  rw [listing, Allocation.listing, mapM_eq_pure fun x hx => (hlines x hx).1,
    mapM_eq_pure fun x hx => (hlines x hx).2]
  exact ⟨_, rfl, rfl⟩

end Checked

/-! ## From descriptions to listings -/

/-- When a machine with fewer than `2 ^ 16` registers and a program with fewer than `2 ^ 15` uses and `2 ^ 31`
linkages were accepted, and what uses need is written in 32 bits, every step passes its checks: the tables of the
machine, all attempts however they end, and the second look at an allocation and its listing. None of them comes
upon a fault. -/
theorem allocate_passes_checks {d : MachineDescription} {m : Machine} (hm : Machine.ofDescription d = .ok m)
    (hregisters : d.registers.length < 2 ^ 16) {written : ProgramDescription} {p : Program}
    (hp : Program.ofDescription m written = .ok p) (huses : written.uses.length < 2 ^ 15)
    (hlinkages : written.linkages.length < 2 ^ 31)
    (hneeds : ∀ use ∈ written.uses, use.registers < 2 ^ 32) (settings : Settings) :
    Checked.coverage m = some m.coverage ∧
      Checked.allocate m settings p = some (allocate m settings p) ∧
      (∀ f, (allocate m settings p).result ≠ .error (.fault f)) ∧
      ∀ found, (allocate m settings p).allocation = .ok found →
        Checked.violations m (allocate m settings p).program found.locations =
            some (violations m (allocate m settings p).program found.locations) ∧
          checkLegal m (allocate m settings p).program found.locations =
            .ok (violations m (allocate m settings p).program found.locations) ∧
          ∃ text, Checked.listing m (allocate m settings p).program found = some text ∧
            found.listing m (allocate m settings p).program = .ok text := by
  have hsized := Machine.sized_of_ofDescription hm hregisters
  have hprogram := Program.sized_of_ofDescription hp huses hlinkages hneeds
  refine ⟨Checked.coverage_eq_some hsized, Checked.allocate_eq_some hsized hprogram settings,
    Checked.result_allocateFrom_ne_fault hsized.toConsistent hprogram, fun found hfound => ?_⟩
  have hleft : (allocate m settings p).program.Sized m := hprogram.of_keeps keeps_allocateFrom
  have hallocation := Allocation.sized_of_allocate hsized.toConsistent hfound
  exact ⟨Checked.violations_eq_some hleft hallocation,
    checkLegal_eq_ok hallocation.size_eq (Program.missingEnd?_eq_none hleft.ends),
    Checked.exists_listing hleft hallocation⟩

/-- The program `contended` as it is written down. -/
def writtenContended : ProgramDescription where
  functions := ["f"]
  uses := [
    ⟨"f", .tripleOutput, 0, some "byte", 1, some 0, some 0⟩,
    ⟨"f", .operand, 1, some "byte", 1, some 0, some 3⟩,
    ⟨"f", .operand, 2, some "word", 1, some 0, some 2⟩,
    ⟨"f", .temp, 3, some "word", 2, none, none⟩,
    ⟨"f", .tripleOutput, 4, some "byte", 1, some 1, some 0⟩,
    ⟨"f", .operand, 5, some "byte", 1, some 1, some 2⟩,
    ⟨"f", .operand, 6, some "byte", 1, some 1, some 1⟩]
  linkages := [(0, 1), (4, 5)]

/-- Two attempts on `contended` pass all checks, after one linkage was broken and one use moved. -/
theorem allocate_passes_checks_contended :
    Program.ofDescription bytePairMachine writtenContended = .ok contended ∧
      Checked.allocate bytePairMachine { spillUnallocatable := true } contended =
        some (allocate bytePairMachine { spillUnallocatable := true } contended) ∧
      ∃ found text,
        (allocate bytePairMachine { spillUnallocatable := true } contended).allocation = .ok found ∧
        Checked.listing bytePairMachine
          (allocate bytePairMachine { spillUnallocatable := true } contended).program found = some text := by
  have accepted : Program.ofDescription bytePairMachine writtenContended = .ok contended := by
    decide +kernel
  have succeeds : (allocate bytePairMachine { spillUnallocatable := true } contended).allocation.isOk = true := by
    decide +kernel
  obtain ⟨-, hrun, -, hlooks⟩ := allocate_passes_checks ofDescription_bytePair (by decide) accepted (by decide)
    (by decide) (by decide) { spillUnallocatable := true }
  cases hfound : (allocate bytePairMachine { spillUnallocatable := true } contended).allocation with
  | error e =>
    rw [hfound] at succeeds
    cases succeeds
  | ok found =>
    obtain ⟨-, -, text, hlisting, -⟩ := hlooks found hfound
    exact ⟨accepted, hrun, found, text, rfl, hlisting⟩

end RegisterColoring
