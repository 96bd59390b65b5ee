import RegisterColoring.Proofs.Checked.Ranking

/-! # Checked colouring and revision

Groups hold registers of the machine only, so the sets of what they block can be collected. A revision cuts
linkages and moves uses of the program that it revises.

* `Assignment.Sized`: every group has an entry, and holds registers of the machine.
* `Checked.colorInOrder_eq_some`: groups can be given registers in any order.
* `Checked.choose_eq_some`: what to change after a failed attempt can be found.
* `Checked.revise_eq_some`, `Checked.locations_eq_some`: the change can be made, and locations written down. -/

namespace RegisterColoring

/-- What is known of the registers that groups hold. -/
structure Assignment.Sized (m : Machine) (groups : Groups) (a : Assignment) : Prop where
  /-- Every group has an entry. -/
  size_eq : a.size = groups.size
  /-- Groups hold registers of the machine. -/
  held_lt : ∀ g, ∀ r ∈ a.heldBy g, r < m.registerCount

/-- Before any group holds registers. -/
theorem Assignment.sized_none (m : Machine) (groups : Groups) : (none groups).Sized m groups where
  size_eq := Array.size_replicate
  held_lt g r hr := by
    rw [heldBy_none] at hr
    cases hr

namespace Checked

variable {m : Machine} {p : Program} {groups : Groups} {graph : Interference} {a : Assignment} {g : GroupId}

/-! ## Registers for a group -/

/-- The registers that a group holds. -/
def heldBy (a : Assignment) (g : GroupId) : Option (List RegisterId) :=
  a[g]?

/-- The registers that share storage with what the neighbours of `g` hold. -/
def blockedFor (m : Machine) (graph : Interference) (a : Assignment) (g : GroupId) : Option RegisterSet := do
  aliasesOfAll m (← (← neighbors graph g).mapM (heldBy a)).flatten

/-- The neighbours of `g` that wait. -/
def waitingNeighbors (m : Machine) (groups : Groups) (graph : Interference) (a : Assignment)
    (g : GroupId) : Option (List Waiting) := do
  let waiting ← filterM (fun n => do return (← heldBy a n).isEmpty) (← neighbors graph g)
  waiting.mapM fun n => do
    return ⟨(← classAt m (← groupAt groups n).classId).members, ← blockedFor m graph a n⟩

/-- How many waiting neighbours a register spares. -/
def sparedCount (m : Machine) (waiting : List Waiting) (r : RegisterId) : Option Nat := do
  let aliased ← aliases m r
  return waiting.countP fun w => (aliased.inter w.members).isSubset w.blocked

/-- The register that spares the most waiting neighbours, the lowest on ties. -/
def bestRegister (m : Machine) (waiting : List Waiting) (available : RegisterSet) :
    Option (Option RegisterId) := do
  let scored ← available.toList.mapM fun r => do return (r, ← sparedCount m waiting r)
  return (leastBy? (fun a b => b.2 < a.2) scored).map Prod.fst

/-- Pick the given number of registers one after the other, each time dropping all that share storage with the
pick. -/
def pickRegisters (m : Machine) (waiting : List Waiting) :
    Nat → RegisterSet → Option (Option (List RegisterId))
  | 0, _ => some (some [])
  | count + 1, available => do
    match ← bestRegister m waiting available with
    | some r =>
      let later ← pickRegisters m waiting count (← sdiff available (← aliases m r))
      return later.map (r :: ·)
    | none => return none

/-- The registers for a group, if its neighbours leave it enough. -/
def registersFor (m : Machine) (groups : Groups) (graph : Interference) (a : Assignment) (g : GroupId) :
    Option (Option (List RegisterId)) := do
  let group ← groupAt groups g
  let available ← sdiff (← classAt m group.classId).members (← blockedFor m graph a g)
  pickRegisters m (← waitingNeighbors m groups graph a g) group.registers available

/-- Give registers to the groups of a list, one after the other. -/
def colorInOrder (m : Machine) (groups : Groups) (graph : Interference) :
    List GroupId → Assignment → Option Coloring
  | [], a => some ⟨a, []⟩
  | g :: rest, a => do
    let chosen ← registersFor m groups graph a g
    let next ← match chosen with
      | some rs => setAt a g rs
      | none => some a
    let later ← colorInOrder m groups graph rest next
    return ⟨later.assignment, (g, chosen) :: later.outcomes⟩

theorem heldBy_eq_some (ha : a.Sized m groups) (hg : g < groups.size) : heldBy a g = some (a.heldBy g) :=
  getElem?_eq_some_getD (ha.size_eq ▸ hg) []

/-- What neighbours block can be collected. -/
theorem blockedFor_eq_some (hm : m.Consistent) (hgraph : graph.Sized groups) (ha : a.Sized m groups)
    (hg : g < groups.size) : blockedFor m graph a g = some (RegisterColoring.blockedFor m graph a g) := by
  have hheld : (graph.neighbors g).mapM (heldBy a) = some ((graph.neighbors g).map a.heldBy) :=
    mapM_eq_some fun n hn => heldBy_eq_some ha (hgraph.lt_size g n hn)
  rw [blockedFor, neighbors_eq_some hgraph hg]
  simp only [Option.bind_eq_bind, Option.bind_some, hheld, ← List.flatMap_def]
  refine aliasesOfAll_eq_some hm fun r hr => ?_
  obtain ⟨n, -, hr⟩ := List.mem_flatMap.mp hr
  exact ha.held_lt n r hr

/-- The neighbours that wait can be found. -/
theorem waitingNeighbors_eq_some (hm : m.Consistent) (hgroups : groups.Sized m p)
    (hgraph : graph.Sized groups) (ha : a.Sized m groups) (hg : g < groups.size) :
    waitingNeighbors m groups graph a g =
      some (RegisterColoring.waitingNeighbors m groups graph a g) := by
  have hwaiting : filterM (fun n => do return (← heldBy a n).isEmpty) (graph.neighbors g) =
      some ((graph.neighbors g).filter fun n => (a.heldBy n).isEmpty) := by
    refine filterM_eq_some fun n hn => ?_
    rw [heldBy_eq_some ha (hgraph.lt_size g n hn)]
    rfl
  rw [waitingNeighbors, neighbors_eq_some hgraph hg, Option.bind_eq_bind, Option.bind_some, hwaiting,
    Option.bind_eq_bind, Option.bind_some]
  refine mapM_eq_some fun n hn => ?_
  have hlt := hgraph.lt_size g n (List.mem_of_mem_filter hn)
  simp only [groupAt_eq_some hlt, Option.bind_eq_bind, Option.bind_some,
    classAt_eq_some (hgroups.class_lt n hlt), blockedFor_eq_some hm hgraph ha hlt]
  rfl

/-- The best register of a set of registers of the machine can be found. -/
theorem bestRegister_eq_some (waiting : List Waiting) {available : RegisterSet}
    (hwidth : available.width = m.registerCount) :
    bestRegister m waiting available = some (bestRegister? m waiting available) := by
  have hscored : (available.toList.mapM fun r => do return (r, ← sparedCount m waiting r)) =
      some (available.toList.map fun r => (r, RegisterColoring.sparedCount m waiting r)) := by
    refine mapM_eq_some fun r hr => ?_
    have hr : r < m.registerCount := hwidth ▸ available.lt_width r (RegisterSet.mem_toList.mp hr)
    rw [sparedCount, aliases_eq_some hr]
    rfl
  rw [bestRegister, hscored]
  rfl

/-- Registers can be picked from a set of registers of the machine. -/
theorem pickRegisters_eq_some (hm : m.Consistent) (waiting : List Waiting) {count : Nat}
    {available : RegisterSet} (hwidth : available.width = m.registerCount) :
    pickRegisters m waiting count available =
      some (RegisterColoring.pickRegisters m waiting count available) := by
  induction count generalizing available with
  | zero => rfl
  | succ count ih =>
    rw [pickRegisters, RegisterColoring.pickRegisters, bestRegister_eq_some waiting hwidth,
      Option.bind_eq_bind, Option.bind_some]
    cases hbest : bestRegister? m waiting available with
    | none => rfl
    | some r =>
      have hr : r < m.registerCount := hwidth ▸ available.lt_width r (mem_of_bestRegister? hbest)
      have hdrop : sdiff available (m.aliases r) = some (available.sdiff (m.aliases r)) :=
        sdiff_eq_some (by rw [hm.width_aliases r hr, hwidth])
      have hlater : pickRegisters m waiting count (available.sdiff (m.aliases r)) =
          some (RegisterColoring.pickRegisters m waiting count (available.sdiff (m.aliases r))) := ih hwidth
      simp only [aliases_eq_some hr, Option.bind_eq_bind, Option.bind_some, hdrop, hlater]
      rfl

/-- Registers for a group can be looked for. -/
theorem registersFor_eq_some (hm : m.Sized) (hgroups : groups.Sized m p) (hgraph : graph.Sized groups)
    (ha : a.Sized m groups) (hg : g < groups.size) :
    registersFor m groups graph a g = some (registersFor? m groups graph a g) := by
  have hclass := hgroups.class_lt g hg
  have hwidth : (m.classAt (groups.get g).classId).members.width = m.registerCount :=
    (hm.width_class _ hclass).1
  have hfree : sdiff (m.classAt (groups.get g).classId).members (RegisterColoring.blockedFor m graph a g) =
      some ((m.members (groups.get g).classId).sdiff (RegisterColoring.blockedFor m graph a g)) :=
    sdiff_eq_some (by rw [RegisterColoring.blockedFor, Machine.width_aliasesOfAll, hwidth])
  rw [registersFor, groupAt_eq_some hg]
  simp only [Option.bind_eq_bind, Option.bind_some, classAt_eq_some hclass,
    blockedFor_eq_some hm.toConsistent hgraph ha hg, hfree,
    waitingNeighbors_eq_some hm.toConsistent hgroups hgraph ha hg]
  exact pickRegisters_eq_some hm.toConsistent _ hwidth

/-- Giving a group the registers chosen for it, groups hold registers of the machine. -/
theorem sized_give (hm : m.Consistent) (ha : a.Sized m groups) {rs : List RegisterId}
    (h : registersFor? m groups graph a g = some rs) : (a.give g rs).Sized m groups where
  size_eq := (a.size_give g rs).trans ha.size_eq
  held_lt x r hr := by
    rw [Assignment.heldBy_give] at hr
    split at hr
    · exact hm.lt_of_mem_members _ r ((registersFor?_spec h).1.mem_class r hr)
    · exact ha.held_lt x r hr

/-- Groups can be given registers in any order. -/
theorem colorInOrder_eq_some (hm : m.Sized) (hgroups : groups.Sized m p) (hgraph : graph.Sized groups)
    {order : List GroupId} (horder : ∀ g ∈ order, g < groups.size) (ha : a.Sized m groups) :
    colorInOrder m groups graph order a = some (RegisterColoring.colorInOrder m groups graph order a) := by
  induction order generalizing a with
  | nil => rfl
  | cons g rest ih =>
    have hg := horder g List.mem_cons_self
    have hrest : ∀ x ∈ rest, x < groups.size := fun x hx => horder x (List.mem_cons_of_mem g hx)
    rw [colorInOrder, RegisterColoring.colorInOrder, registersFor_eq_some hm hgroups hgraph ha hg,
      Option.bind_eq_bind, Option.bind_some]
    cases hchosen : registersFor? m groups graph a g with
    | none =>
      simp only [Option.bind_eq_bind, Option.bind_some, ih hrest ha]
      rfl
    | some rs =>
      have hgive : setAt a g rs = some (a.give g rs) := setAt_eq_some (ha.size_eq ▸ hg) rs
      simp only [hgive, Option.bind_eq_bind, Option.bind_some,
        ih hrest (sized_give hm.toConsistent ha hchosen)]
      rfl

/-! ## Revision -/

/-- The neighbours of `g` that hold registers. -/
def blockers (m : Machine) (graph : Interference) (a : Assignment) (g : GroupId) : Option (List Blocker) := do
  let holding ← filterM (fun n => do return !(← heldBy a n).isEmpty) (← neighbors graph g)
  holding.mapM fun n => do return ⟨n, ← aliasesOfAll m (← heldBy a n)⟩

/-- The sets of linkages, each of which frees a register of the class of `g`. -/
def waysOut (m : Machine) (groups : Groups) (graph : Interference) (a : Assignment) (g : GroupId) :
    Option (List (List LinkageId)) := do
  let bs ← blockers m graph a g
  let members := (← classAt m (← groupAt groups g).classId).members
  return ((members.toList.map (wayOut graph g bs)).filter fun way => !way.isEmpty).eraseDups

/-- Help all groups, one after the other. The steps have to last. -/
def helpAll : Nat → List Need → List LinkageId → Option (List Rescue)
  | _, [], _ => some []
  | 0, _ :: _, _ => none
  | steps + 1, need :: needs, broken => do
    let n ← leastBy? (Need.before broken) (need :: needs)
    let way := (n.cheapest? broken).getD []
    return ⟨n.group, way⟩ :: (← helpAll steps ((need :: needs).erase n) (unionAscending way broken))

/-- The error for a group that does not fit its class although nothing blocks it. -/
def misfit (m : Machine) (p : Program) (groups : Groups) (g : GroupId) : Option AllocationError := do
  let group ← groupAt groups g
  let fitting ← classAt m group.classId
  let use ← p.use? (← group.members.head?)
  let function ← p.functions[use.function]?
  return .doesNotFit function use.kind use.operation fitting.name group.registers fitting.capacity

/-- What to break for the groups in `uncolored`, and which of them to move to memory. -/
def choose (m : Machine) (p : Program) (groups : Groups) (graph : Interference) (a : Assignment)
    (uncolored : List GroupId) (settings : Settings) : Option (Except AllocationError Revision) := do
  let needs ← uncolored.mapM fun g => do return Need.mk g (← waysOut m groups graph a g)
  match needs.find? fun n => n.ways.isEmpty && !settings.spillUnallocatable with
  | some n => return .error (← misfit m p groups n.group)
  | none =>
    let helped := needs.filter fun n => !n.ways.isEmpty
    let helpless := needs.filter fun n => n.ways.isEmpty
    return .ok ⟨← helpAll helped.length helped [], helpless.map Need.group⟩

/-- Break the linkages and move the uses of a revision. -/
def revise (p : Program) (t : Trial) (r : Revision) : Option Program := do
  allBelow p.linkages.size r.cuts
  let moved ← r.evicted.mapM fun g => do return (← groupAt t.attempt.groups g).members
  allBelow p.uses.size moved.flatten
  return p.revise t r

/-- The location of every use: the registers of its group, or memory when it is in no group. -/
def locations (p : Program) (groups : Groups) (a : Assignment) : Option (Array Location) := do
  let found ← p.useIds.mapM fun u => do
    match ← groupOf groups u with
    | some g =>
      let held ← heldBy a g
      return if (← p.use? u).inMemory then Location.memory else .registers held
    | none => return .memory
  return found.toArray

/-- The neighbours that hold registers can be found, with what they block. -/
theorem blockers_eq_some (hm : m.Consistent) (hgraph : graph.Sized groups) (ha : a.Sized m groups)
    (hg : g < groups.size) : blockers m graph a g = some (RegisterColoring.blockers m graph a g) := by
  have hholding : filterM (fun n => do return !(← heldBy a n).isEmpty) (graph.neighbors g) =
      some ((graph.neighbors g).filter fun n => !(a.heldBy n).isEmpty) := by
    refine filterM_eq_some fun n hn => ?_
    rw [heldBy_eq_some ha (hgraph.lt_size g n hn)]
    rfl
  rw [blockers, neighbors_eq_some hgraph hg, Option.bind_eq_bind, Option.bind_some, hholding,
    Option.bind_eq_bind, Option.bind_some]
  refine mapM_eq_some fun n hn => ?_
  have hlt := hgraph.lt_size g n (List.mem_of_mem_filter hn)
  simp only [heldBy_eq_some ha hlt, Option.bind_eq_bind, Option.bind_some,
    aliasesOfAll_eq_some hm (ha.held_lt n)]
  rfl

/-- The ways out of a group can be found. -/
theorem waysOut_eq_some (hm : m.Consistent) (hgroups : groups.Sized m p) (hgraph : graph.Sized groups)
    (ha : a.Sized m groups) (hg : g < groups.size) :
    waysOut m groups graph a g = some (RegisterColoring.waysOut m groups graph a g) := by
  rw [waysOut, blockers_eq_some hm hgraph ha hg]
  simp only [Option.bind_eq_bind, Option.bind_some, groupAt_eq_some hg,
    classAt_eq_some (hgroups.class_lt g hg)]
  rfl

/-- Groups can be helped in as many steps as there are groups. -/
theorem helpAll_eq_some {steps : Nat} {needs : List Need} (hsteps : needs.length ≤ steps)
    (broken : List LinkageId) :
    helpAll steps needs broken = some (RegisterColoring.helpAll steps needs broken) := by
  induction steps generalizing needs broken with
  | zero =>
    obtain rfl := List.length_eq_zero_iff.mp (Nat.le_zero.mp hsteps)
    rfl
  | succ steps ih =>
    cases needs with
    | nil => rfl
    | cons need needs =>
      -- one group is helped in every step
      obtain ⟨n, hn⟩ := exists_leastBy? (Need.before broken) (List.cons_ne_nil need needs)
      have hfewer : ((need :: needs).erase n).length ≤ steps := by
        rw [List.length_erase_of_mem (leastBy?_mem hn)]
        omega
      rw [helpAll, RegisterColoring.helpAll, hn]
      simp only [Option.bind_eq_bind, Option.bind_some, ih hfewer]
      rfl

/-- The error for a group that does not fit can be worded. -/
theorem misfit_eq_some (hp : p.Sized m) (hgroups : groups.Sized m p) (hg : g < groups.size) :
    misfit m p groups g = some (RegisterColoring.misfit m p groups g) := by
  have hhead := head?_eq_some_headD (hgroups.members_ne_nil g hg) 0
  -- the group is named after its first use
  obtain ⟨use, hmem, huse⟩ := Program.exists_use?_of_mem_usesInPlay
    (hgroups.members_subset g hg _ (List.mem_of_head? hhead))
  obtain ⟨name, hname⟩ : ∃ name, p.functions[use.function]? = some name :=
    ⟨_, Array.getElem?_eq_getElem (hp.function_lt use hmem)⟩
  rw [misfit, groupAt_eq_some hg, misfit_eq huse hname]
  simp only [Option.bind_eq_bind, Option.bind_some, classAt_eq_some (hgroups.class_lt g hg), hhead, huse,
    hname]
  rfl

/-- A search for the first error is a search for the first element in error. -/
theorem findSome?_eq_map_find? {α β : Type} {f : α → Option β} {bad : α → Bool} {cause : α → β} {l : List α}
    (h : ∀ a ∈ l, f a = if bad a then some (cause a) else none) :
    l.findSome? f = (l.find? bad).map cause := by
  induction l with
  | nil => rfl
  | cons a l ih =>
    rw [List.findSome?_cons, List.find?_cons, h a List.mem_cons_self]
    cases bad a with
    | true => rfl
    | false => exact ih fun b hb => h b (List.mem_cons_of_mem a hb)

/-- What to change for groups that went without registers can be found. -/
theorem choose_eq_some (hm : m.Consistent) (hp : p.Sized m) (hgroups : groups.Sized m p)
    (hgraph : graph.Sized groups) (ha : a.Sized m groups) {uncolored : List GroupId}
    (huncolored : ∀ g ∈ uncolored, g < groups.size) (settings : Settings) :
    choose m p groups graph a uncolored settings =
      some (Revision.choose m p groups graph a uncolored settings) := by
  have hneeds : (uncolored.mapM fun g => do return Need.mk g (← waysOut m groups graph a g)) =
      some (uncolored.map fun g => Need.mk g (RegisterColoring.waysOut m groups graph a g)) := by
    refine mapM_eq_some fun g hg => ?_
    rw [waysOut_eq_some hm hgroups hgraph ha (huncolored g hg)]
    rfl
  have hlt : ∀ n ∈ uncolored.map fun g => Need.mk g (RegisterColoring.waysOut m groups graph a g),
      n.group < groups.size := List.forall_mem_map.mpr huncolored
  -- groups that went without are there, so only one that does not fit is refused
  have hrefusal : (uncolored.map fun g => Need.mk g (RegisterColoring.waysOut m groups graph a g)).findSome?
      (refusal? m p groups settings) =
        ((uncolored.map fun g => Need.mk g (RegisterColoring.waysOut m groups graph a g)).find? fun n =>
          n.ways.isEmpty && !settings.spillUnallocatable).map fun n =>
            RegisterColoring.misfit m p groups n.group :=
    findSome?_eq_map_find? fun n hn => if_neg (Nat.not_le.mpr (hlt n hn))
  rw [choose, hneeds, Revision.choose]
  simp only [Option.bind_eq_bind, Option.bind_some, hrefusal]
  cases hfind : (uncolored.map fun g => Need.mk g (RegisterColoring.waysOut m groups graph a g)).find? fun n =>
      n.ways.isEmpty && !settings.spillUnallocatable with
  | none =>
    simp only [helpAll_eq_some (Nat.le_refl _), Option.bind_some]
    rfl
  | some n =>
    simp only [misfit_eq_some hp hgroups (hlt n (List.mem_of_find?_eq_some hfind)), Option.bind_some]
    rfl

/-- A revision that was chosen for a program can be made. -/
theorem revise_eq_some {t : Trial} (hgroups : t.attempt.groups.Sized m p)
    (hgraph : t.attempt.graph = .ofGroups p t.attempt.groups) {settings : Settings} {r : Revision}
    (hr : t.revision m p settings = .ok r) : revise p t r = some (p.revise t r) := by
  rw [Trial.revision, hgraph] at hr
  have hcuts : allBelow p.linkages.size r.cuts = some () := by
    refine allBelow_eq_some fun l hl => ?_
    obtain ⟨k, hk⟩ := Revision.active_of_mem_cuts hr hl
    exact (Array.getElem?_eq_some_iff.mp (Program.mem_activeLinkages.mp hk).1).1
  have hmoved : (r.evicted.mapM fun g => do return (← groupAt t.attempt.groups g).members) =
      some (r.evicted.map fun g => (t.attempt.groups.get g).members) := by
    refine mapM_eq_some fun g hg => ?_
    rw [groupAt_eq_some (Revision.of_mem_evicted hr hg).1]
    rfl
  have huses : allBelow p.uses.size (r.evicted.map fun g => (t.attempt.groups.get g).members).flatten =
      some () := by
    refine allBelow_eq_some fun u hu => ?_
    rw [← List.flatMap_def] at hu
    obtain ⟨g, hg, hu⟩ := List.mem_flatMap.mp hu
    exact (Program.mem_usesInPlay.mp
      (hgroups.members_subset g (Revision.of_mem_evicted hr hg).1 u hu)).1
  rw [revise, hcuts, hmoved]
  simp only [Option.bind_eq_bind, Option.bind_some, huses]
  rfl

/-- The locations of uses can be written down. -/
theorem locations_eq_some (hgroups : groups.Sized m p) (ha : a.Sized m groups) :
    locations p groups a = some (RegisterColoring.locations p groups a) := by
  rw [locations, RegisterColoring.locations, mapM_eq_some]
  · rfl
  · intro u hu
    have hlt : u < p.uses.size := List.mem_range.mp hu
    rw [groupOf_eq_some hgroups hlt, Option.bind_eq_bind, Option.bind_some]
    cases hgroup : groups.ofUse? u with
    | none => rfl
    | some g =>
      have huse : p.use? u = some p.uses[u] := Array.getElem?_eq_getElem hlt
      simp only [heldBy_eq_some ha (hgroups.mem_members u g hgroup).1, Option.bind_eq_bind, Option.bind_some, huse,
        Program.isInMemory, Option.any_some]
      rfl

end Checked

end RegisterColoring
