import RegisterColoring.Proofs.Checked.Pressure

/-! # Checked ranks

While groups are taken out rank by rank, the pressure on every group that is left is that of its neighbours that
are left, so that no withdrawal takes more away than there is.

* `Interference.Sized`: what is known of the interference of groups.
* `Checked.pressureOf_eq_some`, `Checked.withdraw_eq_some`: pressures can be computed, and neighbours withdrawn.
* `Checked.rankGroups_eq_some`: groups can be ranked. -/

namespace RegisterColoring

/-- What is known of the interference of groups. -/
structure Interference.Sized (groups : Groups) (graph : Interference) : Prop extends graph.Simple where
  /-- There are neighbours for every group. -/
  size_adjacency : graph.adjacency.size = groups.size
  /-- Neighbours are groups. -/
  lt_size : ∀ x y, y ∈ graph.neighbors x → y < groups.size

theorem Interference.sized_ofGroups (p : Program) (groups : Groups) : (ofGroups p groups).Sized groups where
  toSimple := simple_ofGroups p groups
  size_adjacency := size_adjacency_ofGroups p groups
  lt_size _ _ h := (mem_neighbors_iff.mp h).2.1

namespace Checked

variable {m : Machine} {p : Program} {groups : Groups} {graph : Interference} {pressure : Pressure}
  {g : GroupId}

/-! ## Pressure on groups -/

/-- The group at a position. -/
def groupAt (groups : Groups) (g : GroupId) : Option Group :=
  groups.groups[g]?

/-- The neighbours of a group, ascending. -/
def neighbors (graph : Interference) (g : GroupId) : Option (List GroupId) :=
  graph.adjacency[g]?

/-- What some groups demand of their neighbours. -/
def demandsOf (groups : Groups) (gs : List GroupId) : Option (List Demand) :=
  gs.mapM fun g => do return (← groupAt groups g).demand

/-- The pressure on every group from all its neighbours. -/
def pressureOf (m : Machine) (groups : Groups) (graph : Interference) : Option Pressure := do
  let loads ← groups.ids.mapM fun g => do
    vertexLoads m (← groupAt groups g).classId (← demandsOf groups (← neighbors graph g))
  let totals ← loads.zipIdx.mapM fun (values, g) => do rootLoad m (← groupAt groups g).classId values
  return ⟨loads.toArray, totals.toArray⟩

/-- Add to every value its change. -/
def addAll (values changes : Array Int) : Option (Array Int) := do
  return (← (values.toList.zip changes.toList).mapM fun (x, y) => word64 (x + y)).toArray

/-- Take the loads of some neighbours of `g` away. -/
def withdraw (m : Machine) (groups : Groups) (pressure : Pressure) (g : GroupId) (ds : List Demand) :
    Option Pressure := do
  let n := (← groupAt groups g).classId
  let before ← pressure.loads[g]?
  let after ← addAll before (← loadChange m n before ds)
  return ⟨← setAt pressure.loads g after, ← setAt pressure.totals g (← rootLoad m n after)⟩

theorem groupAt_eq_some (hg : g < groups.size) : groupAt groups g = some (groups.get g) :=
  getElem?_eq_some_getD hg default

theorem neighbors_eq_some (hgraph : graph.Sized groups) (hg : g < groups.size) :
    neighbors graph g = some (graph.neighbors g) :=
  getElem?_eq_some_getD (hgraph.size_adjacency ▸ hg) []

theorem demandsOf_eq_some {gs : List GroupId} (h : ∀ g ∈ gs, g < groups.size) :
    demandsOf groups gs = some (gs.map fun g => (groups.get g).demand) := by
  refine mapM_eq_some fun g hg => ?_
  rw [groupAt_eq_some (h g hg)]
  rfl

/-- The demands of neighbours of a group are few and small enough. -/
theorem allSized_of_sublist (hgroups : groups.Sized m p) (hgraph : graph.Sized groups) {gs : List GroupId}
    (h : gs.Sublist (graph.neighbors g)) : Demand.AllSized m (gs.map fun g => (groups.get g).demand) := by
  have hlt : ∀ x ∈ gs, x < groups.size := fun x hx => hgraph.lt_size g x (h.subset hx)
  constructor
  · rw [List.length_map]
    exact (length_le_of_nodup ((hgraph.nodup g).sublist h) hlt).trans hgroups.size_lt.le
  · intro d hd
    obtain ⟨x, hx, rfl⟩ := List.mem_map.mp hd
    exact hgroups.class_lt x (hlt x hx)
  · intro d hd
    obtain ⟨x, hx, rfl⟩ := List.mem_map.mp hd
    exact hgroups.registers_lt x (hlt x hx)

/-- The pressure on the groups of an accepted program can be computed. -/
theorem pressureOf_eq_some (hm : m.Sized) (hgroups : groups.Sized m p) (hgraph : graph.Sized groups) :
    pressureOf m groups graph = some (Pressure.ofGroups m groups graph) := by
  have hsized : ∀ g, Demand.AllSized m (demandsOn groups graph g) := fun g =>
    allSized_of_sublist hgroups hgraph (.refl _)
  have hloads : (groups.ids.mapM fun g => do
      vertexLoads m (← groupAt groups g).classId (← demandsOf groups (← neighbors graph g))) =
        some (groups.ids.map fun g =>
          RegisterColoring.vertexLoads m (groups.get g).classId (demandsOn groups graph g)) := by
    refine mapM_eq_some fun g hg => ?_
    have hg := List.mem_range.mp hg
    rw [groupAt_eq_some hg, neighbors_eq_some hgraph hg]
    simp only [Option.bind_eq_bind, Option.bind_some, demandsOf_eq_some fun x => hgraph.lt_size g x]
    exact vertexLoads_eq_some hm (hgroups.class_lt g hg) (hsized g)
  rw [pressureOf, hloads, Pressure.ofGroups]
  simp only [Option.bind_eq_bind, Option.bind_some]
  rw [mapM_eq_some (g := fun x : Array Int × Nat => RegisterColoring.rootLoad m (groups.get x.2).classId x.1)]
  · rfl
  · rintro ⟨values, g⟩ hvalues
    rw [List.mem_zipIdx_iff_getElem?, List.getElem?_map, Option.map_eq_some_iff] at hvalues
    obtain ⟨g', hg', rfl⟩ := hvalues
    obtain ⟨hg, rfl⟩ : g < groups.size ∧ g = g' := by
      simpa [Groups.ids, List.getElem?_eq_some_iff] using hg'
    simp only [groupAt_eq_some hg, Option.bind_some]
    exact (rootLoad_eq_some hm (hgroups.class_lt g hg) (size_vertexLoads _ _ _) fun v hv =>
      (valueAt_vertexLoads_lt hm (hgroups.class_lt g hg) (hsized g) hv).1).1

/-- Values can be changed when the results fit. -/
theorem addAll_eq_some {values changes : Array Int}
    (h : ∀ x ∈ Array.zipWith (· + ·) values changes, -2 ^ 63 ≤ x ∧ x < 2 ^ 63) :
    addAll values changes = some (Array.zipWith (· + ·) values changes) := by
  have hlist : (Array.zipWith (· + ·) values changes).toList =
      (values.toList.zip changes.toList).map fun x => x.1 + x.2 := by
    rw [Array.toList_zipWith, List.zip, List.map_zipWith]
  have hsums : (values.toList.zip changes.toList).mapM (fun (x : Int × Int) => word64 (x.1 + x.2)) =
      some ((values.toList.zip changes.toList).map fun x => x.1 + x.2) := by
    refine mapM_eq_some fun x hx => ?_
    have hmem : x.1 + x.2 ∈ Array.zipWith (· + ·) values changes := by
      rw [← Array.mem_toList_iff, hlist]
      exact List.mem_map_of_mem hx
    exact word64_eq_some (h _ hmem).1 (h _ hmem).2
  rw [addAll, hsums, ← hlist]
  rfl

/-- Neighbours of a group can be withdrawn when its pressure is theirs and that of others. -/
theorem withdraw_eq_some (hm : m.Sized) (hgroups : groups.Sized m p) (hcovers : pressure.Covers groups)
    (hg : g < groups.size) {removed rest : List Demand}
    (hfrom : pressure.IsFrom m groups g (removed ++ rest)) (hds : Demand.AllSized m (removed ++ rest)) :
    withdraw m groups pressure g removed = some (pressure.withdraw m groups g removed) := by
  have hn := hgroups.class_lt g hg
  have hbefore : pressure.loads[g]? = some (pressure.loadsOn g) :=
    getElem?_eq_some_getD (hcovers.size_loads ▸ hg) #[]
  have hrest := hds.sublist (List.sublist_append_right removed rest)
  -- what is left after the change is the pressure of the others, computed anew
  have hafter := hm.withdrawn_eq (groups.get g).classId removed rest
  have hadd : addAll (RegisterColoring.vertexLoads m (groups.get g).classId (removed ++ rest))
      (Pressure.loadChange m (groups.get g).classId
        (RegisterColoring.vertexLoads m (groups.get g).classId (removed ++ rest)) removed) =
          some (RegisterColoring.vertexLoads m (groups.get g).classId rest) := by
    rw [addAll_eq_some, hafter]
    intro x hx
    rw [hafter] at hx
    obtain ⟨v, hv, rfl⟩ := Array.mem_iff_getElem.mp hx
    have hbounds := valueAt_vertexLoads_lt hm hn hrest (by rwa [size_vertexLoads] at hv)
    rw [valueAt, Array.getD_eq_getD_getElem?, Array.getElem?_eq_getElem hv, Option.getD_some] at hbounds
    omega
  have hroot := (rootLoad_eq_some hm hn (size_vertexLoads m _ rest) fun v hv =>
    (valueAt_vertexLoads_lt hm hn hrest hv).1).1
  rw [withdraw, groupAt_eq_some hg, hbefore, Pressure.withdraw, hfrom.loadsOn_eq, hafter]
  simp only [Option.bind_eq_bind, Option.bind_some, loadChange_eq_some hm hn hds, hadd, hroot,
    setAt_eq_some (hcovers.size_loads ▸ hg), setAt_eq_some (hcovers.size_totals ▸ hg)]
  rfl

/-! ## Ranks -/

/-- How many registers a group lacks at worst. -/
def shortfall (m : Machine) (groups : Groups) (pressure : Pressure) (g : GroupId) : Option Int := do
  let total ← pressure.totals[g]?
  let group ← groupAt groups g
  let registers ← word32 group.registers
  let needed ← word64 (total + registers)
  let capacity ← word32 (← classAt m group.classId).capacity
  word64 (needed - capacity)

/-- The groups that are left can be taken out in this way next. -/
def nextRank (m : Machine) (groups : Groups) (pressure : Pressure) (active : List GroupId) : Option Rank := do
  let lacking ← active.mapM fun g => do return (g, ← shortfall m groups pressure g)
  match lacking.filter fun (_, lacks) => lacks ≤ 0 with
  | [] => return ⟨((leastBy? (fun a b => a.2 < b.2) lacking).map Prod.fst).toList, false⟩
  | fitting => return ⟨fitting.map Prod.fst, true⟩

/-- The demands of the groups of a rank that are neighbours of `g`, in the order of the rank. -/
def demandsOfRank (groups : Groups) (graph : Interference) (rank : Rank) (g : GroupId) :
    Option (List Demand) := do
  demandsOf groups (← filterM (fun r => do return (← neighbors graph r).contains g) rank.groups)

/-- Withdraw the neighbours of a group that are in a rank. -/
def withdrawFrom (m : Machine) (groups : Groups) (graph : Interference) (rank : Rank)
    (pressure : Pressure) (g : GroupId) : Option Pressure := do
  match ← demandsOfRank groups graph rank g with
  | [] => return pressure
  | ds => withdraw m groups pressure g ds

/-- Withdraw a rank from all groups that are left. -/
def withdrawRank (m : Machine) (groups : Groups) (graph : Interference) (rank : Rank)
    (active : List GroupId) (pressure : Pressure) : Option Pressure :=
  active.foldlM (withdrawFrom m groups graph rank) pressure

/-- Mark the groups of the rank that has this number. -/
def mark (rank : Rank) (number : Nat) (marks : Array Mark) : Option (Array Mark) :=
  rank.groups.foldlM (fun marks g => setAt marks g ⟨number, rank.certain⟩) marks

/-- Take out the groups in `active`, rank by rank, after `taken` ranks, and mark them. The steps have to
last. -/
def rankWithin (m : Machine) (groups : Groups) (graph : Interference) :
    Nat → List GroupId → Pressure → Nat → Array Mark → Option Ranking
  | _, [], pressure, _, marks => some ⟨[], pressure, marks⟩
  | 0, _ :: _, _, _, _ => none
  | steps + 1, g :: others, pressure, taken, marks => do
    let number ← word32 (taken + 1)
    let rank ← nextRank m groups pressure (g :: others)
    let marks ← mark rank number marks
    let rest := (g :: others).filter fun g => !rank.groups.contains g
    let pressure ← withdrawRank m groups graph rank rest pressure
    let later ← rankWithin m groups graph steps rest pressure number marks
    return { later with ranks := rank :: later.ranks }

/-- Take out all groups, given the pressure on them. -/
def rankGroups (m : Machine) (groups : Groups) (graph : Interference) (pressure : Pressure) :
    Option Ranking :=
  rankWithin m groups graph groups.size groups.ids pressure 0 (Array.replicate groups.size .blank)

section

variable {active : List GroupId} {rank : Rank}

/-- What a group lacks can be computed when its pressure is that of its neighbours. -/
theorem shortfall_eq_some (hm : m.Sized) (hgroups : groups.Sized m p) (hcovers : pressure.Covers groups)
    (hg : g < groups.size) {ds : List Demand} (hfrom : pressure.IsFrom m groups g ds)
    (hds : Demand.AllSized m ds) :
    shortfall m groups pressure g = some (pressure.shortfall m groups g) := by
  have hn := hgroups.class_lt g hg
  have htotal : pressure.totals[g]? = some (pressure.totalOn g) :=
    getElem?_eq_some_getD (hcovers.size_totals ▸ hg) 0
  have hroot := (rootLoad_eq_some hm hn (size_vertexLoads m _ ds) fun v hv =>
    (valueAt_vertexLoads_lt hm hn hds hv).1).2
  rw [← hfrom.totalOn_eq] at hroot
  have hregisters := hgroups.registers_lt g hg
  have hcapacity := hm.capacity_lt hn
  rw [Machine.capacity] at hcapacity
  rw [shortfall, htotal, groupAt_eq_some hg]
  simp only [Option.bind_eq_bind, Option.bind_some]
  rw [word32_eq_some hregisters, Option.bind_some, word64_eq_some (by omega) (by omega), Option.bind_some,
    classAt_eq_some hn, Option.bind_some, word32_eq_some (by omega), Option.bind_some,
    word64_eq_some (by omega) (by omega)]
  rfl

/-- The demands among some groups are few and small enough. -/
theorem allSized_demandsAmong (hgroups : groups.Sized m p) (hgraph : graph.Sized groups)
    (active : List GroupId) (g : GroupId) : Demand.AllSized m (demandsAmong groups graph active g) :=
  allSized_of_sublist hgroups hgraph List.filter_sublist

/-- The next rank can be found when the pressure is right. -/
theorem nextRank_eq_some (hm : m.Sized) (hgroups : groups.Sized m p) (hgraph : graph.Sized groups)
    (hright : pressure.Right m groups graph active) :
    nextRank m groups pressure active = some (RegisterColoring.nextRank m groups pressure active) := by
  have hlacking : (active.mapM fun g => do return (g, ← shortfall m groups pressure g)) =
      some (active.map fun g => (g, pressure.shortfall m groups g)) := by
    refine mapM_eq_some fun g hg => ?_
    rw [shortfall_eq_some hm hgroups hright.covers (hright.lt_size g hg) (hright.isFrom g hg)
      (allSized_demandsAmong hgroups hgraph active g)]
    rfl
  have hfitting : (active.map fun g => (g, pressure.shortfall m groups g)).filter (fun x => x.2 ≤ 0) =
      (active.filter (pressure.alwaysFits m groups)).map fun g => (g, pressure.shortfall m groups g) := by
    rw [List.filter_map]
    rfl
  have hleast : leastBy? (fun a b => decide (a.2 < b.2))
      (active.map fun g => (g, pressure.shortfall m groups g)) =
        (leastBy? (fun a b => decide (pressure.shortfall m groups a < pressure.shortfall m groups b))
          active).map fun g => (g, pressure.shortfall m groups g) := leastBy?_map (fun _ _ => rfl) active
  rw [nextRank, hlacking, RegisterColoring.nextRank]
  simp only [Option.bind_eq_bind, Option.bind_some, hfitting, hleast, Option.map_map, Function.comp_def,
    Option.map_id']
  cases active.filter (pressure.alwaysFits m groups) with
  | nil => rfl
  | cons g fitting =>
    simp only [List.map_cons, List.map_map, Function.comp_def, List.map_id']
    rfl

/-- The demands of a rank can be found. -/
theorem demandsOfRank_eq_some (hgraph : graph.Sized groups) (hrank : ∀ r ∈ rank.groups, r < groups.size)
    (g : GroupId) :
    demandsOfRank groups graph rank g = some (RegisterColoring.demandsOfRank groups graph rank g) := by
  have hnear : filterM (fun r => do return (← neighbors graph r).contains g) rank.groups =
      some (rank.groups.filter fun r => (graph.neighbors r).contains g) := by
    refine filterM_eq_some fun r hr => ?_
    rw [neighbors_eq_some hgraph (hrank r hr)]
    rfl
  rw [demandsOfRank, hnear]
  exact demandsOf_eq_some fun r hr => hrank r (List.mem_of_mem_filter hr)

/-- A rank can be withdrawn from groups on which the pressure is its own and that of others. -/
theorem withdrawRank_eq_some (hm : m.Sized) (hgroups : groups.Sized m p) (hgraph : graph.Sized groups)
    (hrank : ∀ r ∈ rank.groups, r < groups.size) {rest : GroupId → List Demand} (hnodup : active.Nodup)
    (hlt : ∀ g ∈ active, g < groups.size) (hcovers : pressure.Covers groups)
    (hfrom : ∀ g ∈ active, pressure.IsFrom m groups g
      (RegisterColoring.demandsOfRank groups graph rank g ++ rest g))
    (hds : ∀ g ∈ active, Demand.AllSized m
      (RegisterColoring.demandsOfRank groups graph rank g ++ rest g)) :
    withdrawRank m groups graph rank active pressure =
      some (RegisterColoring.withdrawRank m groups graph rank active pressure) := by
  induction active generalizing pressure with
  | nil => rfl
  | cons g active ih =>
    obtain ⟨hg, hnodup⟩ := List.nodup_cons.mp hnodup
    have hstep : withdrawFrom m groups graph rank pressure g =
        some (RegisterColoring.withdrawFrom m groups graph rank pressure g) := by
      have hwithdraw := withdraw_eq_some hm hgroups hcovers (hlt g List.mem_cons_self)
        (hfrom g List.mem_cons_self) (hds g List.mem_cons_self)
      rw [withdrawFrom, demandsOfRank_eq_some hgraph hrank g, RegisterColoring.withdrawFrom]
      simp only [Option.bind_eq_bind, Option.bind_some]
      cases hdemands : RegisterColoring.demandsOfRank groups graph rank g with
      | nil => rfl
      | cons d ds =>
        rw [hdemands] at hwithdraw
        exact hwithdraw
    have hlater : ∀ x ∈ active, x ∈ g :: active := fun x hx => List.mem_cons_of_mem g hx
    rw [withdrawRank, List.foldlM_cons, hstep]
    refine ih hnodup (fun x hx => hlt x (hlater x hx)) hcovers.withdrawFrom (fun x hx => ?_)
      (fun x hx => hds x (hlater x hx))
    exact Pressure.isFrom_withdrawFrom_of_ne (fun h => hg (h ▸ hx)) (hfrom x (hlater x hx))

/-- A rank can mark its groups where there is a mark for each of them. -/
theorem mark_eq_some {marks : Array Mark} (hrank : ∀ r ∈ rank.groups, r < marks.size) (number : Nat) :
    mark rank number marks = some (rank.mark number marks) := by
  refine (foldlM_eq_some (fun written => written.size = marks.size) rfl ?_).1
  intro written hsize r hr
  exact ⟨setAt_eq_some (hsize ▸ hrank r hr) _, Array.size_setIfInBounds.trans hsize⟩

/-- Groups can be ranked when the pressure on them is right. -/
theorem rankWithin_eq_some (hm : m.Sized) (hgroups : groups.Sized m p) (hgraph : graph.Sized groups)
    {steps taken : Nat} {marks : Array Mark} (hsteps : active.length ≤ steps)
    (htaken : taken + active.length < 2 ^ 32) (hmarks : marks.size = groups.size)
    (hright : pressure.Right m groups graph active) :
    rankWithin m groups graph steps active pressure taken marks =
      some (RegisterColoring.rankWithin m groups graph steps active pressure taken marks) := by
  induction steps generalizing active pressure taken marks with
  | zero =>
    obtain rfl := List.length_eq_zero_iff.mp (Nat.le_zero.mp hsteps)
    rw [rankWithin, rankWithin_nil]
  | succ steps ih =>
    by_cases hactive : active = []
    · subst hactive
      rw [rankWithin, rankWithin_nil]
    have hrank : ∀ r ∈ (RegisterColoring.nextRank m groups pressure active).groups, r < groups.size :=
      fun r hr => hright.lt_size r (mem_active_of_mem_nextRank hr)
    have hfewer : (leftAfter m groups pressure active).length < active.length := length_leftAfter_lt hactive
    have hleft : ∀ g ∈ leftAfter m groups pressure active, g ∈ active := fun g hg => (mem_leftAfter.mp hg).1
    -- what is demanded of a group comes from the rank that is taken out and from the groups left after it
    have hparts : ∀ g, (demandsAmong groups graph active g).Perm
        (RegisterColoring.demandsOfRank groups graph (RegisterColoring.nextRank m groups pressure active) g ++
          demandsAmong groups graph (leftAfter m groups pressure active) g) :=
      demandsAmong_perm hgraph.toSimple (nodup_nextRank hright.nodup)
        (fun x hx => mem_active_of_mem_nextRank hx) (fun x => mem_leftAfter)
    have hwithdraw : withdrawRank m groups graph (RegisterColoring.nextRank m groups pressure active)
        (leftAfter m groups pressure active) pressure =
          some (pressureAfter m groups graph pressure active) :=
      withdrawRank_eq_some hm hgroups hgraph hrank (hright.nodup.filter _)
        (fun g hg => hright.lt_size g (hleft g hg)) hright.covers
        (fun g hg => (hright.isFrom g (hleft g hg)).perm (hparts g))
        (fun g _ => (allSized_demandsAmong hgroups hgraph active g).perm (hparts g))
    -- a rank takes out a group at least, so the ranks are no more than the groups
    have hlater : rankWithin m groups graph steps (leftAfter m groups pressure active)
        (pressureAfter m groups graph pressure active) (taken + 1)
        ((RegisterColoring.nextRank m groups pressure active).mark (taken + 1) marks) =
          some (laterRanks m groups graph steps active pressure taken marks) :=
      ih (by omega) (by omega) (by rw [Rank.size_mark, hmarks])
        (hright.next hm.toConsistent hgraph.toSimple)
    obtain ⟨a, rest, rfl⟩ := List.exists_cons_of_ne_nil hactive
    have hnumber : taken + 1 < 2 ^ 32 := by
      rw [List.length_cons] at htaken
      omega
    rw [rankWithin_succ hactive, rankWithin, word32_eq_some hnumber]
    simp only [Option.bind_eq_bind, Option.bind_some, nextRank_eq_some hm hgroups hgraph hright,
      mark_eq_some (fun r hr => hmarks ▸ hrank r hr)]
    rw [← leftAfter, hwithdraw, Option.bind_some, hlater]
    rfl

/-- The groups of an accepted program can be ranked. -/
theorem rankGroups_eq_some (hm : m.Sized) (hgroups : groups.Sized m p) :
    rankGroups m groups (.ofGroups p groups) (Pressure.ofGroups m groups (.ofGroups p groups)) =
      some (Ranking.ofPressure m groups (.ofGroups p groups)
        (Pressure.ofGroups m groups (.ofGroups p groups))) := by
  have hlength : groups.ids.length = groups.size := List.length_range
  have hsize := hgroups.size_lt
  exact rankWithin_eq_some hm hgroups (Interference.sized_ofGroups p groups) hlength.le (by omega)
    Array.size_replicate (Pressure.right_ofGroups p groups)

end

end Checked

end RegisterColoring
