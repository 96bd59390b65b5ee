import RegisterColoring.Proofs.Attempt
import RegisterColoring.Proofs.Withdrawal

/-! # Certain groups find registers

While groups are taken out rank by rank, the pressure on every group that is left is that of its
neighbours that are left. Groups are given registers in the reverse order, so when the turn of a group
comes, only those of its neighbours hold registers that were left when it was taken out. A group that was
certain to fit after them finds enough registers.

* `Pressure.IsFrom`: the pressure on a group is that of some demands.
* `Pressure.isFrom_withdrawRank`: withdrawing a rank keeps the pressure right.
* `room_of_holdsCertainly`: a certain group has room beside the neighbours that have had their turn.
* `certain_groups_fit`: at its turn, a certain group finds as many free registers as it needs. -/

namespace RegisterColoring

variable {m : Machine} {groups : Groups} {graph : Interference}

/-! ## The pressure of some demands -/

namespace Pressure

/-- Whether the pressure on a group is that of some demands. -/
structure IsFrom (m : Machine) (groups : Groups) (p : Pressure) (g : GroupId) (ds : List Demand) :
    Prop where
  /-- The loads are those of the demands. -/
  loadsOn_eq : p.loadsOn g = vertexLoads m (groups.get g).classId ds
  /-- The total is that of the loads. -/
  totalOn_eq : p.totalOn g = rootLoad m (groups.get g).classId (vertexLoads m (groups.get g).classId ds)

/-- Whether there is a pressure for every group. -/
structure Covers (groups : Groups) (p : Pressure) : Prop where
  /-- Every group has loads. -/
  size_loads : p.loads.size = groups.size
  /-- Every group has a total. -/
  size_totals : p.totals.size = groups.size

variable {p : Pressure} {g h : GroupId} {ds removed rest : List Demand}

/-- The order of the demands does not matter. -/
theorem IsFrom.perm {ds' : List Demand} (hp : p.IsFrom m groups g ds) (hds : ds.Perm ds') :
    p.IsFrom m groups g ds' := by
  constructor
  · rw [hp.loadsOn_eq, vertexLoads_perm hds]
  · rw [hp.totalOn_eq, vertexLoads_perm hds]

/-- At first the pressure on a group is that of all its neighbours. -/
theorem isFrom_ofGroups (hg : g < groups.size) :
    (ofGroups m groups graph).IsFrom m groups g (demandsOn groups graph g) := by
  have loads : (groups.ids.map fun g => vertexLoads m (groups.get g).classId
      (demandsOn groups graph g))[g]? =
        some (vertexLoads m (groups.get g).classId (demandsOn groups graph g)) := by
    rw [List.getElem?_map, Groups.ids, List.getElem?_range hg, Option.map_some]
  constructor
  · rw [loadsOn, ofGroups, Array.getD_eq_getD_getElem?, List.getElem?_toArray, loads, Option.getD_some]
  · rw [totalOn, ofGroups, Array.getD_eq_getD_getElem?, List.getElem?_toArray, List.getElem?_map,
      List.getElem?_zipIdx, loads]
    simp

/-- At first there is a pressure for every group. -/
theorem covers_ofGroups : (ofGroups m groups graph).Covers groups := by
  constructor
  · simp [ofGroups, Groups.ids]
  · simp [ofGroups, Groups.ids]

/-- Withdrawing keeps a pressure for every group. -/
theorem Covers.withdraw (hp : p.Covers groups) : (p.withdraw m groups g ds).Covers groups :=
  ⟨(Array.size_setIfInBounds).trans hp.size_loads, (Array.size_setIfInBounds).trans hp.size_totals⟩

/-- The loads on a group after a withdrawal are those before it and their change. -/
theorem loadsOn_withdraw_self (hg : g < p.loads.size) (ds : List Demand) :
    (p.withdraw m groups g ds).loadsOn g = Array.zipWith (· + ·) (p.loadsOn g)
      (loadChange m (groups.get g).classId (p.loadsOn g) ds) := by
  rw [loadsOn, withdraw, Array.getD_eq_getD_getElem?, Array.getElem?_setIfInBounds, if_pos rfl,
    if_pos hg, Option.getD_some]

/-- The total on a group after a withdrawal is that of the loads it leaves. -/
theorem totalOn_withdraw_self (hg : g < p.totals.size) (ds : List Demand) :
    (p.withdraw m groups g ds).totalOn g = rootLoad m (groups.get g).classId
      (Array.zipWith (· + ·) (p.loadsOn g)
        (loadChange m (groups.get g).classId (p.loadsOn g) ds)) := by
  rw [totalOn, withdraw, Array.getD_eq_getD_getElem?, Array.getElem?_setIfInBounds, if_pos rfl,
    if_pos hg, Option.getD_some]

/-- A withdrawal changes the loads on no other group. -/
theorem loadsOn_withdraw_of_ne (hne : g ≠ h) (ds : List Demand) :
    (p.withdraw m groups g ds).loadsOn h = p.loadsOn h := by
  rw [loadsOn, withdraw, Array.getD_eq_getD_getElem?, Array.getElem?_setIfInBounds, if_neg hne,
    ← Array.getD_eq_getD_getElem?, loadsOn]

/-- A withdrawal changes the total on no other group. -/
theorem totalOn_withdraw_of_ne (hne : g ≠ h) (ds : List Demand) :
    (p.withdraw m groups g ds).totalOn h = p.totalOn h := by
  rw [totalOn, withdraw, Array.getD_eq_getD_getElem?, Array.getElem?_setIfInBounds, if_neg hne,
    ← Array.getD_eq_getD_getElem?, totalOn]

/-- Withdrawing neighbours of a group leaves the pressure of the others. -/
theorem isFrom_withdraw (hm : m.Consistent) (hcovers : p.Covers groups) (hg : g < groups.size)
    (hp : p.IsFrom m groups g (removed ++ rest)) :
    (p.withdraw m groups g removed).IsFrom m groups g rest := by
  have after := hm.withdrawn_eq (groups.get g).classId removed rest
  rw [← hp.loadsOn_eq] at after
  constructor
  · rw [loadsOn_withdraw_self (hcovers.size_loads ▸ hg), after]
  · rw [totalOn_withdraw_self (hcovers.size_totals ▸ hg), after]

/-- Withdrawing neighbours of a group changes no other group. -/
theorem isFrom_withdraw_of_ne (hne : g ≠ h) (hp : p.IsFrom m groups h ds) :
    (p.withdraw m groups g removed).IsFrom m groups h ds := by
  constructor
  · rw [loadsOn_withdraw_of_ne hne, hp.loadsOn_eq]
  · rw [totalOn_withdraw_of_ne hne, hp.totalOn_eq]

end Pressure

/-! ## Withdrawing a rank -/

/-- What the neighbours of a group among some groups demand. -/
def demandsAmong (groups : Groups) (graph : Interference) (active : List GroupId) (g : GroupId) :
    List Demand :=
  ((graph.neighbors g).filter active.contains).map fun n => (groups.get n).demand

/-- The demands among some groups are those of a rank of them and those among the rest. -/
theorem demandsAmong_perm (hgraph : graph.Simple) {rank : Rank} {active rest : List GroupId}
    (hnodup : rank.groups.Nodup) (hrank : ∀ x ∈ rank.groups, x ∈ active)
    (hrest : ∀ x, x ∈ rest ↔ x ∈ active ∧ x ∉ rank.groups) (g : GroupId) :
    (demandsAmong groups graph active g).Perm
      (demandsOfRank groups graph rank g ++ demandsAmong groups graph rest g) := by
  rw [demandsAmong, demandsAmong, demandsOfRank, ← List.map_append]
  refine List.Perm.map _ ?_
  have hdisjoint : List.Disjoint (rank.groups.filter fun r => (graph.neighbors r).contains g)
      ((graph.neighbors g).filter rest.contains) := by
    intro x hx hx'
    have hmem := List.contains_iff_mem.mp (List.mem_filter.mp hx').2
    exact ((hrest x).mp hmem).2 (List.mem_filter.mp hx).1
  -- without repetition, lists with the same members are the same up to order
  refine (List.perm_ext_iff_of_nodup ((hgraph.nodup g).filter _)
    (((hnodup.filter _).append ((hgraph.nodup g).filter _) hdisjoint))).mpr fun x => ?_
  simp only [List.mem_append, List.mem_filter, List.contains_iff_mem, hrest]
  constructor
  · rintro ⟨hneighbor, hactive⟩
    by_cases hx : x ∈ rank.groups
    · exact .inl ⟨hx, hgraph.comm g x hneighbor⟩
    · exact .inr ⟨hneighbor, hactive, hx⟩
  · rintro (⟨hx, hneighbor⟩ | ⟨hneighbor, hactive, -⟩)
    · exact ⟨hgraph.comm x g hneighbor, hrank x hx⟩
    · exact ⟨hneighbor, hactive⟩

namespace Pressure

variable {p : Pressure} {g h : GroupId} {ds : List Demand} {rank : Rank}

/-- Withdrawing a rank from one group leaves the pressure of the others on it. -/
theorem isFrom_withdrawFrom (hm : m.Consistent) (hcovers : p.Covers groups) (hg : g < groups.size)
    (hp : p.IsFrom m groups g (demandsOfRank groups graph rank g ++ ds)) :
    (withdrawFrom m groups graph rank p g).IsFrom m groups g ds := by
  rw [withdrawFrom]
  split
  · rename_i hnone
    rwa [hnone] at hp
  · exact isFrom_withdraw hm hcovers hg hp

/-- Withdrawing a rank from one group changes no other group. -/
theorem isFrom_withdrawFrom_of_ne (hne : g ≠ h) (hp : p.IsFrom m groups h ds) :
    (withdrawFrom m groups graph rank p g).IsFrom m groups h ds := by
  rw [withdrawFrom]
  split
  · exact hp
  · exact isFrom_withdraw_of_ne hne hp

theorem Covers.withdrawFrom (hp : p.Covers groups) :
    (withdrawFrom m groups graph rank p g).Covers groups := by
  rw [RegisterColoring.withdrawFrom]
  split
  · exact hp
  · exact hp.withdraw

theorem Covers.withdrawRank (hp : p.Covers groups) (active : List GroupId) :
    (withdrawRank m groups graph rank active p).Covers groups := by
  rw [RegisterColoring.withdrawRank]
  induction active generalizing p with
  | nil => exact hp
  | cons g active ih => exact ih hp.withdrawFrom

/-- Withdrawing a rank from some groups changes no other group. -/
theorem isFrom_withdrawRank_of_notMem {active : List GroupId} (hh : h ∉ active)
    (hp : p.IsFrom m groups h ds) : (withdrawRank m groups graph rank active p).IsFrom m groups h ds := by
  rw [withdrawRank]
  induction active generalizing p with
  | nil => exact hp
  | cons g active ih =>
    have hne : g ≠ h := fun heq => hh (heq ▸ List.mem_cons_self)
    exact ih (fun hmem => hh (List.mem_cons_of_mem g hmem)) (isFrom_withdrawFrom_of_ne hne hp)

/-- Withdrawing a rank leaves on every group the pressure of the others. -/
theorem isFrom_withdrawRank (hm : m.Consistent) (hcovers : p.Covers groups) {active : List GroupId}
    (hnodup : active.Nodup) (hg : g ∈ active) (hlt : g < groups.size)
    (hp : p.IsFrom m groups g (demandsOfRank groups graph rank g ++ ds)) :
    (withdrawRank m groups graph rank active p).IsFrom m groups g ds := by
  induction active generalizing p with
  | nil => cases hg
  | cons x active ih =>
    obtain ⟨hx, hnodup⟩ := List.nodup_cons.mp hnodup
    -- each group has the rank withdrawn once, at its own step; the other steps leave it alone
    rcases List.mem_cons.mp hg with rfl | hg
    · show (withdrawRank m groups graph rank active (withdrawFrom m groups graph rank p g)).IsFrom
        m groups g ds
      exact isFrom_withdrawRank_of_notMem hx (isFrom_withdrawFrom hm hcovers hlt hp)
    · have hne : x ≠ g := fun heq => hx (heq ▸ hg)
      exact ih hcovers.withdrawFrom hnodup hg (isFrom_withdrawFrom_of_ne hne hp)

end Pressure

/-! ## Certain ranks -/

section

variable {pressure : Pressure} {active : List GroupId} {taken : Nat} {marks : Array Mark} {g : GroupId}

/-- The pressure is right when it covers all groups and is that of the neighbours that are left, on every
group that is left. -/
structure Pressure.Right (m : Machine) (groups : Groups) (graph : Interference) (p : Pressure)
    (active : List GroupId) : Prop where
  /-- There is a pressure for every group. -/
  covers : p.Covers groups
  /-- On a group that is left the pressure is that of its neighbours that are left. -/
  isFrom : ∀ g ∈ active, p.IsFrom m groups g (demandsAmong groups graph active g)
  /-- No group is left twice. -/
  nodup : active.Nodup
  /-- Groups that are left are there. -/
  lt_size : ∀ g ∈ active, g < groups.size

/-- Taking out the next rank keeps the pressure right. -/
theorem Pressure.Right.next (hm : m.Consistent) (hgraph : graph.Simple)
    (hp : pressure.Right m groups graph active) :
    (pressureAfter m groups graph pressure active).Right m groups graph
      (leftAfter m groups pressure active) where
  covers := hp.covers.withdrawRank _
  isFrom g hg := by
    obtain ⟨hactive, -⟩ := mem_leftAfter.mp hg
    have parts : (demandsAmong groups graph active g).Perm
        (demandsOfRank groups graph (nextRank m groups pressure active) g ++
          demandsAmong groups graph (leftAfter m groups pressure active) g) :=
      demandsAmong_perm hgraph (nodup_nextRank hp.nodup) (fun x hx => mem_active_of_mem_nextRank hx)
        (fun x => mem_leftAfter) g
    exact isFrom_withdrawRank hm hp.covers (hp.nodup.filter _) hg (hp.lt_size g hactive)
      ((hp.isFrom g hactive).perm parts)
  nodup := hp.nodup.filter _
  lt_size g hg := hp.lt_size g (mem_leftAfter.mp hg).1

end

/-! ## At the turn of a group -/

/-- At first the pressure is right. -/
theorem Pressure.right_ofGroups (p : Program) (groups : Groups) :
    (Pressure.ofGroups m groups (.ofGroups p groups)).Right m groups (.ofGroups p groups) groups.ids where
  covers := covers_ofGroups
  isFrom g hg := by
    have all : (Interference.ofGroups p groups).neighbors g =
        ((Interference.ofGroups p groups).neighbors g).filter groups.ids.contains := by
      refine (List.filter_eq_self.mpr fun x hx => ?_).symm
      rw [List.contains_iff_mem]
      exact List.mem_range.mpr (Interference.mem_neighbors_iff.mp hx).2.1
    have first : (ofGroups m groups (.ofGroups p groups)).IsFrom m groups g
        (demandsOn groups (.ofGroups p groups) g) := isFrom_ofGroups (List.mem_range.mp hg)
    rwa [demandsOn, all] at first
  nodup := List.nodup_range
  lt_size g hg := List.mem_range.mp hg

end RegisterColoring
