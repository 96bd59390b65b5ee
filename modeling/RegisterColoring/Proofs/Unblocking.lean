import RegisterColoring.Proofs.Frame
import RegisterColoring.Proofs.InterferenceViews
import RegisterColoring.Proofs.Singles
import RegisterColoring.Proofs.TurnOrder

/-! # A revision unblocks every group that went without

For each register of its class that neighbours take from a group, the linkages behind the interference with these
neighbours are a way out. A revision breaks one way out of every group that has any. When the interference is then
built anew on the same groups, the group has no edge any more to those that held the register against it. A group
that has no way out is one from which no neighbour takes a register of its class: it goes to memory, or the
allocation fails for it.

* `waysOut_eq_nil_iff_not_taken`: a group has no way out if no register of its class is taken.
* `edge?_breakAll_eq_none`: breaking a way out removes the edges to those that take the register.
* `Revision.Unblocks`: what a revision does for the groups that went without.
* `Revision.unblocks_of_choose`: every revision that is chosen does that.
* `Program.FunctionsInRange`, `isMisfit_misfit`: groups that do not fit can be named.
* `Revision.exists_choose_or_misfit`, `Revision.misfit_iff`: a choice fails only for groups without a way out.
* `unblocks_choose`: what comes of a colouring that leaves groups without registers. -/

namespace RegisterColoring

/-! ## Ways out and registers that are taken -/

section

variable {m : Machine} {p : Program} {groups : Groups} {a : Assignment} {g n : GroupId} {r s : RegisterId}

/-- A group has no way out if and only if no neighbour takes a register of its class. -/
theorem waysOut_eq_nil_iff_not_taken (hm : m.Consistent) : waysOut m groups (.ofGroups p groups) a g = [] ↔
    ∀ r ∈ m.members (groups.get g).classId, ¬ a.Taken m (.ofGroups p groups) g r := by
  simp only [waysOut_eq_nil_iff hm, Assignment.taken_iff hm]

/-- When all linkages on the way out by a register are broken, no edge is left to a group that takes it. -/
theorem edge?_breakAll_eq_none (hm : m.Consistent) {attempt : Nat} {cuts : List LinkageId}
    (hcuts : ∀ l ∈ wayOut (.ofGroups p groups) g (blockers m (.ofGroups p groups) a g) r, l ∈ cuts)
    (hs : s ∈ a.heldBy n) (hoverlap : m.Overlap s r) :
    (Interference.ofGroups (p.breakAll attempt cuts) groups).edge? g n = none := by
  by_contra hedge
  have hn := Interference.isSome_edge?_iff.mp (Option.isSome_iff_ne_none.mpr hedge)
  obtain ⟨hg, hlt, -⟩ := Interference.mem_neighbors_iff.mp hn
  have hne : g ≠ n := by
    rintro rfl
    exact Interference.not_mem_neighbors_self hn
  apply hedge
  unfold Program.breakAll
  rw [Interference.edge?_mapStates_eq_none_iff ?_ hg hlt hne]
  · -- what is behind the edge is on the way out, and so it is broken
    intro l hl
    have covers := (Interference.mem_linkagesBehind_iff_covers hg hlt hne).mp hl
    have hn : n ∈ (Interference.ofGroups p groups).neighbors g :=
      (Interference.mem_neighbors_iff_covers hg hlt hne).mpr ⟨l, covers⟩
    have hcut := hcuts l (mem_wayOut hm hn hs (hm.overlap_iff.mp hoverlap) hl)
    obtain ⟨k, hk⟩ := Interference.active_of_mem_linkagesBehind hl
    refine ⟨k, (Program.mem_activeLinkages.mp hk).1, ?_⟩
    rw [if_pos (List.contains_iff_mem.mpr hcut)]
    exact LinkState.noConfusion
  · intro k l _ hactive
    split at hactive
    · cases hactive
    · exact hactive

end

/-! ## What a revision does -/

/-- What a revision does for the groups that went without registers, when it is carried out by the given attempt. -/
structure Revision.Unblocks (m : Machine) (p : Program) (attempt : Nat) (groups : Groups) (a : Assignment)
    (uncolored : List GroupId) (settings : Settings) (r : Revision) : Prop where
  /-- The linkages to cut are strictly ascending. -/
  ascending : r.cuts.Pairwise (· < ·)
  /-- They are active. -/
  active : ∀ l ∈ r.cuts, ∃ k, p.linkages[l]? = some k ∧ k.state = .active
  /-- A group goes to memory only if it went without, if that is allowed, and if no neighbour takes a register of
  its class. -/
  evicted : ∀ g ∈ r.evicted, g ∈ uncolored ∧ settings.spillUnallocatable = true ∧
    ∀ s ∈ m.members (groups.get g).classId, ¬ a.Taken m (.ofGroups p groups) g s
  /-- Every group that went without goes to memory, or there is a register of its class that neighbours take and
  the cuts leave no edge to any group that holds a register overlapping it. -/
  unblocked : ∀ g ∈ uncolored, g ∈ r.evicted ∨ ∃ s ∈ m.members (groups.get g).classId,
    a.Taken m (.ofGroups p groups) g s ∧ ∀ n, ∀ q ∈ a.heldBy n, m.Overlap q s →
      (Interference.ofGroups (p.breakAll attempt r.cuts) groups).edge? g n = none

namespace Revision

variable {m : Machine} {p : Program} {groups : Groups} {a : Assignment} {uncolored : List GroupId}
  {settings : Settings} {r : Revision}

/-- A revision that is chosen unblocks every group that went without. -/
theorem unblocks_of_choose (hm : m.Consistent) (attempt : Nat)
    (h : choose m p groups (.ofGroups p groups) a uncolored settings = .ok r) :
    r.Unblocks m p attempt groups a uncolored settings where
  ascending := r.pairwise_cuts
  active l hl := by
    obtain ⟨k, hk⟩ := active_of_mem_cuts h hl
    obtain ⟨hget, hactive⟩ := Program.mem_activeLinkages.mp hk
    exact ⟨k, hget, Linkage.isActive_iff.mp hactive⟩
  evicted g hg := by
    obtain ⟨hmem, hways⟩ := helpless_of_mem_evicted h hg
    exact ⟨hmem, (of_mem_evicted h hg).2, (waysOut_eq_nil_iff_not_taken hm).mp hways⟩
  unblocked g hg := by
    rcases evicted_or_cut h hg with hevicted | ⟨way, hway, hcuts⟩
    · exact .inl hevicted
    · obtain ⟨hne, s, hs, rfl⟩ := mem_waysOut.mp hway
      have taken := (Assignment.taken_iff hm).mpr ((wayOut_ne_nil_iff hm).mp hne)
      refine .inr ⟨s, hs, taken, fun n q hq hoverlap => ?_⟩
      exact edge?_breakAll_eq_none hm hcuts hq hoverlap

end Revision

/-! ## Groups that do not fit -/

/-- Whether the uses of a program name functions that are there. -/
def Program.FunctionsInRange (p : Program) : Prop :=
  ∀ use ∈ p.uses, use.function < p.functions.size

instance (p : Program) : Decidable p.FunctionsInRange :=
  inferInstanceAs (Decidable (∀ use ∈ p.uses, _))

/-- Programs keep naming functions that are there. -/
theorem Program.FunctionsInRange.of_keeps {p q : Program} (hp : p.FunctionsInRange) (h : p.Keeps q) :
    q.FunctionsInRange := by
  intro use huse
  obtain ⟨before, hbefore, moved, rfl⟩ := h.exists_use huse
  rw [h.functions_eq]
  exact hp before hbefore

/-- Whether an error says that a group does not fit its class. -/
def AllocationError.IsMisfit (e : AllocationError) : Prop :=
  ∃ function kind operation className needed capacity,
    e = .doesNotFit function kind operation className needed capacity

section

variable {m : Machine} {p : Program} {groups : Groups} {a : Assignment} {g : GroupId}
  {uncolored : List GroupId} {settings : Settings}

/-- Where functions are in range, a group that does not fit can be named. -/
theorem isMisfit_misfit (hp : p.FunctionsInRange) (hgroups : groups.Formed m p) (hg : g < groups.size) :
    (misfit m p groups g).IsMisfit := by
  -- the group is named after its first use
  obtain ⟨u, rest, hmembers⟩ := List.exists_cons_of_ne_nil (hgroups.members_ne_nil g hg)
  have inPlay := hgroups.members_subset g hg u (hmembers ▸ List.mem_cons_self)
  obtain ⟨use, hmem, huse⟩ := Program.exists_use?_of_mem_usesInPlay inPlay
  have hhead : p.use? ((groups.get g).members.headD 0) = some use := by
    rw [hmembers]
    exact huse
  rw [misfit_eq hhead (Array.getElem?_eq_getElem (hp use hmem))]
  exact ⟨_, _, _, _, _, _, rfl⟩

namespace Revision

/-- For groups that are there, a revision is chosen or a group does not fit: one that went without, from which no
neighbour takes a register of its class, and that may not go to memory. -/
theorem exists_choose_or_misfit (hm : m.Consistent) (hp : p.FunctionsInRange) (hgroups : groups.Formed m p)
    (huncolored : ∀ g ∈ uncolored, g < groups.size) (a : Assignment) (settings : Settings) :
    (∃ r, choose m p groups (.ofGroups p groups) a uncolored settings = .ok r) ∨
      ∃ e, choose m p groups (.ofGroups p groups) a uncolored settings = .error e ∧ e.IsMisfit ∧
        settings.spillUnallocatable = false ∧ ∃ g ∈ uncolored, ∀ s ∈ m.members (groups.get g).classId,
          ¬ a.Taken m (.ofGroups p groups) g s := by
  cases h : choose m p groups (.ofGroups p groups) a uncolored settings with
  | ok r => exact .inl ⟨r, rfl⟩
  | error e =>
    right
    rcases choose_eq_error h with ⟨g, hg, hmissing, -⟩ | ⟨g, hg, hways, hspill, rfl⟩
    · exact absurd (huncolored g hg) (Nat.not_lt.mpr hmissing)
    · exact ⟨_, rfl, isMisfit_misfit hp hgroups (huncolored g hg), hspill, g, hg,
        (waysOut_eq_nil_iff_not_taken hm).mp hways⟩

/-- A choice fails for a group that does not fit if and only if some group went without from which no neighbour takes
a register of its class, and groups may not go to memory. -/
theorem misfit_iff (hm : m.Consistent) (hp : p.FunctionsInRange) (hgroups : groups.Formed m p)
    (huncolored : ∀ g ∈ uncolored, g < groups.size) :
    (∃ e, choose m p groups (.ofGroups p groups) a uncolored settings = .error e ∧ e.IsMisfit) ↔
      settings.spillUnallocatable = false ∧ ∃ g ∈ uncolored, ∀ s ∈ m.members (groups.get g).classId,
        ¬ a.Taken m (.ofGroups p groups) g s := by
  rcases exists_choose_or_misfit hm hp hgroups huncolored a settings with
    ⟨r, hr⟩ | ⟨e, he, hmisfit, hspill, hfree⟩
  · -- what is chosen sends the group to memory, which is not allowed
    constructor
    · rintro ⟨e, he, -⟩
      cases hr.symm.trans he
    · rintro ⟨hspill, g, hg, hfree⟩
      have needed := (choose_eq_ok hr).1 _ (List.mem_map_of_mem hg)
      rw [needed.2 ((waysOut_eq_nil_iff_not_taken hm).mpr hfree)] at hspill
      cases hspill
  · exact iff_of_true ⟨e, he, hmisfit⟩ ⟨hspill, hfree⟩

end Revision

end

/-- A colouring of the groups of an attempt by ranks without a fault, and the revision for the groups that it leaves
without registers. If one is chosen, it unblocks every one of them. If none is, a group does not fit its class. That
happens if and only if no neighbour takes a register of its class from some group that went without, and groups may
not go to memory. -/
theorem unblocks_choose {d : MachineDescription} {m : Machine} (hm : Machine.ofDescription d = .ok m)
    {p q : Program} (hp : p.FunctionsInRange) {number : Nat} {a : Attempt}
    (ha : Attempt.ofProgram m p number = (q, .ok a)) {ranks : List (List GroupId)}
    (hranks : turnsFault? a.groups ranks = none) (settings : Settings) :
    let c := Coloring.ofRanks m a.groups a.graph ranks (.none a.groups)
    let choice := Revision.choose m q a.groups a.graph c.assignment c.uncolored settings
    (∀ r, choice = .ok r → r.Unblocks m q a.number a.groups c.assignment c.uncolored settings) ∧
      ((∃ r, choice = .ok r) ∨ ∃ e, choice = .error e ∧ e.IsMisfit) ∧
      ((∃ e, choice = .error e ∧ e.IsMisfit) ↔ settings.spillUnallocatable = false ∧
        ∃ g ∈ c.uncolored, ∀ s ∈ m.members (a.groups.get g).classId,
          ¬ c.assignment.Taken m a.graph g s) := by
  intro c choice
  have hm := Machine.consistent_of_ofDescription hm
  obtain ⟨sound, -⟩ := Attempt.sound_of_ofProgram ha
  have named := hp.of_keeps (Attempt.keeps_ofProgram ha)
  have there : ∀ g ∈ c.uncolored, g < a.groups.size := by
    intro g hg
    exact turnsFault?_eq_none_iff.mp hranks g ((uncolored_sublist ..).subset hg)
  simp only [choice, sound.graph_eq]
  refine ⟨fun r hr => Revision.unblocks_of_choose hm a.number hr, ?_,
    Revision.misfit_iff hm named sound.formed there⟩
  rcases Revision.exists_choose_or_misfit hm named sound.formed there c.assignment settings with hok | ⟨e, he, hmisfit, -⟩
  · exact .inl hok
  · exact .inr ⟨e, he, hmisfit⟩

/-- When the byte of `contended` is coloured before the word that it lives across, the word and the use of two words
go without. Where groups may go to memory, the use of two words does, and the linkage of the byte is cut, which
removes its edge to the word. Where they may not, the allocation fails. -/
theorem unblocks_choose_contended :
    ∃ q a r, Attempt.ofProgram bytePairMachine contended 1 = (q, .ok a) ∧
      turnsFault? a.groups [[1, 3], [0], [], [4, 2]] = none ∧ r = ⟨[⟨1, [0]⟩], [2]⟩ ∧
      let c := Coloring.ofRanks bytePairMachine a.groups a.graph [[1, 3], [0], [], [4, 2]] (.none a.groups)
      c.uncolored = [2, 1] ∧
        Revision.choose bytePairMachine q a.groups a.graph c.assignment c.uncolored
          { spillUnallocatable := true } = .ok r ∧
        r.Unblocks bytePairMachine q a.number a.groups c.assignment c.uncolored
          { spillUnallocatable := true } ∧
        ∃ e, Revision.choose bytePairMachine q a.groups a.graph c.assignment c.uncolored {} = .error e ∧
          e.IsMisfit := by
  have inRange : contended.FunctionsInRange := by decide
  have computed : (match Attempt.ofProgram bytePairMachine contended 1 with
      | (q, .ok a) =>
        let c := Coloring.ofRanks bytePairMachine a.groups a.graph [[1, 3], [0], [], [4, 2]] (.none a.groups)
        a.groups.size == 5 && c.uncolored == [2, 1] &&
          decide (Revision.choose bytePairMachine q a.groups a.graph c.assignment c.uncolored
            { spillUnallocatable := true } = .ok ⟨[⟨1, [0]⟩], [2]⟩)
      | _ => false) = true := by
    decide +kernel
  rcases h : Attempt.ofProgram bytePairMachine contended 1 with ⟨q, e | a⟩
  · rw [h] at computed
    cases computed
  · rw [h] at computed
    simp only [Bool.and_eq_true, beq_iff_eq, decide_eq_true_eq] at computed
    obtain ⟨⟨hsize, hwithout⟩, hr⟩ := computed
    have hranks : turnsFault? a.groups [[1, 3], [0], [], [4, 2]] = none := by
      rw [turnsFault?_eq_none_iff, hsize]
      decide
    obtain ⟨unblocks, -, -⟩ := unblocks_choose ofDescription_bytePair inRange h hranks
      { spillUnallocatable := true }
    obtain ⟨-, -, fails⟩ := unblocks_choose ofDescription_bytePair inRange h hranks {}
    have done := unblocks _ hr
    -- the use of two words goes to memory because no neighbour takes a word from it
    obtain ⟨hmem, -, hfree⟩ := done.evicted 2 (by decide)
    rw [← (Attempt.sound_of_ofProgram h).1.graph_eq] at hfree
    exact ⟨q, a, _, rfl, hranks, rfl, hwithout, hr, done, fails.mpr ⟨rfl, 2, hmem, hfree⟩⟩

end RegisterColoring
