import RegisterColoring.Proofs.Rules

/-! # Colouring in any order

The ranking decides in which order groups are coloured, and a good order leaves few groups without registers. But no
order does harm. Whichever way the groups are put into ranks, each group is given registers that fit it and that no
neighbour holds anything of, or it is given none and is listed. What a neighbour holds it keeps, so a group that
needs one register and goes without finds every register of its class taken even in the end.

* `Assignment.Taken`: a neighbour of a group holds a register that overlaps another.
* `Coloring.IsLegal`: what a colouring comes to in which every group has one turn.
* `perm_turns`, `turnsFault?_of_perm`: ranks that have every group once.
* `isLegal_colorInOrder`: every order in which each group has one turn comes to that.
* `isLegal_ofRanks`: so does every way to put the groups of an attempt into ranks. -/

namespace RegisterColoring

namespace Assignment

/-- Whether a neighbour of a group holds a register that overlaps the given one. -/
def Taken (m : Machine) (graph : Interference) (a : Assignment) (g : GroupId) (r : RegisterId) : Prop :=
  ∃ n ∈ graph.neighbors g, ∃ q ∈ a.heldBy n, m.Overlap q r

instance (m : Machine) (graph : Interference) (a : Assignment) (g : GroupId) (r : RegisterId) :
    Decidable (a.Taken m graph g r) :=
  inferInstanceAs (Decidable (∃ n ∈ graph.neighbors g, _))

/-- On an accepted machine the registers that neighbours take are those that they block. -/
theorem taken_iff {m : Machine} (hm : m.Consistent) {graph : Interference} {a : Assignment} {g : GroupId}
    {r : RegisterId} : a.Taken m graph g r ↔ r ∈ blockedFor m graph a g := by
  rw [mem_blockedFor hm, Taken]
  simp only [hm.overlap_iff]

end Assignment

/-- What a colouring of groups comes to in which every group has one turn, in the given order. -/
structure Coloring.IsLegal (m : Machine) (groups : Groups) (graph : Interference) (order : List GroupId)
    (c : Coloring) : Prop where
  /-- The groups that went without are those for which no registers were found when their turn came. -/
  gaveUp : ∀ g, g ∈ c.uncolored ↔ ∃ before later, order = before ++ g :: later ∧
    registersFor? m groups graph (colorInOrder m groups graph before (.none groups)).assignment g = none
  /-- Each of them is listed once. -/
  nodup : c.uncolored.Nodup
  /-- They hold nothing. -/
  without : ∀ g ∈ c.uncolored, c.assignment.heldBy g = []
  /-- Every other group holds as many registers as it needs, all of its class, and no two of them overlap. -/
  held : ∀ g ∈ groups.ids, g ∉ c.uncolored →
    (c.assignment.heldBy g).length = (groups.get g).registers ∧
      (∀ r ∈ c.assignment.heldBy g, r ∈ m.members (groups.get g).classId) ∧
      (c.assignment.heldBy g).Pairwise fun r q => ¬ m.Overlap r q
  /-- No register of a group overlaps a register of a neighbour. -/
  apart : ∀ g, ∀ n ∈ graph.neighbors g, ∀ r ∈ c.assignment.heldBy g, ∀ q ∈ c.assignment.heldBy n,
    ¬ m.Overlap r q
  /-- Where a group that needs one register went without, every register of its class overlaps one that a neighbour
  holds. -/
  taken : ∀ g ∈ c.uncolored, (groups.get g).registers = 1 → ∀ r ∈ m.members (groups.get g).classId,
    c.assignment.Taken m graph g r

/-! ## Ranks -/

section

variable {groups : Groups} {ranks : List (List GroupId)}

/-- The turns are the groups of the ranks in another order. -/
theorem perm_turns (ranks : List (List GroupId)) : (turns ranks).Perm ranks.flatten := by
  unfold turns
  exact (List.reverse_perm ranks).flatten

/-- Ranks name groups that are there, or there is a fault. -/
theorem turnsFault?_eq_none_iff : turnsFault? groups ranks = none ↔ ∀ g ∈ turns ranks, g < groups.size := by
  rw [turnsFault?, Option.map_eq_none_iff, List.find?_eq_none]
  simp

/-- Ranks that have every group once lead to no fault. -/
theorem turnsFault?_of_perm (h : ranks.flatten.Perm groups.ids) : turnsFault? groups ranks = none := by
  rw [turnsFault?_eq_none_iff]
  intro g hg
  exact List.mem_range.mp (((perm_turns ranks).trans h).mem_iff.mp hg)

end

/-! ## One turn for every group -/

/-- A colouring in which every group has one turn is legal, whatever the order. -/
theorem isLegal_colorInOrder {m : Machine} {groups : Groups} {graph : Interference} {order : List GroupId}
    (hm : m.Consistent) (hgraph : graph.Simple) (horder : order.Perm groups.ids) :
    (colorInOrder m groups graph order (.none groups)).IsLegal m groups graph order := by
  have nodup : order.Nodup := horder.nodup_iff.mpr List.nodup_range
  have there : ∀ g ∈ order, g < groups.size := fun g hg => List.mem_range.mp (horder.mem_iff.mp hg)
  constructor
  case gaveUp => exact fun g => mem_uncolored_iff
  case nodup => exact nodup.sublist (uncolored_sublist m groups graph order _)
  case without =>
    intro g hg
    exact heldBy_of_mem_uncolored nodup (there g ((uncolored_sublist m groups graph order _).subset hg)) hg
  case held =>
    intro g hg hcolored
    have fits := fits_of_notMem_uncolored nodup (horder.mem_iff.mpr hg) (List.mem_range.mp hg) hcolored
    refine ⟨fits.length_eq, fits.mem_class, fits.pairwise.imp fun hfree hoverlap => ?_⟩
    exact hfree (hm.overlap_iff.mp hoverlap)
  case apart =>
    intro g n hn r hr q hq hoverlap
    exact apart_colorInOrder hm hgraph Assignment.apart_none g n hn r hr q hq (hm.overlap_iff.mp hoverlap)
  case taken =>
    intro g hg hone r hr
    exact (Assignment.taken_iff hm).mpr (blocked_of_mem_uncolored hm nodup hg hone hr)

/-- On an accepted machine the groups of an attempt may be coloured in any order, with any division into ranks:
if the ranks have every group once, there is no fault and the colouring is legal. -/
theorem isLegal_ofRanks {d : MachineDescription} {m : Machine} (hm : Machine.ofDescription d = .ok m)
    {p q : Program} {number : Nat} {a : Attempt} (ha : Attempt.ofProgram m p number = (q, .ok a))
    {ranks : List (List GroupId)} (hranks : ranks.flatten.Perm a.groups.ids) :
    turnsFault? a.groups ranks = none ∧
      (Coloring.ofRanks m a.groups a.graph ranks (.none a.groups)).IsLegal m a.groups a.graph
        (turns ranks) := by
  obtain ⟨sound, -⟩ := Attempt.sound_of_ofProgram ha
  refine ⟨turnsFault?_of_perm hranks, ?_⟩
  unfold Coloring.ofRanks
  exact isLegal_colorInOrder (Machine.consistent_of_ofDescription hm) sound.simple
    ((perm_turns ranks).trans hranks)

/-- The groups of `contended` in ranks that have the byte coloured before the word it lives across. The word goes
without, for the byte takes half of it, and so does the use that needs two words. -/
theorem isLegal_ofRanks_contended :
    ∃ q a, Attempt.ofProgram bytePairMachine contended 1 = (q, .ok a) ∧
      [[1, 3], [0], [], [4, 2]].flatten.Perm a.groups.ids ∧
      let c := Coloring.ofRanks bytePairMachine a.groups a.graph [[1, 3], [0], [], [4, 2]] (.none a.groups)
      c.uncolored = [2, 1] ∧ c.assignment.heldBy 1 = [] ∧ (a.groups.get 1).registers = 1 ∧
        2 ∈ bytePairMachine.members (a.groups.get 1).classId ∧
        c.assignment.Taken bytePairMachine a.graph 1 2 ∧
        (c.assignment.heldBy 3).length = 1 := by
  have computed : (match (Attempt.ofProgram bytePairMachine contended 1).2 with
      | .ok a => a.groups.size == 5 && (a.groups.get 1).registers == 1 && (a.groups.get 3).registers == 1 &&
        decide (2 ∈ bytePairMachine.members (a.groups.get 1).classId) &&
        (Coloring.ofRanks bytePairMachine a.groups a.graph [[1, 3], [0], [], [4, 2]]
          (.none a.groups)).uncolored == [2, 1]
      | .error _ => false) = true := by
    decide +kernel
  rcases h : Attempt.ofProgram bytePairMachine contended 1 with ⟨q, e | a⟩
  · rw [h] at computed
    cases computed
  · rw [h] at computed
    simp only [Bool.and_eq_true, beq_iff_eq, decide_eq_true_eq] at computed
    obtain ⟨⟨⟨⟨hsize, hone⟩, hone'⟩, hmember⟩, hwithout⟩ := computed
    have hranks : [[1, 3], [0], [], [4, 2]].flatten.Perm a.groups.ids := by
      rw [Groups.ids, hsize]
      decide
    obtain ⟨-, legal⟩ := isLegal_ofRanks ofDescription_bytePair h hranks
    have word : 1 ∈ (Coloring.ofRanks bytePairMachine a.groups a.graph [[1, 3], [0], [], [4, 2]]
        (.none a.groups)).uncolored := by
      rw [hwithout]
      decide
    refine ⟨q, a, rfl, hranks, hwithout, legal.without 1 word, hone, hmember,
      legal.taken 1 word hone 2 hmember, ?_⟩
    refine (legal.held 3 (hranks.mem_iff.mp (by decide)) ?_).1.trans hone'
    rw [hwithout]
    decide

end RegisterColoring
