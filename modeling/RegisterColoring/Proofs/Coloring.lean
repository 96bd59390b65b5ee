import RegisterColoring.Coloring
import RegisterColoring.Proofs.Interference
import RegisterColoring.Proofs.Machine

/-! # Colouring keeps neighbours apart

A group is given registers of its class that share no storage with each other or with what its neighbours
hold. So whatever the order of the turns, no two neighbours ever hold registers that share storage.

* `Group.Fits`: a list of registers is right for a group.
* `Assignment.Apart`: no two neighbours hold registers that share storage.
* `apart_give`: giving a group the registers chosen for it keeps neighbours apart.
* `colorInOrder_induction`: what every single gift preserves, a whole colouring preserves.
* `apart_colorInOrder`: what a colouring comes to.
* `heldBy_colorInOrder_of_turn`, `mem_blockedFor_append`: what stays as it is after a turn.
* `mem_uncolored_iff`, `uncolored_sublist`: the groups that go without.
* `fits_of_notMem_uncolored`, `heldBy_of_mem_uncolored`, `blocked_of_mem_uncolored`: what groups hold in the end. -/

namespace RegisterColoring

/-! ## Choosing registers -/

/-- Whether registers are right for a group: as many as it needs, of its class, and no two of them share
storage. -/
structure Group.Fits (m : Machine) (g : Group) (rs : List RegisterId) : Prop where
  /-- There are as many as the group needs. -/
  length_eq : rs.length = g.registers
  /-- They are of the group's class. -/
  mem_class : ∀ r ∈ rs, r ∈ m.members g.classId
  /-- No register shares storage with a later one. -/
  pairwise : rs.Pairwise fun r q => q ∉ m.aliases r

/-- The best register is available. -/
theorem mem_of_bestRegister? {m : Machine} {waiting : List Waiting} {available : RegisterSet}
    {r : RegisterId} (h : bestRegister? m waiting available = some r) : r ∈ available := by
  obtain ⟨⟨r', k⟩, hleast, rfl⟩ := Option.map_eq_some_iff.mp h
  obtain ⟨q, hq, heq⟩ := List.mem_map.mp (leastBy?_mem hleast)
  cases heq
  exact RegisterSet.mem_toList.mp hq

/-- As long as a register is available there is a best one. -/
theorem exists_bestRegister? (m : Machine) (waiting : List Waiting) {available : RegisterSet}
    {r : RegisterId} (h : r ∈ available) : ∃ q, bestRegister? m waiting available = some q := by
  have hne : available.toList.map (fun r => (r, sparedCount m waiting r)) ≠ [] := by
    intro hnil
    rw [List.map_eq_nil_iff] at hnil
    have := RegisterSet.mem_toList.mpr h
    rw [hnil] at this
    cases this
  obtain ⟨best, hbest⟩ := exists_leastBy? (fun (a b : RegisterId × Nat) => b.2 < a.2) hne
  exact ⟨best.1, by rw [bestRegister?, hbest]; rfl⟩

/-- Picked registers are as many as asked for, available, and share no storage with each other. -/
theorem pickRegisters_spec {m : Machine} {waiting : List Waiting} {count : Nat}
    {available : RegisterSet} {rs : List RegisterId}
    (h : pickRegisters m waiting count available = some rs) :
    rs.length = count ∧ (∀ r ∈ rs, r ∈ available) ∧ rs.Pairwise fun r q => q ∉ m.aliases r := by
  induction count generalizing available rs with
  | zero =>
    cases h
    exact ⟨rfl, by simp, .nil⟩
  | succ count ih =>
    rw [pickRegisters] at h
    split at h
    · rename_i r hr
      obtain ⟨later, hlater, rfl⟩ := Option.map_eq_some_iff.mp h
      obtain ⟨hlength, hmem, hpairwise⟩ := ih hlater
      refine ⟨by rw [List.length_cons, hlength], ?_, ?_⟩
      · intro q hq
        rcases List.mem_cons.mp hq with rfl | hq
        · exact mem_of_bestRegister? hr
        · exact (RegisterSet.mem_sdiff.mp (hmem q hq)).1
      · exact .cons (fun q hq => (RegisterSet.mem_sdiff.mp (hmem q hq)).2) hpairwise
    · cases h

variable {m : Machine} {groups : Groups} {graph : Interference}

/-- The registers chosen for a group fit it, and its neighbours do not block them. -/
theorem registersFor?_spec {a : Assignment} {g : GroupId} {rs : List RegisterId}
    (h : registersFor? m groups graph a g = some rs) :
    (groups.get g).Fits m rs ∧ ∀ r ∈ rs, r ∉ blockedFor m graph a g := by
  obtain ⟨hlength, hmem, hpairwise⟩ := pickRegisters_spec h
  refine ⟨⟨hlength, fun r hr => ?_, hpairwise⟩, fun r hr => ?_⟩
  · exact (RegisterSet.mem_sdiff.mp (hmem r hr)).1
  · exact (RegisterSet.mem_sdiff.mp (hmem r hr)).2

/-! ## Giving registers -/

namespace Assignment

/-- What groups hold after one of them was given registers. -/
theorem heldBy_give (a : Assignment) (g x : GroupId) (rs : List RegisterId) :
    (a.give g rs).heldBy x = if g = x ∧ g < a.size then rs else a.heldBy x := by
  rw [heldBy, heldBy, give, Array.getD_eq_getD_getElem?, Array.getElem?_setIfInBounds,
    Array.getD_eq_getD_getElem?]
  by_cases hgx : g = x
  · by_cases hg : g < a.size
    · rw [if_pos hgx, if_pos hg, if_pos ⟨hgx, hg⟩, Option.getD_some]
    · rw [if_pos hgx, if_neg hg, if_neg fun h => hg h.2, ← hgx,
        Array.getElem?_eq_none (Nat.le_of_not_lt hg)]
  · rw [if_neg hgx, if_neg fun h => hgx h.1]

@[simp] theorem size_give (a : Assignment) (g : GroupId) (rs : List RegisterId) :
    (a.give g rs).size = a.size :=
  Array.size_setIfInBounds

@[simp] theorem heldBy_none (g : GroupId) : (none groups).heldBy g = [] := by
  rw [heldBy, none, Array.getD_eq_getD_getElem?, Array.getElem?_replicate]
  split <;> rfl

/-- No two neighbours hold registers that share storage. -/
def Apart (m : Machine) (graph : Interference) (a : Assignment) : Prop :=
  ∀ x y, y ∈ graph.neighbors x → ∀ r ∈ a.heldBy x, ∀ q ∈ a.heldBy y, q ∉ m.aliases r

/-- While no group holds registers, neighbours are apart. -/
theorem apart_none : Apart m graph (none groups) := by
  intro x y _ r hr
  rw [heldBy_none] at hr
  cases hr

end Assignment

/-- A register is blocked for a group when it shares storage with one that a neighbour holds. -/
theorem mem_blockedFor (hm : m.Consistent) {a : Assignment} {g : GroupId} {q : RegisterId} :
    q ∈ blockedFor m graph a g ↔ ∃ n ∈ graph.neighbors g, ∃ r ∈ a.heldBy n, q ∈ m.aliases r := by
  rw [blockedFor, hm.mem_aliasesOfAll]
  simp only [List.mem_flatMap]
  constructor
  · rintro ⟨r, ⟨n, hn, hr⟩, hq⟩
    exact ⟨n, hn, r, hr, hq⟩
  · rintro ⟨n, hn, r, hr, hq⟩
    exact ⟨r, ⟨n, hn, hr⟩, hq⟩

/-- Whether being neighbours is mutual and never with oneself, and neighbours are listed once. -/
structure Interference.Simple (graph : Interference) : Prop where
  /-- Being neighbours is mutual. -/
  comm : ∀ x y, y ∈ graph.neighbors x → x ∈ graph.neighbors y
  /-- No group is its own neighbour. -/
  irrefl : ∀ x, x ∉ graph.neighbors x
  /-- No neighbour is listed twice. -/
  nodup : ∀ x, (graph.neighbors x).Nodup

/-- The interference of groups is simple. -/
theorem Interference.simple_ofGroups (p : Program) (groups : Groups) :
    (Interference.ofGroups p groups).Simple :=
  ⟨fun _ _ => neighbors_comm.mp, fun _ => not_mem_neighbors_self, nodup_neighbors⟩

/-- Giving a group the registers chosen for it keeps neighbours apart. -/
theorem apart_give (hm : m.Consistent) (hgraph : graph.Simple) {a : Assignment} {g : GroupId}
    {rs : List RegisterId} (ha : a.Apart m graph) (h : registersFor? m groups graph a g = some rs) :
    (a.give g rs).Apart m graph := by
  have clear : ∀ n ∈ graph.neighbors g, ∀ q ∈ a.heldBy n, ∀ r ∈ rs, r ∉ m.aliases q := by
    intro n hn q hq r hr hrq
    exact (registersFor?_spec h).2 r hr ((mem_blockedFor hm).mpr ⟨n, hn, q, hq, hrq⟩)
  intro x y hxy r hr q hq
  -- at most one of the two neighbours is the group that was given registers
  rw [Assignment.heldBy_give] at hr hq
  by_cases hx : g = x ∧ g < a.size
  · have hy : ¬ (g = y ∧ g < a.size) := by
      rintro ⟨rfl, -⟩
      exact hgraph.irrefl g (hx.1 ▸ hxy)
    rw [if_pos hx] at hr
    rw [if_neg hy] at hq
    exact fun hqr => clear y (hx.1 ▸ hxy) q hq r hr (hm.aliases_symm r q hqr)
  · rw [if_neg hx] at hr
    by_cases hy : g = y ∧ g < a.size
    · rw [if_pos hy] at hq
      exact clear x (hgraph.comm x g (hy.1 ▸ hxy)) r hr q hq
    · rw [if_neg hy] at hq
      exact ha x y hxy r hr q hq

/-! ## Whole colourings -/

/-- What every single gift preserves, a whole colouring preserves. -/
theorem colorInOrder_induction {P : Assignment → Prop} {order : List GroupId} {a : Assignment}
    (step : ∀ a, ∀ g ∈ order, ∀ rs, P a → registersFor? m groups graph a g = some rs →
      P (a.give g rs)) (h : P a) : P (colorInOrder m groups graph order a).assignment := by
  induction order generalizing a with
  | nil => exact h
  | cons g rest ih =>
    refine ih (fun a x hx => step a x (List.mem_cons_of_mem g hx)) ?_
    cases hchosen : registersFor? m groups graph a g with
    | none => exact h
    | some rs => exact step a g List.mem_cons_self rs h hchosen

/-- A colouring keeps neighbours apart. -/
theorem apart_colorInOrder (hm : m.Consistent) (hgraph : graph.Simple) {order : List GroupId}
    {a : Assignment} (ha : a.Apart m graph) :
    (colorInOrder m groups graph order a).assignment.Apart m graph :=
  colorInOrder_induction (fun _ _ _ _ hb hchosen => apart_give hm hgraph hb hchosen) ha

/-- A group whose turn does not come keeps what it holds. -/
theorem heldBy_colorInOrder_of_notMem {order : List GroupId} {a : Assignment} {x : GroupId}
    (hx : x ∉ order) : (colorInOrder m groups graph order a).assignment.heldBy x = a.heldBy x := by
  refine colorInOrder_induction (P := fun b => b.heldBy x = a.heldBy x) (fun b g hg rs hb _ => ?_) rfl
  rw [Assignment.heldBy_give, if_neg, hb]
  rintro ⟨rfl, -⟩
  exact hx hg

/-- Only groups that had their turn hold registers. -/
theorem mem_before_of_heldBy {before : List GroupId} {x : GroupId} {r : RegisterId}
    (hr : r ∈ (colorInOrder m groups graph before (.none groups)).assignment.heldBy x) :
    x ∈ before := by
  by_contra hx
  rw [heldBy_colorInOrder_of_notMem hx, Assignment.heldBy_none] at hr
  cases hr

/-- Later turns go on from what the earlier ones gave. -/
theorem assignment_colorInOrder_append (before later : List GroupId) (a : Assignment) :
    (colorInOrder m groups graph (before ++ later) a).assignment =
      (colorInOrder m groups graph later
        (colorInOrder m groups graph before a).assignment).assignment := by
  induction before generalizing a with
  | nil => rfl
  | cons g before ih => exact ih _

/-- A colouring has room for the same groups. -/
theorem size_colorInOrder (order : List GroupId) (a : Assignment) :
    (colorInOrder m groups graph order a).assignment.size = a.size := by
  refine colorInOrder_induction (P := fun b => b.size = a.size) (fun b g _ rs hb _ => ?_) rfl
  rw [Assignment.size_give, hb]

/-- A group that has one turn holds in the end what was found for it then, or what it held before. -/
theorem heldBy_colorInOrder_of_turn {before later : List GroupId} {g : GroupId}
    (hnodup : (before ++ g :: later).Nodup) {a : Assignment} (hsize : g < a.size) :
    (colorInOrder m groups graph (before ++ g :: later) a).assignment.heldBy g =
      (registersFor? m groups graph (colorInOrder m groups graph before a).assignment g).getD
        (a.heldBy g) := by
  obtain ⟨-, htail, hapart⟩ := List.nodup_append.mp hnodup
  have hbefore : g ∉ before := fun hmem => hapart g hmem g List.mem_cons_self rfl
  rw [assignment_colorInOrder_append, colorInOrder]
  simp only
  rw [heldBy_colorInOrder_of_notMem (List.nodup_cons.mp htail).1]
  cases registersFor? m groups graph (colorInOrder m groups graph before a).assignment g with
  | none => exact heldBy_colorInOrder_of_notMem hbefore
  | some rs => rw [Assignment.heldBy_give, if_pos ⟨rfl, by rwa [size_colorInOrder]⟩, Option.getD_some]

/-- What is blocked for a group stays blocked when other groups have their turns: no group has its turn twice, so
that the neighbours keep what they hold. -/
theorem mem_blockedFor_append (hm : m.Consistent) {before later : List GroupId}
    (hnodup : (before ++ later).Nodup) {g : GroupId} {r : RegisterId}
    (h : r ∈ blockedFor m graph (colorInOrder m groups graph before (.none groups)).assignment g) :
    r ∈ blockedFor m graph (colorInOrder m groups graph (before ++ later) (.none groups)).assignment g := by
  obtain ⟨n, hn, s, hs, hrs⟩ := (mem_blockedFor hm).mp h
  have hlater : n ∉ later := fun hmem =>
    (List.nodup_append.mp hnodup).2.2 n (mem_before_of_heldBy hs) n hmem rfl
  refine (mem_blockedFor hm).mpr ⟨n, hn, s, ?_, hrs⟩
  rwa [assignment_colorInOrder_append, heldBy_colorInOrder_of_notMem hlater]

/-- A group that went without had its turn, and could not be given registers after the turns before. -/
theorem exists_turn_of_mem_uncolored {order : List GroupId} {a : Assignment} {g : GroupId}
    (h : g ∈ (colorInOrder m groups graph order a).uncolored) :
    ∃ before later, order = before ++ g :: later ∧
      registersFor? m groups graph (colorInOrder m groups graph before a).assignment g = none := by
  induction order generalizing a with
  | nil => cases h
  | cons x rest ih =>
    rw [Coloring.uncolored, colorInOrder, List.mem_filterMap] at h
    obtain ⟨⟨y, chosen⟩, hmem, hnone⟩ := h
    rcases List.mem_cons.mp hmem with heq | hmem
    · obtain ⟨rfl, rfl⟩ := Prod.mk.inj heq
      simp only at hnone
      split at hnone
      · rename_i hchosen
        obtain rfl := Option.some.inj hnone
        exact ⟨[], rest, rfl, Option.isNone_iff_eq_none.mp hchosen⟩
      · cases hnone
    · obtain ⟨before, later, rfl, hlater⟩ := ih (List.mem_filterMap.mpr ⟨(y, chosen), hmem, hnone⟩)
      exact ⟨x :: before, later, rfl, hlater⟩

/-- Groups go without in the earlier turns, and then in the later ones. -/
theorem uncolored_colorInOrder_append (before later : List GroupId) (a : Assignment) :
    (colorInOrder m groups graph (before ++ later) a).uncolored =
      (colorInOrder m groups graph before a).uncolored ++
        (colorInOrder m groups graph later (colorInOrder m groups graph before a).assignment).uncolored := by
  induction before generalizing a with
  | nil => rfl
  | cons g before ih =>
    rw [List.cons_append, colorInOrder, colorInOrder, Coloring.uncolored, Coloring.uncolored,
      List.filterMap_cons, List.filterMap_cons]
    split
    · exact ih _
    · exact congrArg (_ :: ·) (ih _)

/-- The groups that go without are those for which no registers are found when their turn comes. -/
theorem mem_uncolored_iff {order : List GroupId} {a : Assignment} {g : GroupId} :
    g ∈ (colorInOrder m groups graph order a).uncolored ↔ ∃ before later, order = before ++ g :: later ∧
      registersFor? m groups graph (colorInOrder m groups graph before a).assignment g = none := by
  refine ⟨exists_turn_of_mem_uncolored, ?_⟩
  rintro ⟨before, later, rfl, hnone⟩
  rw [uncolored_colorInOrder_append, List.mem_append]
  right
  rw [colorInOrder, Coloring.uncolored, hnone]
  exact List.mem_cons_self

/-- Groups go without registers in the order of their turns. -/
theorem uncolored_sublist (m : Machine) (groups : Groups) (graph : Interference) (order : List GroupId)
    (a : Assignment) : (colorInOrder m groups graph order a).uncolored.Sublist order := by
  induction order generalizing a with
  | nil => exact .slnil
  | cons g rest ih =>
    rw [Coloring.uncolored, colorInOrder, List.filterMap_cons]
    cases registersFor? m groups graph a g with
    | none => exact (ih _).cons_cons g
    | some rs => exact (ih _).cons g

/-- A group that needs one register is given one as long as a register of its class is free. -/
theorem registersFor?_ne_none {a : Assignment} {g : GroupId} (hone : (groups.get g).registers = 1)
    {r : RegisterId} (hr : r ∈ m.members (groups.get g).classId) (hfree : r ∉ blockedFor m graph a g) :
    registersFor? m groups graph a g ≠ none := by
  have available : r ∈ (m.members (groups.get g).classId).sdiff (blockedFor m graph a g) :=
    RegisterSet.mem_sdiff.mpr ⟨hr, hfree⟩
  obtain ⟨q, hq⟩ := exists_bestRegister? m (waitingNeighbors m groups graph a g) available
  rw [registersFor?, hone, pickRegisters, hq]
  exact Option.some_ne_none _

/-! ## One turn for every group -/

section

variable {order : List GroupId} {g : GroupId}

/-- A group that has one turn and does not go without holds what fits it. -/
theorem fits_of_notMem_uncolored (hnodup : order.Nodup) (hg : g ∈ order) (hsize : g < groups.size)
    (h : g ∉ (colorInOrder m groups graph order (.none groups)).uncolored) :
    (groups.get g).Fits m ((colorInOrder m groups graph order (.none groups)).assignment.heldBy g) := by
  obtain ⟨before, later, rfl⟩ := List.append_of_mem hg
  rw [heldBy_colorInOrder_of_turn hnodup (by rwa [Assignment.none, Array.size_replicate])]
  cases hchosen : registersFor? m groups graph
      (colorInOrder m groups graph before (.none groups)).assignment g with
  | none => exact absurd (mem_uncolored_iff.mpr ⟨before, later, rfl, hchosen⟩) h
  | some rs => exact (registersFor?_spec hchosen).1

/-- A group that has one turn and goes without holds nothing. -/
theorem heldBy_of_mem_uncolored (hnodup : order.Nodup) (hsize : g < groups.size)
    (h : g ∈ (colorInOrder m groups graph order (.none groups)).uncolored) :
    (colorInOrder m groups graph order (.none groups)).assignment.heldBy g = [] := by
  obtain ⟨before, later, rfl, hnone⟩ := mem_uncolored_iff.mp h
  rw [heldBy_colorInOrder_of_turn hnodup (by rwa [Assignment.none, Array.size_replicate]), hnone]
  exact Assignment.heldBy_none g

/-- When a group that needs one register goes without, every register of its class is blocked in the end. -/
theorem blocked_of_mem_uncolored (hm : m.Consistent) (hnodup : order.Nodup)
    (h : g ∈ (colorInOrder m groups graph order (.none groups)).uncolored)
    (hone : (groups.get g).registers = 1) {r : RegisterId} (hr : r ∈ m.members (groups.get g).classId) :
    r ∈ blockedFor m graph (colorInOrder m groups graph order (.none groups)).assignment g := by
  obtain ⟨before, later, rfl, hnone⟩ := mem_uncolored_iff.mp h
  apply mem_blockedFor_append hm hnodup
  by_contra hfree
  exact registersFor?_ne_none hone hr hfree hnone

end

end RegisterColoring
