import Mathlib.Algebra.Order.Group.Nat
import RegisterColoring.Proofs.Checked.Basic
import RegisterColoring.Proofs.InclusionForest
import RegisterColoring.Proofs.Pressure
import RegisterColoring.Proofs.Validation

/-! # Checked look-ups in a machine

The tables of an accepted machine have a place for every register, class and vertex, and on a machine with
fewer than `2 ^ 16` registers their values fit 32 bits while they are computed.

* `Machine.Sized`: what is known of such a machine.
* `Machine.Sized.sum_ceiling_le`: the vertices below a vertex have room for no more registers of a class than
  the class has, because their sets are disjoint.
* `Checked.coverage_eq_some`: the table of what registers block can be computed.
* `Checked.grid`: a table of two arguments in one array, row by row.
* `Checked.mostBlocked_eq_some`, `Checked.ceiling_eq_some`, `Checked.largestWithin_eq_some`: such tables hold, at
  the place of two classes or of a class and a vertex, what the machine answers for them.
* `Checked.aliasesOfAll_eq_some`: the registers that share storage with some can be collected. -/

namespace RegisterColoring

/-! ## Machines with few registers -/

namespace Machine

/-- What is known of an accepted machine with fewer than `2 ^ 16` registers. -/
structure Sized (m : Machine) : Prop extends m.Consistent where
  /-- The registers are few. -/
  registerCount_lt : m.registerCount < 2 ^ 16
  /-- Classes and their alias sets range over the registers of the machine. -/
  width_class : ∀ c, c < m.classCount →
    (m.members c).width = m.registerCount ∧ (m.classAt c).aliases.width = m.registerCount
  /-- The alias sets of any two classes nest or are disjoint. -/
  laminar : ∀ a ∈ m.classes.toList, ∀ b ∈ m.classes.toList, a.aliases.laminar b.aliases = true
  /-- The table of what registers block has a row for every two classes. -/
  coverage_eq : m.coverage = (m.classes.toList.map fun n =>
    (m.classes.toList.map fun c => coverageOf m.registers n c).toArray).toArray

/-- An accepted machine whose description has few registers is such a machine. -/
theorem sized_of_ofDescription {d : MachineDescription} {m : Machine} (h : ofDescription d = .ok m)
    (hregisters : d.registers.length < 2 ^ 16) : m.Sized := by
  obtain ⟨declared, classes, -, -, hm⟩ := ofDescription_eq_ok h
  refine { consistent_of_ofDescription h with
    registerCount_lt := ?_, width_class := fun c hc => width_of_ofDescription h hc
    laminar := laminar_of_ofDescription h, coverage_eq := ?_ }
  · rw [hm, registerCount]
    exact MachineDescription.size_machineRegisters ▸ hregisters
  · rw [hm]

namespace Sized

variable {m : Machine} {c n : ClassId} {v : VertexId}

/-- A set that ranges over the registers of the machine has fewer than `2 ^ 16` of them. -/
theorem card_lt (hm : m.Sized) {s : RegisterSet} (hwidth : s.width ≤ m.registerCount) :
    s.card < 2 ^ 16 := by
  have inside : s.toFinset ⊆ Finset.range m.registerCount := by
    intro r hr
    rw [RegisterSet.mem_toFinset] at hr
    exact Finset.mem_range.mpr ((RegisterSet.lt_width_of_mem hr).trans_le hwidth)
  have := Finset.card_le_card inside
  rw [RegisterSet.card_toFinset, Finset.card_range] at this
  exact this.trans_lt hm.registerCount_lt

/-- A class has fewer than `2 ^ 16` registers. -/
theorem capacity_lt (hm : m.Sized) (hc : c < m.classCount) : m.capacity c < 2 ^ 16 :=
  hm.card_lt (hm.width_class c hc).1.le

/-- A vertex has room for fewer than `2 ^ 16` registers of a class. -/
theorem ceiling_lt (hm : m.Sized) (hn : n < m.classCount) (v : VertexId) : m.ceiling n v < 2 ^ 16 :=
  hm.card_lt (by rw [RegisterSet.width_inter]; exact (hm.width_class n hn).1.le)

/-- Vertices with one parent have room for no more registers of a class than the class has. -/
theorem sum_ceiling_le (hm : m.Sized) (n : ClassId) (parent : Option VertexId) {vs : List VertexId}
    (hnodup : vs.Nodup)
    (h : ∀ v ∈ vs, v < m.forest.size ∧ (m.forest.vertex v).parent = parent) :
    (vs.map (m.ceiling n)).sum ≤ m.capacity n := by
  refine sum_ceiling_le_of_disjoint n (hnodup.imp_of_mem fun {v w} hv hw hne r hr => ?_)
  have hsets : ∀ s ∈ m.classes.toList.map fun c => c.aliases, s.width = m.registerCount := by
    intro s hs
    obtain ⟨k, hk, rfl⟩ := List.mem_map.mp hs
    obtain ⟨c, hc, rfl⟩ := mem_classes_iff.mp hk
    exact (hm.width_class c hc).2
  obtain ⟨hv, hparent⟩ := h v hv
  obtain ⟨hw, hparent'⟩ := h w hw
  rw [hm.forest_eq] at hv hw hparent hparent' hr ⊢
  refine ClassForest.disjoint_of_parent_eq (fun s hs t ht => (hsets s hs).trans (hsets t ht).symm)
    (fun s hs t ht => ?_) hv hw hne (hparent.trans hparent'.symm) hr
  obtain ⟨a, ha, rfl⟩ := List.mem_map.mp hs
  obtain ⟨b, hb, rfl⟩ := List.mem_map.mp ht
  exact hm.laminar a ha b hb

/-- The children of a vertex have room for no more registers of a class than the class has. -/
theorem sum_ceiling_children_le (hm : m.Sized) (n : ClassId) (v : VertexId) :
    ((m.forest.vertex v).children.map (m.ceiling n)).sum ≤ m.capacity n := by
  refine hm.sum_ceiling_le n (some v) ?_ fun c hc => (hm.ordered.mem_children v c).mp hc
  rw [hm.forest_eq, ClassForest.children_ofSets]
  exact List.nodup_range.filter _

/-- The roots have room for no more registers of a class than the class has. -/
theorem sum_ceiling_roots_le (hm : m.Sized) (n : ClassId) :
    (m.forest.roots.map (m.ceiling n)).sum ≤ m.capacity n :=
  hm.sum_ceiling_le n none hm.nodup_roots fun v hv => (hm.ordered.mem_roots v).mp hv

end Sized

end Machine

/-! ## How much can be blocked -/

/-- A set of registers below a width is a number of that many binary digits. -/
theorem RegisterSet.bits_lt {s : RegisterSet} {width : Nat} (h : s.width ≤ width) : s.bits < 2 ^ width := by
  refine Nat.lt_pow_two_of_testBit _ fun i hi => ?_
  rw [testBit_bits, ← Bool.not_eq_true]
  exact fun hin => absurd ((lt_width_of_mem hin).trans_le h) (Nat.not_lt.mpr hi)

/-- A number of so many binary digits has no more of them set. -/
theorem bitCount_le {width bits : Nat} (h : bits < 2 ^ width) : bitCount width bits ≤ width := by
  have below : ∀ i, bits.testBit i = true → i < width := by
    intro i hi
    by_contra hle
    rw [Nat.testBit_lt_two_pow (h.trans_le (Nat.pow_le_pow_right (by omega) (Nat.le_of_not_lt hle)))] at hi
    cases hi
  rw [bitCount, ones_eq_filter below]
  exact (List.length_filter_le _ _).trans List.length_range.le

section

variable {width : Nat} {shares : List RegisterSet} {frontier : Frontier}

/-- No more registers are blocked than there are. -/
theorem mostWith_le (hshares : ∀ share ∈ shares, share.width ≤ width)
    (hfrontier : ∀ bits ∈ frontier, bits < 2 ^ width) : mostWith width shares frontier ≤ width := by
  rw [mostWith, Std.TreeSet.foldl_eq_foldl_toList]
  refine List.foldlRecOn (motive := fun most => most ≤ width) _ _ (Nat.zero_le _) ?_
  intro most hmost blocked hblocked
  refine List.foldlRecOn (motive := fun most => most ≤ width) _ _ hmost ?_
  intro most hmost x hx
  obtain ⟨share, hshare, rfl⟩ := List.mem_map.mp hx
  have hjoined := bitCount_le (Nat.or_lt_two_pow (hfrontier blocked (Std.TreeSet.mem_toList.mp hblocked))
    (RegisterSet.bits_lt (hshares share hshare)))
  simp only
  split
  · exact hmost
  · exact max_le hmost hjoined

/-- Before the first pick nothing is blocked. -/
theorem lt_of_mem_noneBlocked (width : Nat) :
    ∀ bits ∈ (Std.TreeSet.insert ∅ 0 : Frontier), bits < 2 ^ width := by
  intro bits hbits
  rcases Std.TreeSet.mem_insert.mp hbits with heq | hbits
  · rw [Nat.compare_eq_eq] at heq
    exact heq ▸ Nat.two_pow_pos width
  · exact absurd hbits Std.TreeSet.not_mem_emptyc

/-- One pick more blocks no registers that are not there. -/
theorem lt_of_mem_widen (hshares : ∀ share ∈ shares, share.width ≤ width)
    (hfrontier : ∀ bits ∈ frontier, bits < 2 ^ width) : ∀ bits ∈ widen shares frontier, bits < 2 ^ width := by
  rw [widen, Std.TreeSet.foldl_eq_foldl_toList]
  refine List.foldlRecOn (motive := fun next : Frontier => ∀ bits ∈ next, bits < 2 ^ width) _ _ ?_ ?_
  · intro bits hbits
    exact absurd hbits Std.TreeSet.not_mem_emptyc
  · intro next hnext blocked hblocked
    refine List.foldlRecOn (motive := fun next : Frontier => ∀ bits ∈ next, bits < 2 ^ width) _ _ hnext ?_
    intro next hnext x hx bits hbits
    obtain ⟨share, hshare, rfl⟩ := List.mem_map.mp hx
    rw [Frontier.add] at hbits
    split at hbits
    · exact hnext bits hbits
    · rcases Std.TreeSet.mem_insert.mp hbits with heq | hbits
      · rw [Nat.compare_eq_eq] at heq
        rw [← heq]
        exact Nat.or_lt_two_pow (hfrontier blocked (Std.TreeSet.mem_toList.mp hblocked))
          (RegisterSet.bits_lt (hshares share hshare))
      · exact hnext bits hbits

end

/-! ## The table of what registers block -/

namespace Checked

/-- The sum of the `picks` largest sizes, but at most `reachable`. -/
def greedyBound (sizes : List Nat) (reachable picks : Nat) : Option Nat := do
  return min (← sum32 (sizes.take picks)) reachable

/-- The values of a row from a number of picks on. -/
def followFrontier (width : Nat) (shares : List RegisterSet) (reachable : Nat) :
    (remaining picks : Nat) → Frontier → Option CoverageRow
  | 0, _, _ => some ⟨[], none⟩
  | remaining + 1, picks, frontier => do
    let best ← word32 (mostWith width shares frontier)
    if best = reachable then
      return ⟨List.replicate (remaining + 1) reachable, none⟩
    else if exactLimit < (widen shares frontier).size then
      let sizes ← shares.mapM fun share => word32 share.card
      let later ← (List.range remaining).mapM fun k =>
        greedyBound (sortBy (fun a b => b < a) sizes) reachable (picks + 1 + k)
      return ⟨best :: later, some picks⟩
    else
      let row ← followFrontier width shares reachable remaining (picks + 1) (widen shares frontier)
      return ⟨best :: row.values, row.cutoff⟩

/-- For classes `n` and `c`, how many registers of `n` registers of `c` can block. -/
def coverageOf (registers : Array Register) (n c : RegisterClass) : Option CoverageRow := do
  let shares ← c.members.toList.mapM fun r => do return (← registers[r]?).aliases.inter n.members
  let reachable ← word32 (n.members.inter c.aliases).card
  let row ← followFrontier registers.size shares reachable shares.length 1 (Std.TreeSet.insert ∅ 0)
  return ⟨0 :: row.values, row.cutoff⟩

/-- For all classes `n` and `c`, how many registers of `n` registers of `c` can block. -/
def coverage (m : Machine) : Option (Array (Array CoverageRow)) := do
  let rows ← m.classes.toList.mapM fun n => do
    return (← m.classes.toList.mapM fun c => coverageOf m.registers n c).toArray
  return rows.toArray

section

variable {width reachable : Nat} {shares : List RegisterSet}

/-- The sum of some of the sizes fits, when there are fewer than `2 ^ 16` and each is below `2 ^ 16`. -/
theorem greedyBound_eq_some {sizes : List Nat} (hlength : sizes.length < 2 ^ 16)
    (hsizes : ∀ size ∈ sizes, size < 2 ^ 16) (reachable picks : Nat) :
    greedyBound sizes reachable picks = some (RegisterColoring.greedyBound sizes reachable picks) := by
  -- `2 ^ 16 - 1` sizes of at most `2 ^ 16 - 1` add up to less than `2 ^ 32`
  have hsum : (sizes.take picks).sum ≤ (sizes.take picks).length * (2 ^ 16 - 1) := by
    refine List.sum_le_card_nsmul _ _ fun size hsize => ?_
    have := hsizes size (List.mem_of_mem_take hsize)
    omega
  have hcount := List.length_take_le' picks sizes
  rw [greedyBound, sum32_eq_some (by omega)]
  rfl

/-- The rows can be computed for registers fewer than `2 ^ 16`. -/
theorem followFrontier_eq_some (hwidth : width < 2 ^ 16) (hlength : shares.length < 2 ^ 16)
    (hshares : ∀ share ∈ shares, share.width ≤ width ∧ share.card < 2 ^ 16) (remaining picks : Nat)
    {frontier : Frontier} (hfrontier : ∀ bits ∈ frontier, bits < 2 ^ width) :
    followFrontier width shares reachable remaining picks frontier =
      some (RegisterColoring.followFrontier width shares reachable remaining picks frontier) := by
  induction remaining generalizing picks frontier with
  | zero => rfl
  | succ remaining ih =>
    -- what is counted are digits of numbers as wide as the machine has registers
    have hmost := mostWith_le (fun share hshare => (hshares share hshare).1) hfrontier
    have hsizes : shares.mapM (fun share => word32 share.card) = some (shares.map RegisterSet.card) :=
      mapM_eq_some fun share hshare => word32_eq_some (by have := (hshares share hshare).2; omega)
    have hlater : (List.range remaining).mapM (fun k => greedyBound (sortBy (fun a b => b < a)
        (shares.map RegisterSet.card)) reachable (picks + 1 + k)) =
          some ((List.range remaining).map fun k => RegisterColoring.greedyBound
            (sortBy (fun a b => b < a) (shares.map RegisterSet.card)) reachable (picks + 1 + k)) := by
      refine mapM_eq_some fun k _ => greedyBound_eq_some (by simpa using hlength) (fun size hsize => ?_) _ _
      obtain ⟨share, hshare, rfl⟩ := List.mem_map.mp (mem_sortBy.mp hsize)
      exact (hshares share hshare).2
    have hrow := ih (picks + 1)
      (lt_of_mem_widen (fun share hshare => (hshares share hshare).1) hfrontier)
    rw [followFrontier, RegisterColoring.followFrontier, word32_eq_some (by omega)]
    simp only [Option.bind_eq_bind, Option.bind_some, Option.pure_def, hsizes, hlater, hrow]
    split
    · rfl
    · split <;> rfl

end

variable {m : Machine} {c n : ClassId} {r : RegisterId} {v : VertexId}

/-- The row of two classes can be computed. -/
theorem coverageOf_eq_some (hm : m.Sized) (hn : n < m.classCount) (hc : c < m.classCount) :
    coverageOf m.registers (m.classAt n) (m.classAt c) =
      some (RegisterColoring.coverageOf m.registers (m.classAt n) (m.classAt c)) := by
  have hshares : (m.members c).toList.mapM (fun r => do
      return (← m.registers[r]?).aliases.inter (m.members n)) =
        some ((m.members c).toList.map fun r => (m.aliases r).inter (m.members n)) := by
    refine mapM_eq_some fun r hr => ?_
    have hr := hm.lt_of_mem_members c r (RegisterSet.mem_toList.mp hr)
    rw [getElem?_eq_some_getD hr default]
    rfl
  have hwidths : ∀ share ∈ (m.members c).toList.map (fun r => (m.aliases r).inter (m.members n)),
      share.width ≤ m.registerCount ∧ share.card < 2 ^ 16 := by
    intro share hshare
    obtain ⟨r, hr, rfl⟩ := List.mem_map.mp hshare
    have hr := hm.lt_of_mem_members c r (RegisterSet.mem_toList.mp hr)
    have hwidth : ((m.aliases r).inter (m.members n)).width ≤ m.registerCount :=
      (hm.width_aliases r hr).le
    exact ⟨hwidth, hm.card_lt hwidth⟩
  have hreachable : ((m.members n).inter (m.classAt c).aliases).card < 2 ^ 16 :=
    hm.card_lt (by rw [RegisterSet.width_inter]; exact (hm.width_class n hn).1.le)
  unfold coverageOf
  rw [show (m.classAt c).members = m.members c from rfl, show (m.classAt n).members = m.members n from rfl,
    hshares, word32_eq_some (by omega)]
  simp only [Option.bind_eq_bind, Option.bind_some]
  rw [show m.registers.size = m.registerCount from rfl, followFrontier_eq_some hm.registerCount_lt
    (by rw [List.length_map]; exact hm.capacity_lt hc) hwidths _ 1 (lt_of_mem_noneBlocked _)]
  rfl

/-- The table of what registers block can be computed. -/
theorem coverage_eq_some (hm : m.Sized) : coverage m = some m.coverage := by
  have hrows : m.classes.toList.mapM (fun n => do
      return (← m.classes.toList.mapM fun c => coverageOf m.registers n c).toArray) =
        some (m.classes.toList.map fun n =>
          (m.classes.toList.map fun c => RegisterColoring.coverageOf m.registers n c).toArray) := by
    refine mapM_eq_some fun k hk => ?_
    obtain ⟨n, hn, rfl⟩ := Machine.mem_classes_iff.mp hk
    rw [mapM_eq_some fun l hl => by
      obtain ⟨c, hc, rfl⟩ := Machine.mem_classes_iff.mp hl
      exact coverageOf_eq_some hm hn hc]
    rfl
  rw [coverage, hrows, hm.coverage_eq]
  rfl

/-! ## Tables -/

section

variable {α β γ : Type} {f : α → β → γ} {a : α} {b : β} {i j : Nat}

/-- The values of `f` at every row and column, one row after the other. -/
def grid (rows : List α) (columns : List β) (f : α → β → γ) : Array γ :=
  (rows.flatMap fun a => columns.map (f a)).toArray

/-- The value of the row at `i` and the column at `j` stands as many rows in as `i` says, and then `j` places. -/
theorem getElem?_grid {rows : List α} {columns : List β} (ha : rows[i]? = some a) (hb : columns[j]? = some b) :
    (grid rows columns f)[i * columns.length + j]? = some (f a b) := by
  rw [grid, List.getElem?_toArray]
  induction rows generalizing i with
  | nil => simp at ha
  | cons head rows ih =>
    rw [List.flatMap_cons]
    cases i with
    | zero =>
      obtain rfl : head = a := by simpa using ha
      have hj : j < (columns.map (f head)).length := by
        rw [List.length_map]
        exact (List.getElem?_eq_some_iff.mp hb).1
      rw [Nat.zero_mul, Nat.zero_add, List.getElem?_append_left hj, List.getElem?_map, hb]
      rfl
    | succ i =>
      -- the first row is skipped
      have hplace : (i + 1) * columns.length + j - (columns.map (f head)).length = i * columns.length + j := by
        rw [List.length_map, Nat.succ_mul]
        omega
      rw [List.getElem?_append_right (by rw [List.length_map, Nat.succ_mul]; omega), hplace]
      exact ih (by simpa using ha)

end

/-- What the registers of every class can block of every class. -/
def coverages (m : Machine) : Array CoverageRow :=
  grid m.classes.toList m.classes.toList (RegisterColoring.coverageOf m.registers)

/-- How many registers of every class lie in the set of every vertex, in words of 32 bits. -/
def ceilings (m : Machine) : Array Nat :=
  grid m.classes.toList m.forest.vertices.toList fun n v => (n.members.inter v.set).card % 2 ^ 32

/-- For every two classes, the largest class inside both, the first on ties. -/
def sharedClasses (m : Machine) : Array (Option ClassId) :=
  grid m.classes.toList m.classes.toList fun a b =>
    (leastBy? (fun c d => d.1.capacity < c.1.capacity)
      (m.classes.toList.zipIdx.filter fun c =>
        c.1.members.isSubset a.members && c.1.members.isSubset b.members)).map Prod.snd

/-! ## Look-ups -/

/-- The class at a position. -/
def classAt (m : Machine) (c : ClassId) : Option RegisterClass :=
  m.classes[c]?

/-- The registers that share storage with `r`, itself included. -/
def aliases (m : Machine) (r : RegisterId) : Option RegisterSet := do
  return (← m.registers[r]?).aliases

/-- The vertex at a position. -/
def vertexAt (m : Machine) (v : VertexId) : Option Vertex :=
  m.forest.vertices[v]?

/-- The vertex of a class. -/
def vertexOf (m : Machine) (c : ClassId) : Option VertexId :=
  m.forest.classVertex[c]?

/-- The most registers of class `n` that `picks` registers of class `c` can block. -/
def mostBlocked (m : Machine) (n c : ClassId) (picks : Nat) : Option Nat := do
  let row ← (coverages m)[n * m.classCount + c]?
  row.values[min picks (row.values.length - 1)]?

/-- How many registers of class `n` lie in the set of vertex `v`. -/
def ceiling (m : Machine) (n : ClassId) (v : VertexId) : Option Nat :=
  (ceilings m)[n * m.forest.size + v]?

/-- The largest class inside both `a` and `b`. -/
def largestWithin (m : Machine) (a b : ClassId) : Option (Option ClassId) :=
  (sharedClasses m)[a * m.classCount + b]?

/-- The registers that share storage with one of `rs`. -/
def aliasesOfAll (m : Machine) (rs : List RegisterId) : Option RegisterSet :=
  rs.foldlM (fun found r => do union found (← aliases m r)) (.empty m.registerCount)

/-- There is a class at every position below the number of classes. -/
theorem classAt_eq_some (hc : c < m.classCount) : classAt m c = some (m.classAt c) :=
  getElem?_eq_some_getD hc default

/-- So it is in the list of the classes. -/
theorem getElem?_classes (hc : c < m.classCount) : m.classes.toList[c]? = some (m.classAt c) := by
  rw [Array.getElem?_toList]
  exact classAt_eq_some hc

/-- Every register has its set of registers that share storage with it. -/
theorem aliases_eq_some (hr : r < m.registerCount) : aliases m r = some (m.aliases r) := by
  rw [aliases, getElem?_eq_some_getD hr default]
  rfl

/-- There is a vertex at every position below the number of vertices. -/
theorem vertexAt_eq_some (hv : v < m.forest.size) : vertexAt m v = some (m.forest.vertex v) :=
  getElem?_eq_some_getD hv default

/-- Every class has a vertex. -/
theorem vertexOf_eq_some (hm : m.Consistent) (hc : c < m.classCount) :
    vertexOf m c = some (m.vertexOf c) := by
  have hsize : m.forest.classVertex.size = m.classCount := by
    rw [hm.forest_eq]
    simp [ClassForest.ofSets, Machine.classCount]
  exact getElem?_eq_some_getD (hsize ▸ hc) 0

/-- The look-up of what one register blocks finds a value, which is below `2 ^ 16`. -/
theorem mostBlocked_eq_some (hm : m.Sized) (hn : n < m.classCount) (hc : c < m.classCount) :
    mostBlocked m n c 1 = some (m.mostBlocked n c 1) ∧ m.mostBlocked n c 1 < 2 ^ 16 := by
  have hrow : (coverages m)[n * m.classCount + c]? = some (m.coverageRow n c) := by
    rw [hm.coverageRow_eq n c hn hc]
    exact getElem?_grid (getElem?_classes hn) (getElem?_classes hc)
  constructor
  · rw [mostBlocked, hrow, Machine.mostBlocked, hm.coverageRow_eq n c hn hc]
    simp only [Option.bind_eq_bind, Option.bind_some]
    rw [CoverageRow.get, List.getD_eq_getElem?_getD, List.getElem?_eq_getElem]
    · rfl
    · exact (Nat.min_le_right _ _).trans_lt (Nat.lt_succ_self _)
  · rw [Machine.mostBlocked, hm.coverageRow_eq n c hn hc, RegisterColoring.coverageOf]
    refine Nat.lt_of_le_of_lt ?_ hm.registerCount_lt
    by_cases hnil : (m.classAt c).members.toList = []
    · rw [hnil]
      exact Nat.zero_le _
    · rw [get_one_ofShares (mt List.map_eq_nil_iff.mp hnil)]
      refine mostWith_le (fun share hshare => ?_) (lt_of_mem_noneBlocked _)
      obtain ⟨r, hr, rfl⟩ := List.mem_map.mp hshare
      exact (hm.width_aliases r (hm.lt_of_mem_members c r (RegisterSet.mem_toList.mp hr))).le

/-- The table of ceilings holds, for a class and a vertex, how many registers of the class lie in the vertex. -/
theorem ceiling_eq_some (hm : m.Sized) (hn : n < m.classCount) (hv : v < m.forest.size) :
    ceiling m n v = some (m.ceiling n v) := by
  have hvertex : m.forest.vertices.toList[v]? = some (m.forest.vertex v) := by
    rw [Array.getElem?_toList]
    exact vertexAt_eq_some hv
  have hfits : m.ceiling n v % 2 ^ 32 = m.ceiling n v :=
    Nat.mod_eq_of_lt ((hm.ceiling_lt hn v).trans (by decide))
  rw [← hfits]
  exact getElem?_grid (getElem?_classes hn) hvertex

/-- The classes with their positions. -/
theorem zipIdx_classes : m.classes.toList.zipIdx = m.classIds.map fun c => (m.classAt c, c) := by
  refine List.ext_getElem? fun c => ?_
  rw [List.getElem?_zipIdx, List.getElem?_map, Machine.classIds]
  by_cases hc : c < m.classCount
  · simp [getElem?_classes hc, List.getElem?_range hc]
  · have hbeyond : m.classes.toList[c]? = none := by
      rw [Array.getElem?_toList]
      exact Array.getElem?_eq_none (not_lt.mp hc)
    have hbeyond' : (List.range m.classCount)[c]? = none :=
      List.getElem?_eq_none (by rw [List.length_range]; exact not_lt.mp hc)
    simp [hbeyond, hbeyond']

/-- The table of shared classes holds, for two classes, the largest class inside both. -/
theorem largestWithin_eq_some {a b : ClassId} (ha : a < m.classCount) (hb : b < m.classCount) :
    largestWithin m a b = some (m.largestWithin? a b) := by
  refine (getElem?_grid (getElem?_classes ha) (getElem?_classes hb)).trans (congrArg some ?_)
  rw [zipIdx_classes, List.filter_map, leastBy?_map fun _ _ => rfl, Option.map_map]
  exact Option.map_id'

/-- The registers that share storage with registers of the machine can be collected. -/
theorem aliasesOfAll_eq_some (hm : m.Consistent) {rs : List RegisterId}
    (h : ∀ r ∈ rs, r < m.registerCount) : aliasesOfAll m rs = some (m.aliasesOfAll rs) := by
  refine (foldlM_eq_some (fun found => found.width = m.registerCount) rfl ?_).1
  intro found hwidth r hr
  rw [aliases_eq_some (h r hr)]
  refine ⟨union_eq_some ?_, hwidth⟩
  rw [hm.width_aliases r (h r hr), hwidth]

end Checked

end RegisterColoring
