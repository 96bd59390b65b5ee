import RegisterColoring.Proofs.Checked.Separation
import RegisterColoring.Proofs.Interference

/-! # Checked groups and interference

The uses of a program that was accepted are there, ask for classes of the machine and for numbers of registers
that fit a word, so their groups can be formed. The two groups of an edge differ and are there, so its bit can
be set.

* `Program.Sized`, `Groups.Sized`: what is known of an accepted program and of its groups.
* `Checked.formGroups_eq_some`: the groups of a partition can be formed.
* `Checked.graphOf_eq_some`: the interference of groups can be found. -/

namespace RegisterColoring

/-- What is known of an accepted program, and kept while registers are allocated. -/
structure Program.Sized (m : Machine) (p : Program) : Prop where
  /-- Linkages join uses of the program. -/
  ends : p.EndsInRange
  /-- Uses ask for classes of the machine. -/
  asks : p.AsksWithin m
  /-- Uses are in functions of the program. -/
  function_lt : ∀ use ∈ p.uses, use.function < p.functions.size
  /-- The number of registers that a use needs fits a word. -/
  registers_lt : ∀ use ∈ p.uses, use.registers < 2 ^ 32
  /-- The uses are few enough for the sums of what they need to fit a double word. -/
  uses_lt : p.uses.size < 2 ^ 15
  /-- The linkages are few enough to be counted in a word. -/
  linkages_lt : p.linkages.size < 2 ^ 31

/-- What is known of the groups of an accepted program. -/
structure Groups.Sized (m : Machine) (p : Program) (groups : Groups) : Prop extends groups.Formed m p where
  /-- The table of the groups of uses has all uses. -/
  size_ofUses : groups.ofUses.size = p.uses.size
  /-- There are no more groups than uses. -/
  size_lt : groups.size < 2 ^ 15
  /-- Groups have classes of the machine. -/
  class_lt : ∀ g, g < groups.size → (groups.get g).classId < m.classCount
  /-- The number of registers that a group needs fits a word. -/
  registers_lt : ∀ g, g < groups.size → (groups.get g).registers < 2 ^ 32

namespace Checked

variable {m : Machine} {p : Program}

/-! ## Groups -/

/-- Narrow a class by each of the others in turn to the largest class inside both, while there is one. -/
def narrow (m : Machine) (c : ClassId) : List ClassId → Option (Option ClassId)
  | [] => some (some c)
  | d :: others => do
    match ← largestWithin m c d with
    | some e => narrow m e others
    | none => return none

/-- The group of some uses, or why they are none; `id` is its position. -/
def formGroup (m : Machine) (p : Program) (id : GroupId) (members : List UseId) :
    Option (Except GroupDefect Group) := do
  let uses ← members.mapM p.use?
  let counts := (uses.map Use.registers).eraseDups
  match uses.filterMap Use.class? with
  | [] => return .error (if counts.length > 1 then .unequalCounts id counts else .noClass id)
  | c :: others =>
    match ← narrow m c others with
    | none =>
      let classes ← (c :: others).mapM (classAt m)
      return .error (.noSharedClass id (Group.squeeze (classes.map RegisterClass.name)))
    | some e =>
      if counts.length > 1 then
        return .error (.unequalCounts id counts)
      else
        let _ ← classAt m e
        return .ok ⟨members, e, ← counts.head?⟩

/-- The groups of the sets of a partition, or the first defect among them. -/
def formGroups (m : Machine) (p : Program) (partition : Partition) :
    Option (Except GroupDefect Groups) := do
  let formed ← partition.sets.zipIdx.mapM fun (members, id) => formGroup m p id members
  let table ← setTable p.uses.size partition
  return do
    let groups ← formed.mapM id
    return ⟨groups.toArray, table⟩

/-- A class can be narrowed by classes of the machine. -/
theorem narrow_eq_some {c : ClassId} {others : List ClassId} (h : ∀ d ∈ c :: others, d < m.classCount) :
    narrow m c others = some (Group.narrow m c others) := by
  induction others generalizing c with
  | nil => rfl
  | cons d others ih =>
    obtain ⟨hc, hd, hothers⟩ : c < m.classCount ∧ d < m.classCount ∧ ∀ e ∈ others, e < m.classCount := by
      simpa using h
    rw [narrow, Group.narrow, List.foldlM_cons, largestWithin_eq_some hc hd, Option.bind_eq_bind,
      Option.bind_some]
    cases hlargest : m.largestWithin? c d with
    | none => rfl
    | some e =>
      have he : e < m.classCount := List.mem_range.mp (List.mem_of_mem_filter (leastBy?_mem hlargest))
      exact ih (List.forall_mem_cons.mpr ⟨he, hothers⟩)

/-- Uses that are there can be looked up. -/
theorem isSome_use? {u : UseId} (h : u < p.uses.size) : (p.use? u).isSome = true := by
  rw [Program.use?, Array.getElem?_eq_getElem h]
  rfl

/-- Some uses that are there need some number of registers. -/
theorem requestedCounts_ne_nil {members : List UseId} (hne : members ≠ [])
    (h : ∀ u ∈ members, u < p.uses.size) : Group.requestedCounts p members ≠ [] := by
  obtain ⟨u, hu⟩ := List.exists_mem_of_ne_nil members hne
  obtain ⟨use, huse⟩ := Option.isSome_iff_exists.mp (isSome_use? (h u hu))
  refine List.ne_nil_of_mem (a := use.registers) ?_
  rw [Group.requestedCounts, List.mem_eraseDups, List.mem_filterMap]
  exact ⟨u, hu, by rw [huse]; rfl⟩

/-- The group of some uses that are there can be formed. -/
theorem formGroup_eq_some (hasks : p.AsksWithin m) {members : List UseId} (hne : members ≠ [])
    (h : ∀ u ∈ members, u < p.uses.size) (id : GroupId) :
    formGroup m p id members = some (Group.ofUses m p id members) := by
  have huses : members.mapM p.use? = some (members.filterMap p.use?) :=
    mapM_eq_some_filterMap fun u hu => isSome_use? (h u hu)
  have hclasses : (members.filterMap p.use?).filterMap Use.class? = Group.requestedClasses p members := by
    rw [List.filterMap_filterMap, Group.requestedClasses]
  have hcounts : ((members.filterMap p.use?).map Use.registers).eraseDups =
      Group.requestedCounts p members := by
    rw [List.map_filterMap, Group.requestedCounts]
  have hhead := head?_eq_some_headD (requestedCounts_ne_nil hne h) 0
  rw [formGroup, Group.ofUses, huses]
  simp only [Option.bind_eq_bind, Option.bind_some, hclasses, hcounts]
  cases hrequested : Group.requestedClasses p members with
  | nil =>
    by_cases hmany : (Group.requestedCounts p members).length > 1
    · simp only [if_pos hmany]
      rfl
    · simp only [if_neg hmany]
      rfl
  | cons c others =>
    have hwithin : ∀ d ∈ c :: others, d < m.classCount := fun d hd =>
      hasks.lt_of_mem_requestedClasses (hrequested ▸ hd)
    have hnames : (c :: others).mapM (classAt m) = some ((c :: others).map m.classAt) :=
      mapM_eq_some fun d hd => classAt_eq_some (hwithin d hd)
    simp only [narrow_eq_some hwithin, Option.bind_some]
    cases hnarrow : Group.narrow m c others with
    | none =>
      rw [hnames, Option.bind_some, List.map_map]
      rfl
    | some e =>
      have he := Group.lt_of_narrow hnarrow (hwithin c List.mem_cons_self)
      simp only [classAt_eq_some he, hhead, Option.bind_some]
      split <;> rfl

/-- The groups of a partition into uses that are there can be formed. -/
theorem formGroups_eq_some (hasks : p.AsksWithin m) {partition : Partition}
    (hne : ∀ set ∈ partition.sets, set ≠ []) (h : ∀ u ∈ partition.sets.flatten, u < p.uses.size) :
    formGroups m p partition = some (Groups.ofPartition m p partition) := by
  have hformed : partition.sets.zipIdx.mapM (fun (x : List UseId × Nat) => formGroup m p x.2 x.1) =
      some (partition.sets.zipIdx.map fun x => Group.ofUses m p x.2 x.1) := by
    refine mapM_eq_some fun x hx => ?_
    have hset := List.fst_mem_of_mem_zipIdx hx
    exact formGroup_eq_some hasks (hne _ hset) (fun u hu => h u (List.mem_flatten_of_mem hset hu)) x.2
  rw [formGroups, hformed, setTable_eq_some h, Groups.ofPartition]
  simp only [Option.bind_eq_bind, Option.bind_some, List.mapM_map]
  rfl

end Checked

/-- The groups of the joined sets of an accepted program. -/
theorem Groups.sized_of_ofPartition {m : Machine} {p : Program} (hp : p.Sized m) {part : Partition}
    (hpart : part.Joins p) {groups : Groups} (h : ofPartition m p part = .ok groups) :
    groups.Sized m p := by
  have hformed := formed_of_ofPartition hpart.sorted h
  have hsize := (ofUses_of_ofPartition h).1
  have hfirst : ∀ set ∈ part.sets, set.headD 0 < p.uses.size := by
    intro set hset
    cases set with
    | nil => exact absurd rfl (hpart.ne_nil hset)
    | cons u set => exact hpart.lt_of_mem hset List.mem_cons_self
  -- the first uses of the sets are ascending, so there are no more of them than uses
  have hlength : part.sets.length ≤ p.uses.size := by
    have hnodup : (part.sets.map fun set => set.headD 0).Nodup :=
      List.pairwise_map.mpr (hpart.normal.ordered.imp Nat.ne_of_lt)
    rw [← List.length_map (f := fun set : List UseId => set.headD 0)]
    exact Checked.length_le_of_nodup hnodup (List.forall_mem_map.mpr hfirst)
  refine { hformed with
    size_ofUses := ?_
    size_lt := by have := hp.uses_lt; omega
    class_lt := fun g hg => class_lt_of_ofPartition hp.asks h hg
    registers_lt := fun g hg => ?_ }
  · obtain ⟨found, -, h⟩ := bind_eq_ok.mp h
    cases h
    simp [Program.useIds]
  · obtain ⟨u, hu⟩ := List.exists_mem_of_ne_nil _ (hformed.members_ne_nil g hg)
    have hlt := (Program.mem_usesInPlay.mp (hformed.members_subset g hg u hu)).1
    rw [← (hformed.suits g hg).registers_eq u hu _ (Array.getElem?_eq_getElem hlt)]
    exact hp.registers_lt _ (Array.getElem_mem hlt)

namespace Checked

variable {m : Machine} {p : Program} {groups : Groups}

/-! ## Encounters -/

/-- The group that a use is in, if it is in one. -/
def groupOf (groups : Groups) (u : UseId) : Option (Option GroupId) :=
  groups.ofUses[u]?

/-- The uses that have a group and a position by their blocks, in each block in the order of their places. -/
def usesByBlock (p : Program) (groups : Groups) : Option (Std.TreeMap Nat (Array PlacedUse)) := do
  let placed ← filterMapM
    (fun u => do
      match (← p.use? u).position, ← groupOf groups u with
      | some position, some _ => return some (PlacedUse.mk u position)
      | _, _ => return none)
    p.useIds
  return (gatherBy compare (fun u : PlacedUse => u.position.block) id placed).map fun _ uses =>
    (sortBy PlacedUse.before uses.toList).toArray

/-- The span of a linkage, if both of its ends have positions in one block. -/
def span (p : Program) (l : Linkage) : Option (Option Span) := do
  match (← p.use? l.first).position, (← p.use? l.second).position with
  | some a, some b => return Span.between? a b
  | _, _ => return none

/-- Of the uses of a block, in the order of their places, those that lie in the span. They are the stretch between
two places that were searched for, of which the second must not come before the first or lie past the end. -/
def usesInside (s : Span) (uses : Array PlacedUse) : Option (List PlacedUse) :=
  let low := partitionPoint (fun u : PlacedUse => u.position.offset < s.start) uses
  let high := partitionPoint (fun u : PlacedUse => u.position.offset ≤ s.stop) uses
  if low ≤ high ∧ high ≤ uses.size then some (uses.extract low high).toList else none

/-- The encounters in the span of one linkage: the uses of other groups inside it, in order. -/
def encountersOf (p : Program) (groups : Groups) (blocks : Std.TreeMap Nat (Array PlacedUse)) (l : Linkage)
    (id : LinkageId) : Option (List Encounter) := do
  match ← span p l, ← groupOf groups l.first with
  | some s, some owner =>
    filterMapM
      (fun u => do
        match ← groupOf groups u.use with
        | some other =>
          return if other = owner then none else some ⟨min owner other, max owner other, ⟨id, u.use⟩⟩
        | none => return none)
      (← usesInside s (blocks.getD s.block #[]))
  | _, _ => return []

theorem groupOf_eq_some (hgroups : groups.Sized m p) {u : UseId} (hu : u < p.uses.size) :
    groupOf groups u = some (groups.ofUse? u) := by
  rw [← hgroups.size_ofUses] at hu
  exact getElem?_eq_some_getD hu none

/-- The uses that have a place can be found. -/
theorem usesByBlock_eq_some (hgroups : groups.Sized m p) :
    usesByBlock p groups = some (RegisterColoring.usesByBlock p groups) := by
  rw [usesByBlock, RegisterColoring.usesByBlock, placedUses, filterMapM_eq_some]
  · rfl
  · intro u hu
    have hlt : u < p.uses.size := List.mem_range.mp hu
    rw [groupOf_eq_some hgroups hlt, Program.position?, Program.use?, Array.getElem?_eq_getElem hlt]
    simp only [Option.bind_eq_bind, Option.bind_some]
    cases p.uses[u].position <;> cases groups.ofUse? u <;> rfl

/-- The span of a linkage between uses that are there can be found. -/
theorem span_eq_some {l : Linkage} (hfirst : l.first < p.uses.size) (hsecond : l.second < p.uses.size) :
    span p l = some (p.span? l) := by
  rw [span, Program.span?, Program.position?, Program.position?, Program.use?, Program.use?,
    Array.getElem?_eq_getElem hfirst, Array.getElem?_eq_getElem hsecond]
  simp only [Option.bind_eq_bind, Option.bind_some]
  cases p.uses[l.first].position <;> cases p.uses[l.second].position <;> rfl

/-- The two places that are searched for are in order and in the block. -/
theorem usesInside_eq_some {s : Span} (hs : s.start ≤ s.stop) {uses : Array PlacedUse}
    (h : uses.toList.Pairwise fun u v => u.position.offset ≤ v.position.offset) :
    usesInside s uses = some (s.usesInside uses) := by
  have low : Partitioned (fun u : PlacedUse => decide (u.position.offset < s.start)) uses.toList :=
    h.imp fun huv => by simp only [decide_eq_true_eq]; omega
  have high : Partitioned (fun u : PlacedUse => decide (u.position.offset ≤ s.stop)) uses.toList :=
    h.imp fun huv => by simp only [decide_eq_true_eq]; omega
  refine if_pos ⟨?_, ?_⟩
  · rw [partitionPoint_eq low, partitionPoint_eq high, low.takeWhile_eq_filter, high.takeWhile_eq_filter,
      ← List.countP_eq_length_filter, ← List.countP_eq_length_filter]
    refine List.countP_mono_left fun u _ hu => ?_
    simp only [decide_eq_true_eq] at hu ⊢
    omega
  · rw [partitionPoint_eq high]
    exact (List.takeWhile_prefix _).length_le

/-- The encounters in the span of a linkage between uses that are there can be found. -/
theorem encountersOf_eq_some (hgroups : groups.Sized m p) {l : Linkage} (hfirst : l.first < p.uses.size)
    (hsecond : l.second < p.uses.size) (id : LinkageId) :
    encountersOf p groups (RegisterColoring.usesByBlock p groups) l id =
      some (RegisterColoring.encountersOf p groups (RegisterColoring.usesByBlock p groups) l id) := by
  rw [encountersOf, RegisterColoring.encountersOf, span_eq_some hfirst hsecond,
    groupOf_eq_some hgroups hfirst]
  simp only [Option.bind_eq_bind, Option.bind_some]
  cases hspan : p.span? l with
  | none => rfl
  | some s =>
    cases groups.ofUse? l.first with
    | none => rfl
    | some owner =>
      simp only [usesInside_eq_some (start_le_stop hspan) (pairwise_usesByBlock p groups s.block),
        Option.bind_some]
      refine filterMapM_eq_some fun u hu => ?_
      have hlt : u.use < p.uses.size := by
        obtain ⟨use, huse, -⟩ := Option.bind_eq_some_iff.mp ((mem_usesInside hspan).mp hu).1
        exact (Array.getElem?_eq_some_iff.mp huse).1
      rw [groupOf_eq_some hgroups hlt, Option.bind_some]
      cases groups.ofUse? u.use <;> rfl

/-! ## The graph -/

/-- The interference of some groups of a program. -/
def graphOf (p : Program) (groups : Groups) : Option Interference := do
  let blocks ← usesByBlock p groups
  let found ← p.activeLinkages.mapM fun (l, id) => encountersOf p groups blocks l id
  let matrix ← PairMatrix.ofSize? groups.size
  let graph ← (edgesOf found.flatten).foldlM Interference.addEdge?
    { Interference.edgeless groups.size with matrix }
  return graph.sortNeighbors

/-- Edges between groups that are there can be added. -/
theorem addEdges_eq_some {n : Nat} {edges : List Edge}
    (h : ∀ e ∈ edges, e.first < e.second ∧ e.second < n) :
    edges.foldlM Interference.addEdge? (.edgeless n) =
      some (edges.foldl Interference.addEdge (.edgeless n)) := by
  refine (foldlM_eq_some (fun graph => graph.matrix.size = n ∧ graph.adjacency.size = n)
    ⟨rfl, Array.size_replicate⟩ fun graph hsize e he => ?_).1
  have added := Interference.addEdge?_eq_some hsize.1 hsize.2 (h e he).1 (h e he).2
  rw [Interference.addEdge, added]
  exact ⟨rfl, hsize.1, by simpa using hsize.2⟩

/-- The groups of an encounter are there. -/
theorem lt_of_mem_encounters (hgroups : groups.Formed m p) {c : Encounter} (hc : c ∈ encounters p groups) :
    c.first < groups.size ∧ c.second < groups.size := by
  obtain ⟨l, -, owner, -, other, -, -, howner, -, -, hother, -, hfirst, hsecond⟩ := mem_encounters_iff.mp hc
  have howner := (hgroups.mem_members _ _ howner).1
  have hother := (hgroups.mem_members _ _ hother).1
  rw [hfirst, hsecond]
  exact ⟨min_lt_of_left_lt howner, max_lt howner hother⟩

/-- The edges are between groups that are there. -/
theorem lt_of_mem_edgesOf (hgroups : groups.Formed m p) {e : Edge} (he : e ∈ edgesOf (encounters p groups)) :
    e.first < e.second ∧ e.second < groups.size := by
  obtain ⟨c, hc, -, hsecond⟩ := encountersBetween_ne_nil.mp (mem_edgesOf.mp he).1
  exact ⟨Interference.first_lt_second_of_mem_edgesOf he, hsecond ▸ (lt_of_mem_encounters hgroups hc).2⟩

/-- The interference of the groups of an accepted program can be found. -/
theorem graphOf_eq_some (hends : p.EndsInRange) (hgroups : groups.Sized m p) :
    graphOf p groups = some (Interference.ofGroups p groups) := by
  have hfound : p.activeLinkages.mapM (fun (x : Linkage × LinkageId) =>
      encountersOf p groups (RegisterColoring.usesByBlock p groups) x.1 x.2) =
        some (p.activeLinkages.map fun x =>
          RegisterColoring.encountersOf p groups (RegisterColoring.usesByBlock p groups) x.1 x.2) := by
    refine mapM_eq_some fun x hx => ?_
    obtain ⟨hfirst, hsecond⟩ := Program.ends_lt_of_missingEnd? (Program.missingEnd?_eq_none hends) hx
    exact encountersOf_eq_some hgroups hfirst hsecond x.2
  have hflatten : (p.activeLinkages.map fun (x : Linkage × LinkageId) => RegisterColoring.encountersOf p groups
      (RegisterColoring.usesByBlock p groups) x.1 x.2).flatten = encounters p groups := by
    rw [← List.flatMap_def, encounters]
  have hsize : PairMatrix.ofSize? groups.size = some (.ofSize groups.size) := by
    obtain ⟨matrix, hmatrix⟩ := Option.isSome_iff_exists.mp
      (PairMatrix.isSome_ofSize?_iff.mpr (hgroups.size_lt.trans (by decide)))
    rw [hmatrix, PairMatrix.eq_ofSize_of_ofSize? hmatrix]
  have hadded := addEdges_eq_some fun e he => lt_of_mem_edgesOf hgroups.toFormed he
  rw [graphOf, usesByBlock_eq_some hgroups]
  simp only [Option.bind_eq_bind, Option.bind_some, hfound, hflatten, hsize]
  show ((edgesOf (encounters p groups)).foldlM Interference.addEdge? (.edgeless groups.size)).bind _ = _
  rw [hadded, Option.bind_some, Interference.ofGroups]
  rfl

end Checked

end RegisterColoring
