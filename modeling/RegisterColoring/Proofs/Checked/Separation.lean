import RegisterColoring.Proofs.Checked.Joining
import RegisterColoring.Proofs.Checked.Machine
import RegisterColoring.Proofs.Separation
import RegisterColoring.Proofs.Singles

/-! # Checked separation of conflicts

While a set of uses is divided, every colour that a use is given is there, the strengths of links add up to no
more than there are linkages, and no part is left empty.

* `Checked.divide_eq_some`: a set of uses can be divided.
* `Checked.conflictPairs_eq_some`: the conflicts of a set can be found.
* `Checked.separate_eq_some`: the conflicts of a program can be separated. -/

namespace RegisterColoring.Checked

open Division

/-! ## Colours -/

/-- How strongly `u` is linked to a part. -/
def strength (weight : UseId → UseId → Nat) (u : UseId) (part : List UseId) : Option Nat := do
  sum32 (← part.mapM fun v => word32 (weight u v))

/-- Every colour of `parts` with the strength of `u`'s links to it. -/
def offers (weight : UseId → UseId → Nat) (u : UseId) (parts : List (List UseId × Nat)) :
    Option (List (Nat × Nat)) :=
  parts.mapM fun (part, color) => do return (color, ← strength weight u part)

/-- Add a use to the part of a colour. -/
def pushAt (parts : List (List UseId)) (color : Nat) (u : UseId) : Option (List (List UseId)) :=
  if color < parts.length then some (parts.modify color (· ++ [u])) else none

/-- Give a use the colour it is most strongly linked to among those that are admissible, or a new one. -/
def colorOne (weight : UseId → UseId → Nat) (d : Dispute) (c : Draft) : Option Draft := do
  let admissible ← offers weight d.use (c.parts.zipIdx.filter fun (part, _) => admits d.others part)
  let peak := max c.peak (peakOf admissible)
  match leastBy? stronger admissible with
  | some (color, _) => return ⟨← pushAt c.parts color d.use, peak⟩
  | none => return ⟨c.parts ++ [[d.use]], peak⟩

/-- Colour the uses in the reverse of the order in which they were taken out. -/
def color (weight : UseId → UseId → Nat) : List Dispute → Option Draft
  | [] => some ⟨[], 0⟩
  | d :: order => do colorOne weight d (← color weight order)

/-- The colour that `u` is most strongly linked to. -/
def placement (weight : UseId → UseId → Nat) (parts : List (List UseId)) (u : UseId) :
    Option Placement := do
  match leastBy? stronger (← offers weight u parts.zipIdx) with
  | some (color, strength) => return ⟨u, color, strength⟩
  | none => return ⟨u, 0, 0⟩

/-- Give each use of `waiting` a colour, the use with the strongest link first. The steps have to last. -/
def place (weight : UseId → UseId → Nat) : Nat → List UseId → Draft → Option Draft
  | 0, [], c => some c
  | 0, _ :: _, _ => none
  | steps + 1, waiting, c => do
    let placements ← waiting.mapM (placement weight c.parts)
    match leastBy? (fun (a b : Placement) => b.strength < a.strength) placements with
    | none => return c
    | some p =>
      let parts ← pushAt c.parts p.color p.use
      let peak := placements.foldl (fun peak p => max peak p.strength) c.peak
      place weight steps (waiting.erase p.use) ⟨parts, peak⟩

/-- Divide `members` so that no part holds both uses of a conflict. Every part has a first use to be ordered
by. -/
def divide (members : List UseId) (conflicts : List (UseId × UseId)) (weight : UseId → UseId → Nat) :
    Option Division := do
  let colored ← color weight (eliminationOrder (disputes conflicts).length (disputes conflicts))
  let waiting := unconflicted members (conflicted conflicts)
  let placed ← place weight waiting.length waiting (openedFor waiting colored)
  let _ ← placed.parts.mapM List.head?
  return ⟨(← ofSets placed.parts).sets, placed.peak⟩

section

variable {weight : UseId → UseId → Nat}

theorem strength_eq_some {u : UseId} {part : List UseId} (h : Division.strength weight u part < 2 ^ 32) :
    strength weight u part = some (Division.strength weight u part) := by
  have hweights : part.mapM (fun v => word32 (weight u v)) = some (part.map (weight u)) := by
    refine mapM_eq_some fun v hv => word32_eq_some (Nat.lt_of_le_of_lt ?_ h)
    exact List.single_le_sum (fun _ _ => Nat.zero_le _) _ (List.mem_map_of_mem hv)
  rw [strength, hweights]
  exact sum32_eq_some h

theorem offers_eq_some {u : UseId} {parts : List (List UseId × Nat)}
    (h : ∀ x ∈ parts, Division.strength weight u x.1 < 2 ^ 32) :
    offers weight u parts = some (Division.offers weight u parts) := by
  refine mapM_eq_some fun x hx => ?_
  simp only [strength_eq_some (h x hx)]
  rfl

theorem pushAt_eq_some {parts : List (List UseId)} {color : Nat} (h : color < parts.length) (u : UseId) :
    pushAt parts color u = some (parts.modify color (· ++ [u])) :=
  if_pos h

variable (hweight : ∀ u part, part.Nodup → Division.strength weight u part < 2 ^ 32)

include hweight

/-- A use can be coloured. -/
theorem colorOne_eq_some (d : Dispute) {c : Draft} (h : c.parts.flatten.Nodup) :
    colorOne weight d c = some (Division.colorOne weight d c) := by
  have hoffers : offers weight d.use (c.parts.zipIdx.filter fun x => admits d.others x.1) =
      some (Division.offers weight d.use (c.parts.zipIdx.filter fun x => admits d.others x.1)) :=
    offers_eq_some fun x hx =>
      hweight d.use x.1 (nodup_of_mem_parts h (List.fst_mem_of_mem_zipIdx (List.mem_of_mem_filter hx)))
  rw [colorOne, Division.colorOne, hoffers, Option.bind_eq_bind, Option.bind_some]
  cases hleast : leastBy? stronger (Division.offers weight d.use
      (c.parts.zipIdx.filter fun x => admits d.others x.1)) with
  | none => rfl
  | some offer =>
    -- what is offered are colours of parts that are there
    obtain ⟨part, hpart, -⟩ := exists_of_mem_offers (leastBy?_mem hleast)
    have hcolor := List.snd_lt_of_mem_zipIdx (List.mem_of_mem_filter hpart)
    simp only [pushAt_eq_some hcolor d.use]
    rfl

/-- All disputed uses can be coloured. -/
theorem color_eq_some {order : List Dispute} (h : (order.map Dispute.use).Nodup) :
    color weight order = some (Division.color weight order) := by
  induction order with
  | nil => rfl
  | cons d order ih =>
    have later := (List.nodup_cons.mp h).2
    rw [color, ih later, Option.bind_eq_bind, Option.bind_some]
    exact colorOne_eq_some hweight d ((perm_color weight order).nodup_iff.mpr later)

theorem placement_eq_some (u : UseId) {parts : List (List UseId)} (h : parts.flatten.Nodup) :
    placement weight parts u = some (Division.placement weight parts u) := by
  have hoffers : offers weight u parts.zipIdx = some (Division.offers weight u parts.zipIdx) :=
    offers_eq_some fun x hx =>
      hweight u x.1 (nodup_of_mem_parts h (List.fst_mem_of_mem_zipIdx hx))
  rw [placement, Division.placement, hoffers, Option.bind_eq_bind, Option.bind_some]
  cases leastBy? stronger (Division.offers weight u parts.zipIdx) <;> rfl

/-- All undisputed uses can be placed. -/
theorem place_eq_some {steps : Nat} {waiting : List UseId} {c : Draft}
    (hparts : waiting ≠ [] → c.parts ≠ []) (hsteps : waiting.length ≤ steps)
    (h : (waiting ++ c.parts.flatten).Nodup) :
    place weight steps waiting c = some (Division.place weight steps waiting c) := by
  induction steps generalizing waiting c with
  | zero =>
    obtain rfl := List.length_eq_zero_iff.mp (Nat.le_zero.mp hsteps)
    rfl
  | succ steps ih =>
    have hplacements : waiting.mapM (placement weight c.parts) =
        some (waiting.map (Division.placement weight c.parts)) :=
      mapM_eq_some fun u _ => placement_eq_some hweight u (List.nodup_append.mp h).2.1
    rw [place, Division.place, hplacements, Option.bind_eq_bind, Option.bind_some]
    cases hp : leastBy? (fun (a b : Placement) => decide (b.strength < a.strength))
        (waiting.map (Division.placement weight c.parts)) with
    | none => rfl
    | some p =>
      obtain ⟨u, hu, rfl⟩ := List.mem_map.mp (leastBy?_mem hp)
      obtain ⟨huse, hcolor, -⟩ := placement_spec weight c.parts u
      -- while a use waits there is a colour to give it
      have hne : c.parts ≠ [] := hparts (List.ne_nil_of_mem hu)
      simp only [pushAt_eq_some (hcolor hne), huse]
      refine ih (fun _ => ?_) ?_ ?_
      · rwa [ne_eq, List.modify_eq_nil_iff]
      · rw [List.length_erase_of_mem hu]
        omega
      · exact (perm_handOver hu (hcolor hne)).nodup_iff.mpr h

omit hweight

/-- Adding a use leaves no part empty that was not. -/
theorem ne_nil_of_mem_modify {parts : List (List UseId)} {color : Nat} {u : UseId}
    (h : ∀ part ∈ parts, part ≠ []) : ∀ part ∈ parts.modify color (· ++ [u]), part ≠ [] := by
  intro part hpart
  obtain ⟨i, hi⟩ := List.mem_iff_getElem?.mp hpart
  rw [List.getElem?_modify] at hi
  obtain ⟨old, hold, rfl⟩ := Option.map_eq_some_iff.mp hi
  split
  · exact List.append_ne_nil_of_right_ne_nil old (List.cons_ne_nil u [])
  · exact h old (List.mem_of_getElem? hold)

/-- No part of a colouring is empty. -/
theorem ne_nil_of_mem_color (weight : UseId → UseId → Nat) (order : List Dispute) :
    ∀ part ∈ (Division.color weight order).parts, part ≠ [] := by
  induction order with
  | nil => exact fun part hpart => absurd hpart List.not_mem_nil
  | cons d order ih =>
    rw [show Division.color weight (d :: order) = Division.colorOne weight d (Division.color weight order)
      from rfl, Division.colorOne]
    split
    · exact ne_nil_of_mem_modify ih
    · intro part hpart
      rcases List.mem_append.mp hpart with hpart | hpart
      · exact ih part hpart
      · rw [List.mem_singleton.mp hpart]
        exact List.cons_ne_nil _ _

/-- Once all uses are placed no part is empty: one that was opened empty is the only one, and is filled
first. -/
theorem ne_nil_of_mem_place {steps : Nat} {waiting : List UseId} {c : Draft}
    (h : (∀ part ∈ c.parts, part ≠ []) ∨ c.parts = [[]] ∧ waiting ≠ []) (hsteps : waiting.length ≤ steps) :
    ∀ part ∈ (Division.place weight steps waiting c).parts, part ≠ [] := by
  induction steps generalizing waiting c with
  | zero =>
    obtain rfl := List.length_eq_zero_iff.mp (Nat.le_zero.mp hsteps)
    exact h.resolve_right fun h => h.2 rfl
  | succ steps ih =>
    rw [Division.place]
    simp only
    split
    · rename_i hnone
      have hnil := List.map_eq_nil_iff.mp (leastBy?_eq_none_iff.mp hnone)
      exact h.resolve_right fun h => h.2 hnil
    · rename_i p hp
      obtain ⟨u, hu, rfl⟩ := List.mem_map.mp (leastBy?_mem hp)
      obtain ⟨huse, hcolor, -⟩ := placement_spec weight c.parts u
      rw [huse]
      refine ih (.inl ?_) ?_
      · rcases h with hall | ⟨hopened, -⟩
        · exact ne_nil_of_mem_modify hall
        · -- the only colour is the one that was opened
          have hzero : (Division.placement weight c.parts u).color = 0 := by
            have hlt := hcolor (by rw [hopened]; exact List.cons_ne_nil _ _)
            have hlength : c.parts.length = 1 := by rw [hopened]; rfl
            omega
          rw [hzero]
          simp only [hopened]
          simp
      · rw [List.length_erase_of_mem hu]
        omega

/-- A set of uses can be divided. -/
theorem divide_eq_some (hweight : ∀ u part, part.Nodup → Division.strength weight u part < 2 ^ 32)
    (members : List UseId) (conflicts : List (UseId × UseId)) :
    divide members conflicts weight = some (RegisterColoring.divide members conflicts weight) := by
  have hopened := openedFor_spec (unconflicted members (conflicted conflicts))
    (Division.color weight (eliminationOrder (disputes conflicts).length (disputes conflicts)))
  have hplaced := place_eq_some hweight hopened.2.2 (Nat.le_refl _)
    ((perm_opened weight members conflicts).nodup_iff.mpr (nodup_unconflicted_append members conflicts))
  have hfilled : ∀ part ∈ (Division.place weight (unconflicted members (conflicted conflicts)).length
      (unconflicted members (conflicted conflicts)) (openedFor (unconflicted members (conflicted conflicts))
        (Division.color weight (eliminationOrder (disputes conflicts).length (disputes conflicts))))).parts,
      part ≠ [] := by
    refine ne_nil_of_mem_place ?_ (Nat.le_refl _)
    rw [openedFor]
    split
    · rename_i hopen
      simp only [Bool.and_eq_true, Bool.not_eq_true', List.isEmpty_eq_false_iff] at hopen
      exact .inr ⟨rfl, hopen.2⟩
    · exact .inl (ne_nil_of_mem_color weight _)
  rw [divide, divide_eq, color_eq_some hweight (nodup_eliminationOrder conflicts).2]
  simp only [Option.bind_eq_bind, Option.bind_some, hplaced]
  rw [mapM_eq_some fun part hpart => head?_eq_some_headD (hfilled part hpart) 0, ofSets_eq_some]
  rfl

end

/-! ## Conflicts -/

/-- Whether two uses of the program cannot share registers. -/
def conflict (m : Machine) (p : Program) (a b : UseId) : Option Bool := do
  let x ← p.use? a
  let y ← p.use? b
  match x.class?, y.class? with
  | some c, some d => return (← largestWithin m c d).isNone || x.sharesSlot y
  | _, _ => return x.sharesSlot y

/-- The pairs of a use and a later one of the list that cannot share registers. -/
def conflictPairs (m : Machine) (p : Program) : List UseId → Option (List (UseId × UseId))
  | [] => some []
  | a :: rest => do
    let mine ← filterM (conflict m p a) rest
    return mine.map (fun b => (a, b)) ++ (← conflictPairs m p rest)

section

variable {m : Machine} {p : Program}

/-- Whether two uses conflict can be told when both are there. -/
theorem conflict_eq_some (hasks : p.AsksWithin m) {a b : UseId} (ha : a < p.uses.size)
    (hb : b < p.uses.size) : conflict m p a b = some (p.conflict m a b) := by
  have hx : p.use? a = some p.uses[a] := Array.getElem?_eq_getElem ha
  have hy : p.use? b = some p.uses[b] := Array.getElem?_eq_getElem hb
  rw [conflict, Program.conflict, hx, hy]
  simp only [Option.bind_eq_bind, Option.bind_some, Program.incompatible]
  cases hc : p.uses[a].class? with
  | none => rfl
  | some c =>
    cases hd : p.uses[b].class? with
    | none => rfl
    | some d =>
      have hlargest := largestWithin_eq_some (hasks _ (Array.getElem_mem ha) c hc)
        (hasks _ (Array.getElem_mem hb) d hd)
      simp only [hlargest]
      rfl

/-- The conflicts of uses that are there can be found. -/
theorem conflictPairs_eq_some (hasks : p.AsksWithin m) {members : List UseId}
    (h : ∀ u ∈ members, u < p.uses.size) :
    conflictPairs m p members = some (p.conflictPairs m members) := by
  induction members with
  | nil => rfl
  | cons a rest ih =>
    have ha := h a List.mem_cons_self
    have hrest : ∀ u ∈ rest, u < p.uses.size := fun u hu => h u (List.mem_cons_of_mem a hu)
    rw [conflictPairs, Program.conflictPairs, ih hrest,
      filterM_eq_some fun b hb => conflict_eq_some hasks ha (hrest b hb)]
    rfl

end

/-! ## Separation -/

/-- The set of each use out of `count`, written down set by set. -/
def setTable (count : Nat) (partition : Partition) : Option (Array (Option Nat)) := do
  allBelow count partition.sets.flatten
  return ((List.range count).map partition.indexOf?).toArray

/-- The active linkages whose ends are not in one set of the partition. -/
def crossing (p : Program) (partition : Partition) : Option (List LinkageId) := do
  let table ← setTable p.uses.size partition
  let found ← filterM (fun (l, _) => do return (← table[l.first]?) != (← table[l.second]?)) p.activeLinkages
  return found.map Prod.snd

/-- Split the given linkages for the current attempt. -/
def splitAll (p : Program) (ids : List LinkageId) : Option Program := do
  allBelow p.linkages.size ids
  return p.splitAll ids

/-- Divide a set of uses; without conflicts it stays one part. -/
def divideSet (m : Machine) (p : Program) (weight : UseId → UseId → Nat) (members : List UseId) :
    Option DividedSet := do
  let conflicts ← conflictPairs m p members
  if conflicts.isEmpty then
    return ⟨members, conflicts, ⟨[members], 0⟩⟩
  else
    return ⟨members, conflicts, ← divide members conflicts weight⟩

/-- Count the linkages between uses, divide every set that has conflicts, split the active linkages between
the parts, and join the uses anew by what is left active. -/
def separate (m : Machine) (p : Program) (partition : Partition) : Option Separation := do
  let weight := Program.linkCount p.linkedUses
  let _ ← p.activeLinkages.mapM fun (l, _) => word32 (weight l.first l.second)
  let divided ← partition.sets.mapM (divideSet m p weight)
  let sets ← ofSets (divided.flatMap fun d => d.division.parts)
  if divided.all fun d => d.conflicts.isEmpty then
    return ⟨divided, sets, p⟩
  else
    let q ← splitAll p (← crossing p sets)
    return ⟨divided, ← joinedSets q, q⟩

section

variable {m : Machine} {p : Program}

/-- The sets of uses that are there can be written down. -/
theorem setTable_eq_some {count : Nat} {partition : Partition}
    (h : ∀ u ∈ partition.sets.flatten, u < count) :
    setTable count partition = some ((List.range count).map partition.indexOf?).toArray := by
  rw [setTable, allBelow_eq_some h]
  rfl

/-- The linkages between sets can be found. -/
theorem crossing_eq_some (hends : p.EndsInRange) {partition : Partition}
    (h : ∀ u ∈ partition.sets.flatten, u < p.uses.size) :
    crossing p partition = some (p.crossing partition) := by
  have hlook : ∀ {u}, u < p.uses.size →
      ((List.range p.uses.size).map partition.indexOf?).toArray[u]? = some (partition.indexOf? u) := by
    intro u hu
    rw [List.getElem?_toArray, List.getElem?_map, List.getElem?_range hu]
    rfl
  have hfound : filterM (fun (x : Linkage × LinkageId) => do
      return (← ((List.range p.uses.size).map partition.indexOf?).toArray[x.1.first]?) !=
        (← ((List.range p.uses.size).map partition.indexOf?).toArray[x.1.second]?)) p.activeLinkages =
      some (p.activeLinkages.filter fun x =>
        partition.indexOf? x.1.first != partition.indexOf? x.1.second) := by
    refine filterM_eq_some fun x hx => ?_
    obtain ⟨hfirst, hsecond⟩ := Program.ends_lt_of_missingEnd? (Program.missingEnd?_eq_none hends) hx
    rw [hlook hfirst, hlook hsecond]
    rfl
  rw [crossing, setTable_eq_some h, Option.bind_eq_bind, Option.bind_some, hfound]
  rfl

/-- A linkage between sets is one of the program. -/
theorem lt_of_mem_crossing {partition : Partition} {l : LinkageId} (h : l ∈ p.crossing partition) :
    l < p.linkages.size := by
  obtain ⟨x, hx, rfl⟩ := List.mem_map.mp h
  exact (Array.getElem?_eq_some_iff.mp (Program.mem_activeLinkages.mp (List.mem_of_mem_filter hx)).1).1

/-- Linkages that are there can be split. -/
theorem splitAll_eq_some {ids : List LinkageId} (h : ∀ l ∈ ids, l < p.linkages.size) :
    splitAll p ids = some (p.splitAll ids) := by
  rw [splitAll, allBelow_eq_some h]
  rfl

/-- A set of uses that are there can be divided. -/
theorem divideSet_eq_some (hasks : p.AsksWithin m) (hlinkages : p.linkages.size < 2 ^ 32)
    {members : List UseId} (h : ∀ u ∈ members, u < p.uses.size) :
    divideSet m p (Program.linkCount p.linkedUses) members =
      some (p.divideSet m (Program.linkCount p.linkedUses) members) := by
  have hdivided : divide members (p.conflictPairs m members) (Program.linkCount p.linkedUses) =
      some (RegisterColoring.divide members (p.conflictPairs m members) (Program.linkCount p.linkedUses)) :=
    divide_eq_some (fun u part hpart => (Program.strength_linkCount_le u hpart).trans_lt hlinkages) members _
  rw [divideSet, Program.divideSet, conflictPairs_eq_some hasks h, Option.bind_eq_bind, Option.bind_some,
    hdivided]
  split <;> rfl

/-- The conflicts of a program can be separated. -/
theorem separate_eq_some (hends : p.EndsInRange) (hasks : p.AsksWithin m) (huses : p.uses.size < 2 ^ 32)
    (hlinkages : p.linkages.size < 2 ^ 32) :
    separate m p p.joinedSets = some (p.separate m p.joinedSets) := by
  have hweights : p.activeLinkages.mapM (fun (x : Linkage × LinkageId) =>
      word32 (Program.linkCount p.linkedUses x.1.first x.1.second)) =
        some (p.activeLinkages.map fun x => Program.linkCount p.linkedUses x.1.first x.1.second) := by
    refine mapM_eq_some fun x _ => word32_eq_some (Nat.lt_of_le_of_lt ?_ hlinkages)
    exact Program.strength_linkCount_le x.1.first (List.nodup_singleton x.1.second)
  have hmembers : ∀ u ∈ p.joinedSets.sets.flatten, u < p.uses.size := fun u hu =>
    (Program.mem_usesInPlay.mp (Program.mem_flatten_joinedSets.mp hu)).1
  have hdivided : p.joinedSets.sets.mapM (divideSet m p (Program.linkCount p.linkedUses)) =
      some (p.joinedSets.sets.map (p.divideSet m (Program.linkCount p.linkedUses))) :=
    mapM_eq_some fun set hset => divideSet_eq_some hasks hlinkages fun u hu =>
      hmembers u (List.mem_flatten_of_mem hset hu)
  have hparts : ∀ u ∈ (Partition.ofSets (p.partsOf m)).sets.flatten, u < p.uses.size := fun u hu =>
    hmembers u ((p.perm_flatten_partsOf m).mem_iff.mp ((Partition.perm_flatten_ofSets _).mem_iff.mp hu))
  rw [separate, Program.separate]
  simp only [hweights, hdivided, ofSets_eq_some, Option.bind_eq_bind, Option.bind_some]
  split
  · rfl
  · -- something was divided: the linkages between the parts are split, and the uses joined anew
    have hcrossing : crossing p (Partition.ofSets (p.partsOf m)) =
        some (p.crossing (Partition.ofSets (p.partsOf m))) := crossing_eq_some hends hparts
    have hjoined : ∀ ids, joinedSets (p.splitAll ids) = some (p.splitAll ids).joinedSets := fun ids =>
      joinedSets_eq_some (hends.mapStates _) huses
    rw [Program.partsOf] at hcrossing
    rw [hcrossing, Option.bind_some, splitAll_eq_some fun l hl => lt_of_mem_crossing hl, Option.bind_some,
      hjoined]
    rfl

end

end RegisterColoring.Checked
