import RegisterColoring.Allocation.Attempt
import RegisterColoring.Proofs.Grouping

/-! # What allocation changes of a program

Allocation changes the states of linkages and which uses live in memory. Within one attempt linkages are
split and reset; between attempts they are broken for good and uses are moved to memory.

* `Program.mem_usesInPlay`, `Program.ends_lt_of_missingEnd?`: uses and the ends of linkages.
* `Program.EndsInRange`: linkages join uses of the program.
* `Program.root_joined_ends`: linked uses have one root.
* `Program.unbroken`: the linkages that are not broken for good.
* `Program.unbroken_separate`, `Program.resetSplits_separate`: separation breaks no linkage for good, and it
  can be undone.
* `Program.getElem?_linkages_revise`, `Program.getElem?_uses_revise`: what a revision changes.
* `Program.unbroken_revise`, `Program.usesInPlay_revise`: what a revision leaves.
* `Program.SameShape`: what allocation leaves as it is.
* `Program.Settled`, `Program.SettledOn`: no linkage that can be active joins a use in memory and one that
  is not, at any place or at chosen ones. -/

namespace RegisterColoring

/-- A linkage is active when that is its state. -/
theorem Linkage.isActive_iff {k : Linkage} : k.isActive = true ↔ k.state = .active := by
  rw [Linkage.isActive]
  cases k.state <;> simp [LinkState.isActive]

/-- An active linkage is not broken. -/
theorem Linkage.isBroken_of_isActive {k : Linkage} (h : k.isActive = true) :
    k.state.isBroken = false := by
  revert h
  rw [Linkage.isActive]
  cases k.state <;> simp [LinkState.isActive, LinkState.isBroken]

namespace Program

variable {p q : Program} {u : UseId} {l : LinkageId}

/-! ## Uses and the ends of linkages -/

/-- The uses in play are those of the program that do not live in memory. -/
theorem mem_usesInPlay : u ∈ q.usesInPlay ↔ u < q.uses.size ∧ q.isInMemory u = false := by
  rw [usesInPlay, List.mem_filter, useIds, List.mem_range, Bool.not_eq_true']

/-- A linkage with its position is active when the program has it there in that state. -/
theorem mem_activeLinkages {k : Linkage} :
    (k, l) ∈ q.activeLinkages ↔ q.linkages[l]? = some k ∧ k.isActive = true := by
  rw [activeLinkages, numberedLinkages, List.mem_filter, List.mem_zipIdx_iff_getElem?,
    Array.getElem?_toList]

/-- The active linkages come in the order of their positions. -/
theorem pairwise_activeLinkages (q : Program) : q.activeLinkages.Pairwise fun x y => x.2 < y.2 := by
  refine List.Pairwise.filter _ (List.pairwise_map.mp ?_)
  rw [numberedLinkages, List.zipIdx_map_snd]
  exact List.pairwise_lt_range'

/-- The linkages in active state are those that are active at some position. -/
theorem exists_mem_activeLinkages {k : Linkage} :
    (∃ id, (k, id) ∈ q.activeLinkages) ↔ k ∈ q.linkages ∧ k.state = .active := by
  simp only [mem_activeLinkages, Linkage.isActive_iff, Array.mem_iff_getElem?, exists_and_right]

/-- Without a missing end, active linkages join uses of the program. -/
theorem ends_lt_of_missingEnd? (h : q.missingEnd? = none) {k : Linkage}
    (hk : (k, l) ∈ q.activeLinkages) : k.first < q.uses.size ∧ k.second < q.uses.size := by
  have present : ∀ u ∈ [k.first, k.second], u < q.uses.size := by
    intro u hu
    have := List.find?_eq_none.mp h u (List.mem_flatMap.mpr ⟨(k, l), hk, hu⟩)
    rw [use?, Option.isNone_iff_eq_none, Array.getElem?_eq_none_iff] at this
    exact Nat.lt_of_not_le this
  exact ⟨present _ (by simp), present _ (by simp)⟩

/-- Whether the ends of all linkages, whatever their state, are uses of the program. -/
def EndsInRange (p : Program) : Prop :=
  ∀ k ∈ p.linkages, k.first < p.uses.size ∧ k.second < p.uses.size

instance (p : Program) : Decidable p.EndsInRange :=
  inferInstanceAs (Decidable (∀ k ∈ p.linkages, _))

/-- When the ends of all linkages are there, no active linkage misses one. -/
theorem missingEnd?_eq_none (h : q.EndsInRange) : q.missingEnd? = none := by
  refine List.find?_eq_none.mpr fun u hu => ?_
  obtain ⟨⟨k, l⟩, hk, hu⟩ := List.mem_flatMap.mp hu
  obtain ⟨hfirst, hsecond⟩ := h k (Array.mem_of_getElem? (mem_activeLinkages.mp hk).1)
  have hlt : u < q.uses.size := by
    simp only [List.mem_cons, List.not_mem_nil, or_false] at hu
    rcases hu with rfl | rfl
    · exact hfirst
    · exact hsecond
  rw [use?, Array.getElem?_eq_getElem hlt]
  exact Bool.false_ne_true

/-! ## Joining -/

/-- The linkages that join are active and have their ends in play. -/
theorem mem_joiningLinkages (h : q.missingEnd? = none) {l : Linkage} :
    l ∈ q.joiningLinkages ↔
      (∃ id, (l, id) ∈ q.activeLinkages) ∧ l.first ∈ q.usesInPlay ∧ l.second ∈ q.usesInPlay := by
  rw [joiningLinkages, List.mem_filter, joins, Bool.and_eq_true, Bool.not_eq_true',
    Bool.not_eq_true', mem_usesInPlay, mem_usesInPlay]
  constructor
  · rintro ⟨hl, hfirst, hsecond⟩
    obtain ⟨⟨k, id⟩, hk, rfl⟩ := List.mem_map.mp hl
    obtain ⟨hlt, hlt'⟩ := ends_lt_of_missingEnd? h hk
    exact ⟨⟨id, hk⟩, ⟨hlt, hfirst⟩, hlt', hsecond⟩
  · rintro ⟨⟨id, hl⟩, ⟨-, hfirst⟩, -, hsecond⟩
    exact ⟨List.mem_map.mpr ⟨(l, id), hl, rfl⟩, hfirst, hsecond⟩

/-- The linkages that join have ends that are uses of the program. -/
theorem endsBelow_joiningLinkages (h : q.missingEnd? = none) :
    EndsBelow q.uses.size q.joiningLinkages := by
  intro k hk
  obtain ⟨-, hfirst, hsecond⟩ := (mem_joiningLinkages h).mp hk
  exact ⟨(mem_usesInPlay.mp hfirst).1, (mem_usesInPlay.mp hsecond).1⟩

/-- Linked uses have one root. -/
theorem root_joined_ends (h : q.missingEnd? = none) {l : Linkage} (hl : l ∈ q.joiningLinkages) :
    q.joined.root l.first = q.joined.root l.second := by
  have below := endsBelow_joiningLinkages h
  obtain ⟨hfirst, hsecond⟩ := below l hl
  exact (root_unite_eq_iff below hfirst hsecond).mpr (.rel _ _ ⟨l, hl, rfl, rfl⟩)

/-! ## Linkages that are not broken for good -/

/-- Whether a linkage is there and not broken for good. -/
def isUnbroken (p : Program) (l : LinkageId) : Bool :=
  p.linkages[l]?.any fun k => !k.state.isBroken

/-- The linkages that are not broken for good. -/
def unbroken (p : Program) : List LinkageId :=
  (List.range p.linkages.size).filter p.isUnbroken

theorem isUnbroken_iff :
    p.isUnbroken l = true ↔ ∃ k, p.linkages[l]? = some k ∧ k.state.isBroken = false := by
  rw [isUnbroken]
  cases p.linkages[l]? <;> simp

theorem mem_unbroken : l ∈ p.unbroken ↔ p.isUnbroken l = true := by
  rw [unbroken, List.mem_filter, List.mem_range]
  refine and_iff_right_of_imp fun h => ?_
  obtain ⟨k, hk, -⟩ := isUnbroken_iff.mp h
  exact (Array.getElem?_eq_some_iff.mp hk).1

@[simp] theorem size_linkages_mapStates (f : Linkage → LinkageId → LinkState) :
    (p.mapStates f).linkages.size = p.linkages.size :=
  Array.size_mapIdx

/-- Changing states changes nothing else of a linkage. -/
theorem getElem?_mapStates (f : Linkage → LinkageId → LinkState) :
    (p.mapStates f).linkages[l]? = p.linkages[l]?.map fun k => { k with state := f k l } :=
  Array.getElem?_mapIdx

/-- A change of states that neither breaks nor mends a linkage for good keeps what is unbroken. -/
theorem unbroken_mapStates {f : Linkage → LinkageId → LinkState}
    (h : ∀ l k, p.linkages[l]? = some k → (f k l).isBroken = k.state.isBroken) :
    (p.mapStates f).unbroken = p.unbroken := by
  rw [unbroken, unbroken, size_linkages_mapStates]
  refine List.filter_congr fun l _ => ?_
  rw [isUnbroken, isUnbroken, getElem?_mapStates]
  cases hk : p.linkages[l]? with
  | none => rfl
  | some k =>
    show (!(f k l).isBroken) = !k.state.isBroken
    rw [h l k hk]

/-- Making linkages active again that were split breaks none for good. -/
@[simp] theorem unbroken_resetSplits : p.resetSplits.unbroken = p.unbroken := by
  refine unbroken_mapStates fun l k _ => ?_
  cases k.state <;> rfl

/-- Programs are the same when they have the same functions, uses and linkages. -/
theorem ext_getElem? (hfunctions : p.functions = q.functions) (huses : ∀ u : Nat, p.uses[u]? = q.uses[u]?)
    (hlinkages : ∀ l : Nat, p.linkages[l]? = q.linkages[l]?) : p = q := by
  obtain ⟨functions, uses, linkages⟩ := p
  obtain ⟨functions', uses', linkages'⟩ := q
  rw [Program.mk.injEq]
  exact ⟨hfunctions, Array.ext_getElem? huses, Array.ext_getElem? hlinkages⟩

/-- Splitting the linkages that cross the sets of a partition breaks none for good. -/
theorem isBroken_splitAll_crossing (part : Partition) {k : Linkage} (hk : p.linkages[l]? = some k) :
    (if (p.crossing part).contains l then LinkState.split else k.state).isBroken = k.state.isBroken := by
  split
  · -- only active linkages cross the sets, and those are not broken
    rename_i hcrossing
    obtain ⟨⟨k', l'⟩, hk', rfl⟩ := List.mem_map.mp (List.contains_iff_mem.mp hcrossing)
    obtain ⟨hget, hactive⟩ := mem_activeLinkages.mp (List.mem_filter.mp hk').1
    obtain rfl : k = k' := Option.some.inj (hk.symm.trans hget)
    exact (Linkage.isBroken_of_isActive hactive).symm
  · rfl

/-- Separation breaks no linkage for good. -/
theorem unbroken_separate (m : Machine) (part : Partition) :
    (p.separate m part).program.unbroken = p.unbroken := by
  rw [separate]
  split
  · rfl
  · exact unbroken_mapStates fun l k hk => isBroken_splitAll_crossing _ hk

/-- Separation changes no use. -/
theorem uses_separate (m : Machine) (part : Partition) : (p.separate m part).program.uses = p.uses := by
  rw [separate]
  split <;> rfl

/-- Making linkages active again that were split undoes separation. -/
theorem resetSplits_separate (m : Machine) (p : Program) (part : Partition) :
    (p.resetSplits.separate m part).program.resetSplits = p.resetSplits := by
  have again : ∀ state : LinkState, state.reset.reset = state.reset := by
    intro state
    cases state <;> rfl
  refine ext_getElem? ?_ (fun u => ?_) fun l => ?_
  · rw [separate]
    split <;> rfl
  · exact congrArg (·[u]?) (uses_separate m part)
  · rw [separate]
    split
    · rw [resetSplits, getElem?_mapStates, resetSplits, getElem?_mapStates, Option.map_map]
      simp only [Function.comp_def, again]
    · rw [resetSplits, getElem?_mapStates, splitAll, getElem?_mapStates, Option.map_map]
      cases hk : p.resetSplits.linkages[l]? with
      | none => rfl
      | some k =>
        rw [Option.map_some, Function.comp]
        simp only
        split
        · -- only active linkages cross the sets
          rename_i hcross
          rw [List.contains_iff_mem, crossing, List.mem_map] at hcross
          obtain ⟨⟨k', _⟩, hk', rfl⟩ := hcross
          obtain ⟨hget, hactive⟩ := mem_activeLinkages.mp (List.mem_of_mem_filter hk')
          obtain rfl : k = k' := Option.some.inj (hk.symm.trans hget)
          rw [Linkage.isActive_iff] at hactive
          rw [LinkState.reset, ← hactive]
        · rw [resetSplits, getElem?_mapStates] at hk
          obtain ⟨k', -, rfl⟩ := Option.map_eq_some_iff.mp hk
          simp only [again]

/-! ## Revisions -/

variable {t : Trial} {r : Revision}

/-- A revision breaks the linkages that it cuts and those at the uses that it moves. -/
theorem getElem?_linkages_revise : (q.revise t r).linkages[l]? = q.linkages[l]?.map fun k =>
    { k with state :=
      if l ∈ r.cuts ∨ k.state.isBroken = false ∧ ∃ u ∈ t.movedUses r, k.endsAt u = true then
        .broken t.attempt.number
      else k.state } := by
  rw [revise, moveToMemory, getElem?_mapStates, breakAll]
  show ((q.mapStates _).linkages[l]?).map _ = _
  rw [getElem?_mapStates, Option.map_map]
  -- cuts come first, and what they break is not broken again for the uses that move
  congr 1
  funext k
  by_cases hcut : l ∈ r.cuts
  · simp [hcut, LinkState.isBroken]
  · simp [hcut, Linkage.endsAt]

/-- A revision moves uses to memory. -/
theorem getElem?_uses_revise : (q.revise t r).uses[u]? = q.uses[u]?.map fun use =>
    { use with inMemory := use.inMemory || (t.movedUses r).contains u } :=
  Array.getElem?_mapIdx

@[simp] theorem size_linkages_revise : (q.revise t r).linkages.size = q.linkages.size := by
  rw [revise, moveToMemory, size_linkages_mapStates]
  exact size_linkages_mapStates _

@[simp] theorem size_uses_revise : (q.revise t r).uses.size = q.uses.size :=
  Array.size_mapIdx

/-- After a revision a linkage is unbroken only if it was so before and is not cut. -/
theorem isUnbroken_of_revise (h : (q.revise t r).isUnbroken l = true) :
    q.isUnbroken l = true ∧ l ∉ r.cuts := by
  obtain ⟨k', hk', hstate⟩ := isUnbroken_iff.mp h
  rw [getElem?_linkages_revise] at hk'
  obtain ⟨k, hk, rfl⟩ := Option.map_eq_some_iff.mp hk'
  by_cases hbroken : l ∈ r.cuts ∨ k.state.isBroken = false ∧ ∃ u ∈ t.movedUses r, k.endsAt u = true
  · rw [if_pos hbroken] at hstate
    cases hstate
  · rw [if_neg hbroken] at hstate
    exact ⟨isUnbroken_iff.mpr ⟨k, hk, hstate⟩, fun hl => hbroken (.inl hl)⟩

/-- After a revision a use is in play if and only if it was so before and is not moved. -/
theorem mem_usesInPlay_revise :
    u ∈ (q.revise t r).usesInPlay ↔ u ∈ q.usesInPlay ∧ u ∉ t.movedUses r := by
  rw [mem_usesInPlay, mem_usesInPlay, size_uses_revise, and_assoc]
  refine and_congr_right fun hu => ?_
  rw [isInMemory, isInMemory, use?, use?, getElem?_uses_revise, Array.getElem?_eq_getElem hu]
  simp

/-- The linkages that a revision leaves unbroken are some of those before. -/
theorem unbroken_revise :
    (q.revise t r).unbroken = q.unbroken.filter (q.revise t r).isUnbroken := by
  rw [unbroken, unbroken, size_linkages_revise, List.filter_filter]
  refine List.filter_congr fun l _ => ?_
  rw [Bool.eq_iff_iff, Bool.and_eq_true]
  exact (and_iff_left_of_imp fun h => (isUnbroken_of_revise h).1).symm

/-- The uses that a revision leaves in play are those before that it does not move. -/
theorem usesInPlay_revise :
    (q.revise t r).usesInPlay = q.usesInPlay.filter fun u => !(t.movedUses r).contains u := by
  rw [usesInPlay, usesInPlay, useIds, useIds, size_uses_revise, List.filter_filter]
  refine List.filter_congr fun u hu => ?_
  have := mem_usesInPlay_revise (q := q) (t := t) (r := r) (u := u)
  rw [mem_usesInPlay, mem_usesInPlay, size_uses_revise, and_iff_right (List.mem_range.mp hu),
    and_iff_right (List.mem_range.mp hu)] at this
  rw [Bool.eq_iff_iff, Bool.not_eq_true', this]
  simp [and_comm]

/-- A use that a revision does not move stays where it is. -/
theorem isInMemory_revise (h : u ∉ t.movedUses r) : (q.revise t r).isInMemory u = q.isInMemory u := by
  rw [isInMemory, isInMemory, use?, use?, getElem?_uses_revise]
  cases q.uses[u]? with
  | none => rfl
  | some use => simp [h]

/-- A revision that moves nothing changes no use. -/
theorem uses_revise (h : t.movedUses r = []) : (q.revise t r).uses = q.uses := by
  refine Array.ext_getElem? fun u => ?_
  rw [getElem?_uses_revise, h]
  simp

/-- A revision that cuts and moves nothing changes nothing. -/
theorem revise_of_empty (hcuts : r.cuts = []) (hmoved : t.movedUses r = []) : q.revise t r = q := by
  refine ext_getElem? rfl (fun u => congrArg (·[u]?) (uses_revise hmoved)) fun l => ?_
  rw [getElem?_linkages_revise, hcuts, hmoved]
  simp

/-- A revision that cuts an active linkage leaves fewer that are not broken for good. -/
theorem length_unbroken_revise_lt {k : Linkage} (hl : l ∈ r.cuts) (hk : (k, l) ∈ q.activeLinkages) :
    (q.revise t r).unbroken.length < q.unbroken.length := by
  obtain ⟨hget, hactive⟩ := mem_activeLinkages.mp hk
  rw [unbroken_revise, List.length_filter_lt_length_iff_exists]
  exact ⟨l, mem_unbroken.mpr (isUnbroken_iff.mpr ⟨k, hget, Linkage.isBroken_of_isActive hactive⟩),
    fun h => (isUnbroken_of_revise h).2 hl⟩

/-! ## Shape -/

/-- Programs with the same functions, as many uses and linkages with the same ends. -/
structure SameShape (p q : Program) : Prop where
  /-- They have the same functions. -/
  functions_eq : q.functions = p.functions
  /-- They have as many uses. -/
  size_uses : q.uses.size = p.uses.size
  /-- Their linkages have the same ends. -/
  ends_eq : ∀ l : Nat, q.linkages[l]?.map (fun k => (k.first, k.second)) =
    p.linkages[l]?.map fun k => (k.first, k.second)

namespace SameShape

theorem trans {s : Program} (h : p.SameShape q) (h' : q.SameShape s) : p.SameShape s where
  functions_eq := h'.functions_eq.trans h.functions_eq
  size_uses := h'.size_uses.trans h.size_uses
  ends_eq l := (h'.ends_eq l).trans (h.ends_eq l)

/-- A change of states keeps the shape. -/
theorem mapStates (p : Program) (f : Linkage → LinkageId → LinkState) : p.SameShape (p.mapStates f) where
  functions_eq := rfl
  size_uses := rfl
  ends_eq l := by
    rw [getElem?_mapStates, Option.map_map]
    rfl

/-- So does separation. -/
theorem separate (m : Machine) (p : Program) (part : Partition) :
    p.SameShape (p.separate m part).program := by
  rw [Program.separate]
  split
  · exact ⟨rfl, rfl, fun _ => rfl⟩
  · exact mapStates p _

/-- So does a revision. -/
theorem revise (q : Program) (t : Trial) (r : Revision) : q.SameShape (q.revise t r) where
  functions_eq := rfl
  size_uses := size_uses_revise
  ends_eq l := by
    rw [getElem?_linkages_revise, Option.map_map]
    rfl

/-- Programs of one shape have as many linkages. -/
theorem size_linkages (h : p.SameShape q) : q.linkages.size = p.linkages.size := by
  have same : ∀ l : Nat, q.linkages.size ≤ l ↔ p.linkages.size ≤ l := by
    intro l
    rw [← Array.getElem?_eq_none_iff, ← Array.getElem?_eq_none_iff, ← Option.map_eq_none_iff, h.ends_eq,
      Option.map_eq_none_iff]
  exact Nat.le_antisymm ((same _).mpr (Nat.le_refl _)) ((same _).mp (Nat.le_refl _))

/-- A linkage of a program of the same shape has the ends of the one at its place. -/
theorem exists_linkage (h : p.SameShape q) {k : Linkage} (hk : q.linkages[l]? = some k) :
    ∃ k', p.linkages[l]? = some k' ∧ k'.first = k.first ∧ k'.second = k.second := by
  have hends := h.ends_eq l
  rw [hk, Option.map_some, eq_comm, Option.map_eq_some_iff] at hends
  obtain ⟨k', hk', heq⟩ := hends
  exact ⟨k', hk', Prod.mk.inj heq⟩

/-- Programs of one shape have the ends of their linkages in range together. -/
theorem endsInRange (h : p.SameShape q) (hends : p.EndsInRange) : q.EndsInRange := by
  intro k hk
  obtain ⟨l, hl⟩ := Array.mem_iff_getElem?.mp hk
  obtain ⟨k', hk', hfirst, hsecond⟩ := h.exists_linkage hl
  rw [← hfirst, ← hsecond, h.size_uses]
  exact hends k' (Array.mem_of_getElem? hk')

end SameShape

/-- A change of states leaves the ends of linkages where they are. -/
theorem EndsInRange.mapStates (hp : p.EndsInRange) (f : Linkage → LinkageId → LinkState) :
    (p.mapStates f).EndsInRange :=
  (SameShape.mapStates p f).endsInRange hp

/-- So does separation. -/
theorem EndsInRange.separate (hp : p.EndsInRange) (m : Machine) (part : Partition) :
    (p.separate m part).program.EndsInRange :=
  (SameShape.separate m p part).endsInRange hp

/-! ## Linkages between memory and registers -/

/-- Whether every linkage that is not broken for good joins two uses in memory, or two that are not. So it
is as long as uses go to memory only by revisions, which break all linkages at them. -/
def Settled (p : Program) : Prop :=
  ∀ k ∈ p.linkages, k.state.isBroken = false → p.isInMemory k.first = p.isInMemory k.second

instance (p : Program) : Decidable p.Settled :=
  inferInstanceAs (Decidable (∀ k ∈ p.linkages, _))

/-- An active linkage of a settled program joins two uses in memory, or two that are not. -/
theorem Settled.isInMemory_ends (hp : p.Settled) (k : Linkage) (hk : k ∈ p.linkages)
    (hactive : k.state = .active) : p.isInMemory k.first = p.isInMemory k.second :=
  hp k hk (hactive ▸ rfl)

/-- Whether every linkage at one of the chosen places that is not broken for good joins two uses in memory, or
two that are not. -/
def SettledOn (p : Program) (chosen : LinkageId → Bool) : Prop :=
  ∀ l k, p.linkages[l]? = some k → chosen l = true → k.state.isBroken = false →
    p.isInMemory k.first = p.isInMemory k.second

/-- A program is settled when it is so at all places. -/
theorem settled_iff : p.Settled ↔ p.SettledOn fun _ => true := by
  constructor
  · intro h l k hk _
    exact h k (Array.mem_of_getElem? hk)
  · intro h k hk
    obtain ⟨l, hl⟩ := Array.mem_iff_getElem?.mp hk
    exact h l k hl rfl

section

variable {chosen : LinkageId → Bool}

/-- A change of states that neither breaks nor mends a linkage for good keeps a program settled. -/
theorem SettledOn.mapStates {f : Linkage → LinkageId → LinkState} (hp : p.SettledOn chosen)
    (h : ∀ l k, p.linkages[l]? = some k → (f k l).isBroken = k.state.isBroken) :
    (p.mapStates f).SettledOn chosen := by
  intro l k' hl hchosen hstate
  rw [getElem?_mapStates] at hl
  obtain ⟨k, hk, rfl⟩ := Option.map_eq_some_iff.mp hl
  exact hp l k hk hchosen ((h l k hk).symm.trans hstate)

/-- Making linkages active again that were split keeps a program settled. -/
theorem SettledOn.resetSplits (hp : p.SettledOn chosen) : p.resetSplits.SettledOn chosen := by
  refine hp.mapStates fun l k _ => ?_
  cases k.state <;> rfl

/-- Separation keeps a program settled. -/
theorem SettledOn.separate (hp : p.SettledOn chosen) (m : Machine) (part : Partition) :
    (p.separate m part).program.SettledOn chosen := by
  rw [Program.separate]
  split
  · exact hp
  · exact hp.mapStates fun l k hk => isBroken_splitAll_crossing _ hk

/-- A revision keeps a program settled: it breaks the linkages at the uses that it moves. -/
theorem SettledOn.revise (hq : q.SettledOn chosen) : (q.revise t r).SettledOn chosen := by
  intro l k' hl hchosen hstate
  rw [getElem?_linkages_revise] at hl
  obtain ⟨k, hk, rfl⟩ := Option.map_eq_some_iff.mp hl
  by_cases hbroken : l ∈ r.cuts ∨ k.state.isBroken = false ∧ ∃ u ∈ t.movedUses r, k.endsAt u = true
  · rw [if_pos hbroken] at hstate
    cases hstate
  · rw [if_neg hbroken] at hstate
    have stays : ∀ u, k.endsAt u = true → u ∉ t.movedUses r := fun u hend hmoved =>
      hbroken (.inr ⟨hstate, u, hmoved, hend⟩)
    show (q.revise t r).isInMemory k.first = (q.revise t r).isInMemory k.second
    rw [isInMemory_revise (stays k.first (by simp [Linkage.endsAt])),
      isInMemory_revise (stays k.second (by simp [Linkage.endsAt]))]
    exact hq l k hk hchosen hstate

end

/-- A settled program is so at chosen places. -/
theorem Settled.on (hp : p.Settled) (chosen : LinkageId → Bool) : p.SettledOn chosen :=
  fun _ k hk _ => hp k (Array.mem_of_getElem? hk)

/-- Making linkages active again that were split keeps a program settled at all places. -/
theorem Settled.resetSplits (hp : p.Settled) : p.resetSplits.Settled :=
  settled_iff.mpr (settled_iff.mp hp).resetSplits

/-- So does a revision. -/
theorem Settled.revise (hq : q.Settled) : (q.revise t r).Settled :=
  settled_iff.mpr (settled_iff.mp hq).revise

end Program

end RegisterColoring
