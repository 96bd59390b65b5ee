import Mathlib.Data.Nat.Nth
import Mathlib.Order.Interval.Set.Infinite
import RegisterColoring.Proofs.Parts.Run

/-! # Unrelated code

Where no linkage joins some uses of a program to the others, and no block has uses of both, each part is
given the registers that it is given when it stands alone.

* `Program.restrict`: the part of a program with some of its uses, under numbers of its own.
* `Program.Unrelated`: some uses have nothing to do with the others.
* `Program.embeds_restrict`: an unrelated part of a program is one in the sense of `Program.Embeds`.
* `allocate_restrict`: the allocation of a program with unrelated parts is that of the parts.
* `lateLinked`: a linkage between a use in memory and one that is not makes parts depend on each other. -/

namespace RegisterColoring

/-! ## Numbers in a part -/

/-- The elements of a list at the positions that are kept. -/
def keptAt {α : Type} (keep : Nat → Bool) (l : List α) : List α :=
  (l.zipIdx.filter fun x => keep x.2).map Prod.fst

/-- The number that a position has among those that are kept. -/
def numberWithin (keep : Nat → Bool) (v : Nat) : Nat :=
  Nat.count (fun w => keep w = true) v

/-- The position that has the given number among those below `size` that are kept. Numbers that none of
them has are those of positions beyond. -/
noncomputable def positionOf (keep : Nat → Bool) (size number : Nat) : Nat :=
  Nat.nth (fun v => keep v = true ∨ size ≤ v) number

section Numbers

variable {keep : Nat → Bool} {size : Nat}

theorem infinite_kept (keep : Nat → Bool) (size : Nat) :
    (Set.ofPred fun v => keep v = true ∨ size ≤ v).Infinite :=
  (Set.Ici_infinite size).mono fun _ hv => .inr hv

/-- Numbers keep the order of positions. -/
theorem strictMono_positionOf : StrictMono (positionOf keep size) :=
  Nat.nth_strictMono (infinite_kept keep size)

/-- A position that has a number is kept or beyond. -/
theorem keep_positionOf (i : Nat) :
    keep (positionOf keep size i) = true ∨ size ≤ positionOf keep size i :=
  Nat.nth_mem_of_infinite (infinite_kept keep size) i

/-- Up to the end only kept positions are counted. -/
theorem count_eq_numberWithin {v : Nat} (hv : v ≤ size) :
    Nat.count (fun w => keep w = true ∨ size ≤ w) v = numberWithin keep v := by
  refine Nat.le_antisymm (Nat.count_mono_left fun w hw hkept => ?_)
    (Nat.count_mono_left fun w _ hkept => .inl hkept)
  exact hkept.resolve_right (Nat.not_le.mpr (Nat.lt_of_lt_of_le hw hv))

/-- The position of a number has that number. -/
theorem numberWithin_positionOf {i : Nat} (hi : positionOf keep size i ≤ size) :
    numberWithin keep (positionOf keep size i) = i := by
  rw [← count_eq_numberWithin hi]
  exact Nat.count_nth_of_infinite (infinite_kept keep size) i

/-- A position that is kept is that of its number. -/
theorem positionOf_numberWithin {v : Nat} (hv : v < size) (hkeep : keep v = true) :
    positionOf keep size (numberWithin keep v) = v := by
  rw [← count_eq_numberWithin (Nat.le_of_lt hv)]
  exact Nat.nth_count (p := fun w => keep w = true ∨ size ≤ w) (.inl hkeep)

variable {α : Type}

/-- What is kept of a list that gets one more element at its end. -/
theorem keptAt_concat (l : List α) (a : α) :
    keptAt keep (l ++ [a]) = keptAt keep l ++ if keep l.length then [a] else [] := by
  rw [keptAt, keptAt, List.zipIdx_append, List.filter_append, List.map_append]
  congr 1
  by_cases hkeep : keep l.length <;> simp [hkeep]

/-- As many elements are kept as positions. -/
theorem length_keptAt (keep : Nat → Bool) (l : List α) :
    (keptAt keep l).length = numberWithin keep l.length := by
  induction l using List.reverseRecOn with
  | nil => rfl
  | append_singleton l a ih =>
    rw [keptAt_concat, List.length_append, ih, List.length_append, List.length_singleton, numberWithin,
      numberWithin, Nat.count_succ]
    by_cases hkeep : keep l.length <;> simp [hkeep]

/-- An element that is kept stands at the number of its position. -/
theorem getElem?_numberWithin {l : List α} {v : Nat} (hv : v < l.length) (hkeep : keep v = true) :
    (keptAt keep l)[numberWithin keep v]? = l[v]? := by
  induction l using List.reverseRecOn with
  | nil => cases hv
  | append_singleton l a ih =>
    rw [keptAt_concat]
    -- the last element is kept under the number of all that is kept before it
    by_cases hlast : v < l.length
    · have hlt : numberWithin keep v < (keptAt keep l).length := by
        rw [length_keptAt]
        exact Nat.count_strict_mono hkeep hlast
      rw [List.getElem?_append_left hlt, List.getElem?_append_left hlast, ih hlast]
    · obtain rfl : v = l.length := by
        rw [List.length_append, List.length_singleton] at hv
        omega
      rw [List.getElem?_append_right (Nat.le_of_eq (length_keptAt keep l)), ← length_keptAt, Nat.sub_self,
        List.getElem?_append_right (Nat.le_refl _), Nat.sub_self, if_pos hkeep]

/-- What is kept under a number is what stands at its position. -/
theorem getElem?_keptAt (l : List α) (i : Nat) :
    (keptAt keep l)[i]? = l[positionOf keep l.length i]? := by
  by_cases hlt : positionOf keep l.length i < l.length
  · have hkeep := (keep_positionOf i).resolve_right (Nat.not_le.mpr hlt)
    rw [← getElem?_numberWithin hlt hkeep, numberWithin_positionOf (Nat.le_of_lt hlt)]
  · rw [List.getElem?_eq_none (Nat.le_of_not_lt hlt), List.getElem?_eq_none]
    rw [length_keptAt, ← count_eq_numberWithin (Nat.le_refl _),
      ← Nat.count_nth_of_infinite (infinite_kept keep l.length) i]
    exact Nat.count_monotone _ (Nat.le_of_not_lt hlt)

end Numbers

/-! ## Parts of a program -/

namespace Program

variable {keep : UseId → Bool} {q p : Program}

/-- Whether the first end of a linkage is kept. -/
def keepsLinkage (keep : UseId → Bool) (p : Program) (l : LinkageId) : Bool :=
  p.linkages[l]?.any fun k => keep k.first

/-- The part of a program with the uses that are kept and the linkages at them, both in their order. -/
def restrict (keep : UseId → Bool) (p : Program) : Program where
  functions := p.functions
  uses := (keptAt keep p.uses.toList).toArray
  linkages := ((keptAt (p.keepsLinkage keep) p.linkages.toList).map
    (Linkage.rename (numberWithin keep))).toArray

theorem getElem?_uses_restrict (u : Nat) :
    (p.restrict keep).uses[u]? = p.uses[positionOf keep p.uses.size u]? := by
  rw [restrict, List.getElem?_toArray, getElem?_keptAt, Array.length_toList, Array.getElem?_toList]

theorem getElem?_linkages_restrict (l : Nat) : (p.restrict keep).linkages[l]? =
    p.linkages[positionOf (p.keepsLinkage keep) p.linkages.size l]?.map
      (Linkage.rename (numberWithin keep)) := by
  rw [restrict, List.getElem?_toArray, List.getElem?_map, getElem?_keptAt, Array.length_toList,
    Array.getElem?_toList]

/-- The kept uses have nothing to do with the others: no linkage joins the one to the other, and no block
has located uses of both. -/
structure Unrelated (keep : UseId → Bool) (p : Program) : Prop where
  /-- Linkages join kept uses or others. -/
  linkages : ∀ k ∈ p.linkages, keep k.first = keep k.second
  /-- Blocks have kept uses or others. -/
  blocks : ∀ u v a b, p.position? u = some a → p.position? v = some b → keep u ≠ keep v →
    a.block ≠ b.block

/-- A use that has a position is there. -/
theorem lt_of_position? {u : UseId} {a : Position} (h : p.position? u = some a) : u < p.uses.size := by
  obtain ⟨use, huse, -⟩ := Option.bind_eq_some_iff.mp h
  exact (Array.getElem?_eq_some_iff.mp huse).1

/-- Only uses of the program need to be looked at. -/
theorem unrelated_iff : p.Unrelated keep ↔ (∀ k ∈ p.linkages, keep k.first = keep k.second) ∧
    ∀ u, u < p.uses.size → ∀ v, v < p.uses.size → ∀ a ∈ p.position? u, ∀ b ∈ p.position? v,
      keep u ≠ keep v → a.block ≠ b.block := by
  constructor
  · exact fun h => ⟨h.linkages, fun u _ v _ a ha b hb => h.blocks u v a b ha hb⟩
  · rintro ⟨hlinkages, hblocks⟩
    exact ⟨hlinkages, fun u v a b ha hb =>
      hblocks u (lt_of_position? ha) v (lt_of_position? hb) a ha b hb⟩

instance (keep : UseId → Bool) (p : Program) : Decidable (p.Unrelated keep) :=
  decidable_of_iff' _ unrelated_iff

/-- The others have nothing to do with the kept uses. -/
theorem Unrelated.others (h : p.Unrelated keep) : p.Unrelated fun u => !keep u where
  linkages k hk := congrArg (!·) (h.linkages k hk)
  blocks u v a b ha hb hne := h.blocks u v a b ha hb fun heq => hne (congrArg (!·) heq)

/-- An unrelated part of a program is part of it. -/
theorem embeds_restrict (h : p.Unrelated keep) (hends : p.EndsInRange) :
    Embeds (positionOf keep p.uses.size) (positionOf (p.keepsLinkage keep) p.linkages.size)
      (p.restrict keep) p where
  uses_mono := strictMono_positionOf
  linkages_mono := strictMono_positionOf
  use?_eq u := (getElem?_uses_restrict u).symm
  linkage_eq l := by
    rw [getElem?_linkages_restrict, Option.map_map]
    cases hk : p.linkages[positionOf (p.keepsLinkage keep) p.linkages.size l]? with
    | none => rfl
    | some k =>
      -- both ends of a kept linkage are kept
      have hmem := Array.mem_of_getElem? hk
      have hlt := (Array.getElem?_eq_some_iff.mp hk).1
      have hfirst := (keep_positionOf l).resolve_right (Nat.not_le.mpr hlt)
      rw [keepsLinkage, hk, Option.any_some] at hfirst
      have hsecond := hfirst
      rw [h.linkages k hmem] at hsecond
      rw [Option.map_some, Function.comp, Linkage.rename, Linkage.rename,
        positionOf_numberWithin (hends k hmem).1 hfirst,
        positionOf_numberWithin (hends k hmem).2 hsecond]
  closed l k hk hend := by
    have hmem := Array.mem_of_getElem? hk
    obtain ⟨hfirst, hsecond⟩ := hends k hmem
    -- a linkage is listed by its first end, so that this end has to be kept whichever is in the part
    have hkeep : keep k.first = true := by
      obtain ⟨u, heq | heq⟩ := hend
      · rw [heq] at hfirst ⊢
        exact (keep_positionOf u).resolve_right (Nat.not_le.mpr hfirst)
      · rw [h.linkages k hmem]
        rw [heq] at hsecond ⊢
        exact (keep_positionOf u).resolve_right (Nat.not_le.mpr hsecond)
    refine ⟨numberWithin (p.keepsLinkage keep) l, (positionOf_numberWithin ?_ ?_).symm⟩
    · exact (Array.getElem?_eq_some_iff.mp hk).1
    · rw [keepsLinkage, hk, Option.any_some, hkeep]
  alone u v a b ha hb hblock := by
    have hkeep := (keep_positionOf u).resolve_right (Nat.not_le.mpr (lt_of_position? ha))
    have hkeep' : keep v = true := by
      by_contra hne
      exact h.blocks _ v a b ha hb (fun heq => hne (heq ▸ hkeep)) hblock
    exact ⟨numberWithin keep v, (positionOf_numberWithin (lt_of_position? hb) hkeep').symm⟩

/-- What is part of a program by the positions that are kept is its restriction. -/
theorem restrict_eq (hends : p.EndsInRange)
    (e : Embeds (positionOf keep p.uses.size) (positionOf (p.keepsLinkage keep) p.linkages.size) q p)
    (hfunctions : q.functions = p.functions) : p.restrict keep = q := by
  refine ext_getElem? hfunctions.symm (fun u => ?_) fun l => ?_
  · rw [getElem?_uses_restrict]
    exact e.use?_eq u
  · rw [getElem?_linkages_restrict, e.linkage_eq, Option.map_map]
    cases hk : q.linkages[l]? with
    | none => rfl
    | some k =>
      have hmem : k ∈ q.linkages := Array.mem_of_getElem? hk
      obtain ⟨hfirst, hsecond⟩ := e.endsInRange hends k hmem
      rw [Option.map_some, Function.comp, Linkage.rename, Linkage.rename,
        numberWithin_positionOf (Nat.le_of_lt (e.lt_iff.mpr hfirst)),
        numberWithin_positionOf (Nat.le_of_lt (e.lt_iff.mpr hsecond))]

/-- Programs of one shape keep the same linkages. -/
theorem SameShape.keepsLinkage_eq (h : p.SameShape q) (keep : UseId → Bool) :
    q.keepsLinkage keep = p.keepsLinkage keep := by
  funext l
  have same := congrArg (fun ends => ends.any fun e => keep e.1) (h.ends_eq l)
  simp only [Option.any_map] at same
  exact same

end Program

/-! ## Allocation -/

/-- Where some uses of a settled program have nothing to do with the others, no limit is set to the
attempts, and the program can be counted in 32 bits: if the parts with these uses and with the others can
be allocated, the whole can. Every use is given the location that it is given in its part, the program
that is left is made of what is left of the parts, states of linkages and uses in memory included, and the
whole takes as many attempts as the part that takes more. -/
theorem allocate_restrict {d : MachineDescription} {m : Machine} (hm : Machine.ofDescription d = .ok m)
    {settings : Settings} (hlimit : settings.maxAttempts = none) {p : Program} (hends : p.EndsInRange)
    (hsettled : p.Settled) (hsize : p.linkages.size + p.uses.size + 1 < 2 ^ 32) {keep : UseId → Bool}
    (hunrelated : p.Unrelated keep) {kept others : List Round} {q q' : Program} {ls ls' : Array Location}
    (hkept : allocate m settings (p.restrict keep) = ⟨kept, q, .ok ls⟩)
    (hothers : allocate m settings (p.restrict fun u => !keep u) = ⟨others, q', .ok ls'⟩) :
    ∃ rounds whole found, allocate m settings p = ⟨rounds, whole, .ok found⟩ ∧
      (∀ u, u < p.uses.size → locationOf found u =
        if keep u then locationOf ls (numberWithin keep u)
        else locationOf ls' (numberWithin (fun v => !keep v) u)) ∧
      whole.restrict keep = q ∧ (whole.restrict fun u => !keep u) = q' ∧
      rounds.length = max kept.length others.length := by
  have left := Program.embeds_restrict hunrelated hends
  have right := Program.embeds_restrict hunrelated.others hends
  have composed : Program.Composed _ _ _ _ (p.restrict keep) (p.restrict fun u => !keep u) p :=
    { left, right, settled := hsettled, ends := hends, countable := by omega
      covered := fun v hv => by
        by_cases hkeep : keep v = true
        · exact .inl ⟨_, (positionOf_numberWithin hv hkeep).symm⟩
        · exact .inr ⟨_, (positionOf_numberWithin hv (by simpa using hkeep)).symm⟩ }
  have hq := Succeeds.of_allocate hkept
  have hq' := Succeeds.of_allocate hothers
  obtain ⟨whole, found, hs, hleft, hright, hlocation, hlocation'⟩ :=
    composed.succeeds (Machine.consistent_of_ofDescription hm) hq hq'
  -- neither part needs more attempts than the whole is allowed
  have enough : max kept.length others.length ≤ attemptsAllowed settings p := by
    rw [attemptsAllowed_of_none hlimit hsize]
    have := length_rounds_allocate_le hkept
    have := length_rounds_allocate_le hothers
    have := left.size_le
    have := right.size_le
    omega
  obtain ⟨rounds, hwhole, hlength⟩ := hs.allocate_eq enough
  have shape := hs.sameShape
  -- what is left of a part is part of what is left of the whole
  have restricted : ∀ {keep : UseId → Bool} {q : Program}, (p.restrict keep).SameShape q →
      Program.Embeds (positionOf keep p.uses.size) (positionOf (p.keepsLinkage keep) p.linkages.size) q
        whole → whole.restrict keep = q := by
    intro keep q hshape e
    rw [← shape.size_uses, ← shape.size_linkages, ← shape.keepsLinkage_eq] at e
    exact Program.restrict_eq (shape.endsInRange hends) e
      (hshape.functions_eq.trans shape.functions_eq.symm)
  refine ⟨rounds, whole, found, hwhole, fun u hu => ?_, restricted hq.sameShape hleft,
    restricted hq'.sameShape hright, hlength⟩
  split
  · rename_i hkeep
    rw [← hlocation, positionOf_numberWithin hu hkeep]
  · rename_i hkeep
    rw [← hlocation', positionOf_numberWithin hu (by simpa using hkeep)]

/-- Two functions, with uses that alternate. The first has a byte across the use of another. The second has
a byte across the use of a word, and a use that needs two words. -/
def scattered : Program where
  functions := #["f", "g"]
  uses := #[
    ⟨0, .tripleOutput, 0, some 0, 1, some ⟨0, 0⟩, false⟩,
    ⟨1, .tripleOutput, 3, some 0, 1, some ⟨1, 0⟩, false⟩,
    ⟨1, .operand, 4, some 1, 1, some ⟨1, 1⟩, false⟩,
    ⟨0, .operand, 1, some 0, 1, some ⟨0, 1⟩, false⟩,
    ⟨1, .temp, 5, some 1, 2, none, false⟩,
    ⟨0, .operand, 2, some 0, 1, some ⟨0, 2⟩, false⟩,
    ⟨1, .operand, 6, some 0, 1, some ⟨1, 2⟩, false⟩]
  linkages := #[⟨1, 6, .active⟩, ⟨0, 5, .active⟩]

/-- The uses of the first function of `scattered`. -/
def inFirst (u : UseId) : Bool :=
  [0, 3, 5].contains u

/-- The first function of `scattered` takes one attempt, and the second takes two, in which it breaks its
linkage and moves a use to memory. Together they take two and leave the same. -/
theorem allocate_restrict_scattered :
    let settings : Settings := { spillUnallocatable := true }
    let run := allocate bytePairMachine settings scattered
    let first := allocate bytePairMachine settings (scattered.restrict inFirst)
    let second := allocate bytePairMachine settings (scattered.restrict fun u => !inFirst u)
    scattered.EndsInRange ∧ scattered.Settled ∧ scattered.Unrelated inFirst ∧
      first.result = .ok #[.registers [0], .registers [1], .registers [0]] ∧ first.rounds.length = 1 ∧
      second.result = .ok #[.registers [0], .registers [2], .memory, .registers [0]] ∧
      second.rounds.length = 2 ∧ second.program.linkages = #[⟨0, 3, .broken 1⟩] ∧
      run.rounds.length = 2 ∧ run.program.restrict inFirst = first.program ∧
      (run.program.restrict fun u => !inFirst u) = second.program := by
  intro settings run first second
  have hends : scattered.EndsInRange := by decide
  have hsettled : scattered.Settled := by decide
  have hunrelated : scattered.Unrelated inFirst := by decide
  have hfirst : first.result = .ok #[.registers [0], .registers [1], .registers [0]] := by decide +kernel
  have hsecond : second.result = .ok #[.registers [0], .registers [2], .memory, .registers [0]] := by
    decide +kernel
  have one : first.rounds.length = 1 := by decide +kernel
  have two : second.rounds.length = 2 := by decide +kernel
  obtain ⟨rounds, whole, found, hrun, -, hleft, hright, hlength⟩ :=
    allocate_restrict ofDescription_bytePair (by rfl) hends hsettled (by decide)
      hunrelated (Run.eq_of_result hfirst) (Run.eq_of_result hsecond)
  refine ⟨hends, hsettled, hunrelated, hfirst, one, hsecond, two, by decide +kernel, ?_, ?_, ?_⟩
  · rw [show run.rounds = rounds from congrArg Run.rounds hrun, hlength, one, two]
    rfl
  · rw [show run.program = whole from congrArg Run.program hrun, hleft]
  · rw [show run.program = whole from congrArg Run.program hrun, hright]

/-- Two bytes and a use of two words in one block, and two operands of one operation that are linked. -/
def twinOperands : Program where
  functions := #["f"]
  uses := #[
    ⟨0, .temp, 0, some 0, 1, some ⟨0, 0⟩, false⟩,
    ⟨0, .temp, 1, some 1, 2, some ⟨0, 5⟩, false⟩,
    ⟨0, .temp, 2, some 0, 1, some ⟨0, 3⟩, false⟩,
    ⟨0, .operand, 3, some 0, 1, none, false⟩,
    ⟨0, .operand, 3, some 0, 1, none, false⟩]
  linkages := #[⟨3, 4, .active⟩]

/-- The same after its allocation has moved the use of two words to memory, with a linkage to it. -/
def lateLinked : Program :=
  (allocate bytePairMachine { spillUnallocatable := true } twinOperands).program.withLinkage 0 1

/-- A part may be given other registers than alone if one of its linkages has just one end in memory: such
a linkage of `lateLinked` is split for the conflict of the operands, which are unrelated to it, and keeps
no register busy any more. -/
theorem location_ne_of_half_in_memory :
    lateLinked.EndsInRange ∧ lateLinked.Unrelated (fun u => u < 3) ∧ ¬ lateLinked.Settled ∧
      (allocate bytePairMachine {} (lateLinked.restrict fun u => u < 3)).result =
        .ok #[.registers [0], .memory, .registers [1]] ∧
      (allocate bytePairMachine {} (lateLinked.restrict fun u => !decide (u < 3))).result =
        .ok #[.registers [0], .registers [0]] ∧
      (allocate bytePairMachine {} lateLinked).result =
        .ok #[.registers [0], .memory, .registers [0], .registers [0], .registers [0]] := by
  refine ⟨?_, ?_, ?_, ?_, ?_, ?_⟩ <;> decide +kernel

end RegisterColoring
