import Mathlib.Combinatorics.SimpleGraph.Star
import RegisterColoring.Proofs.Conflicts

/-! # Divisions are proper colourings with few colours

The parts of a division are in normal form, hold every member and every use of a conflict exactly once, and
keep the uses of each conflict apart. Elimination takes out a use that has the fewest conflicts left. So if
every set of disputed uses has one with at most `d` conflicts inside the set, no use comes with more than `d`
conflicts to later ones, and a colour is opened only when the uses of at most `d` colours are in its way.

* `Division.eliminationOrder_congr`, `Division.place_congr`: the bounds on the steps do not show.
* `Division.Proper`: what makes some parts a proper colouring.
* `proper_divide`: a division is one, and weighs no strength that is out of range.
* `Division.Degenerate`: every set of disputed uses has one with few conflicts inside it.
* `Division.Exact`: disputes that name the conflicts among their own uses.
* `Division.length_others_le`, `Division.length_color_le`: conflicts to later uses, and colours.
* `Division.degenerate_of_isAcyclic`: a forest of conflicts.
* `length_divide_le`: how many parts a division has. -/

namespace RegisterColoring

namespace Division

variable {members : List UseId} {conflicts : List (UseId × UseId)} {weight : UseId → UseId → Nat} {u v : UseId}

/-! ## Steps -/

/-- Elimination ends when no dispute is left, so that any two bounds on its steps that leave room for all
disputes come to the same. -/
theorem eliminationOrder_congr {steps steps' : Nat} {pending : List Dispute} (h : pending.length ≤ steps)
    (h' : pending.length ≤ steps') : eliminationOrder steps pending = eliminationOrder steps' pending := by
  induction steps generalizing steps' pending with
  | zero =>
    obtain rfl := List.length_eq_zero_iff.mp (Nat.le_zero.mp h)
    cases steps' <;> rfl
  | succ steps ih =>
    cases steps' with
    | zero =>
      obtain rfl := List.length_eq_zero_iff.mp (Nat.le_zero.mp h')
      rfl
    | succ steps' =>
      rw [eliminationOrder, eliminationOrder]
      cases hd : leastBy? (fun (a b : Dispute) => decide (a.others.length < b.others.length)) pending with
      | none => rfl
      | some d =>
        have fewer := length_settle_lt (leastBy?_mem hd)
        exact congrArg (d :: ·) (ih (by omega) (by omega))

/-- Placing ends when no use waits, so that any two bounds on its steps that leave room for all of them come to
the same. -/
theorem place_congr {steps steps' : Nat} {waiting : List UseId} (c : Draft) (h : waiting.length ≤ steps)
    (h' : waiting.length ≤ steps') : place weight steps waiting c = place weight steps' waiting c := by
  induction steps generalizing steps' waiting c with
  | zero =>
    obtain rfl := List.length_eq_zero_iff.mp (Nat.le_zero.mp h)
    cases steps' <;> rfl
  | succ steps ih =>
    cases steps' with
    | zero =>
      obtain rfl := List.length_eq_zero_iff.mp (Nat.le_zero.mp h')
      rfl
    | succ steps' =>
      rw [place, place]
      cases hp : leastBy? (fun (a b : Placement) => decide (b.strength < a.strength))
          (waiting.map (placement weight c.parts)) with
      | none => rfl
      | some p =>
        obtain ⟨u, hu, rfl⟩ := List.mem_map.mp (leastBy?_mem hp)
        simp only [(placement_spec weight c.parts u).1]
        have fewer := List.length_erase_of_mem hu
        exact ih _ (by omega) (by omega)

/-! ## Proper colourings -/

/-- What makes some parts a proper colouring of members along conflicts. -/
structure Proper (members : List UseId) (conflicts : List (UseId × UseId)) (parts : List (List UseId)) :
    Prop where
  /-- No part is empty. -/
  ne_nil : ∀ part ∈ parts, part ≠ []
  /-- Each part is strictly ascending. -/
  ascending : ∀ part ∈ parts, part.Pairwise (· < ·)
  /-- The parts come in the order of their first uses. -/
  ordered : parts.Pairwise fun s t => s.headD 0 < t.headD 0
  /-- No use is in two parts, or twice in one. -/
  nodup : parts.flatten.Nodup
  /-- The parts hold the members and the uses of the conflicts, and nothing else. -/
  mem_iff : ∀ u, (∃ part ∈ parts, u ∈ part) ↔ u ∈ members ∨ ∃ c ∈ conflicts, u = c.1 ∨ u = c.2
  /-- No part holds both uses of a conflict. -/
  apart : ∀ c ∈ conflicts, ∀ part ∈ parts, ¬ (c.1 ∈ part ∧ c.2 ∈ part)

/-- Links to some of the other uses are no stronger than those to all of them. -/
theorem strength_le_of_subperm {uses part : List UseId} (h : (u :: part).Subperm uses) :
    strength weight u part ≤ strength weight u (uses.erase u) := by
  have others : part.Subperm (uses.erase u) := by simpa using h.erase u
  obtain ⟨same, hperm, hsublist⟩ := others
  calc strength weight u part = strength weight u same := (hperm.map (weight u)).sum_eq.symm
    _ ≤ strength weight u (uses.erase u) := (hsublist.map _).sum_le_sum fun _ _ => Nat.zero_le _

/-- The members and the disputed uses, each once. -/
theorem perm_unionAscending (members : List UseId) (conflicts : List (UseId × UseId)) :
    (unconflicted members (conflicted conflicts) ++ conflicted conflicts).Perm
      (unionAscending members (conflicted conflicts)) := by
  have ascending := pairwise_unionAscending (l := members) (pairwise_conflicted conflicts)
  refine (List.perm_ext_iff_of_nodup (nodup_unconflicted_append members conflicts)
    (ascending.imp Nat.ne_of_lt)).mpr fun u => ?_
  rw [mem_unconflicted_append, mem_unionAscending]

end Division

open Division

variable {members : List UseId} {conflicts : List (UseId × UseId)} {weight : UseId → UseId → Nat}

/-- The parts of a division are in normal form. -/
theorem normal_divide : (⟨(divide members conflicts weight).parts⟩ : Partition).Normal := by
  have whole : (divide members conflicts weight).parts.flatten.Nodup :=
    perm_divide_append.nodup_iff.mpr (nodup_unconflicted_append members conflicts)
  rw [divide_eq] at whole ⊢
  exact Partition.normal_ofSets ((Partition.perm_flatten_ofSets _).nodup_iff.mp whole)

/-- No part of a division is empty. -/
theorem ne_nil_of_mem_divide {part : List UseId} (h : part ∈ (divide members conflicts weight).parts) :
    part ≠ [] := by
  rw [divide_eq] at h
  obtain ⟨t, -, hne, rfl⟩ := Partition.mem_sets_ofSets.mp h
  exact fun hnil => hne (hnil ▸ sortBy_perm Partition.before t).symm.eq_nil

/-- A division along conflicts between distinct uses is a proper colouring. Both of its loops end because nothing
is left to do, not because of the bound on their steps. When the weights of each use's links
to all others add up to a number of 32 bits, so do all strengths that are weighed. -/
theorem proper_divide (hdistinct : ∀ c ∈ conflicts, c.1 ≠ c.2) :
    Proper members conflicts (divide members conflicts weight).parts ∧
      (∀ steps, (disputes conflicts).length ≤ steps → eliminationOrder steps (disputes conflicts) =
        eliminationOrder (disputes conflicts).length (disputes conflicts)) ∧
      (∀ steps c, (unconflicted members (conflicted conflicts)).length ≤ steps →
        place weight steps (unconflicted members (conflicted conflicts)) c =
          place weight (unconflicted members (conflicted conflicts)).length
            (unconflicted members (conflicted conflicts)) c) ∧
      ((∀ u ∈ unionAscending members (conflicted conflicts),
          strength weight u ((unionAscending members (conflicted conflicts)).erase u) < 2 ^ 32) →
        (divide members conflicts weight).inRange = true) := by
  refine ⟨?_, fun steps h => eliminationOrder_congr h (Nat.le_refl _), fun steps c h =>
    place_congr c h (Nat.le_refl _), fun hweight => ?_⟩
  · have hself : ∀ u, ¬ Clash conflicts u u := fun u hclash =>
      hclash.elim (fun h => hdistinct _ h rfl) fun h => hdistinct _ h rfl
    exact
      { ne_nil := fun part => ne_nil_of_mem_divide
        ascending := normal_divide.ascending
        ordered := normal_divide.ordered
        nodup := perm_divide_append.nodup_iff.mpr (nodup_unconflicted_append members conflicts)
        mem_iff := fun u => by
          rw [← List.mem_flatten, perm_divide_append.mem_iff, mem_unconflicted_append, mem_conflicted]
        apart := fun c hc part hpart hboth =>
          peaceful_divide hself part hpart c.1 hboth.1 c.2 hboth.2 (.inl hc) }
  · have peak : (divide members conflicts weight).peak ≤ 2 ^ 32 - 1 := by
      refine peak_divide_le fun u part hpart => Nat.le_sub_one_of_lt ?_
      have inside := hpart.trans (perm_unionAscending members conflicts).subperm
      exact (strength_le_of_subperm inside).trans_lt (hweight u (inside.subset List.mem_cons_self))
    rw [Division.inRange, decide_eq_true_eq]
    omega

/-- Links that join the corners of a square. -/
def squareLinks (u v : UseId) : Nat :=
  if (min u v, max u v) ∈ [(1, 2), (1, 3), (2, 4), (3, 4)] then 1 else 0

/-- Members may be repeated, and a conflict may name a use that is not a member. -/
theorem proper_divide_square :
    (divide [4, 1, 3, 1, 4] [(1, 2)] squareLinks).parts = [[1, 3], [2, 4]] ∧
      Proper [4, 1, 3, 1, 4] [(1, 2)] [[1, 3], [2, 4]] ∧
      (divide [4, 1, 3, 1, 4] [(1, 2)] squareLinks).inRange = true := by
  have parts : (divide [4, 1, 3, 1, 4] [(1, 2)] squareLinks).parts = [[1, 3], [2, 4]] := by
    decide +kernel
  obtain ⟨proper, -, -, inRange⟩ :=
    @proper_divide [4, 1, 3, 1, 4] [(1, 2)] squareLinks (by decide)
  exact ⟨parts, parts ▸ proper, inRange (by decide)⟩

namespace Division

variable {u v : UseId} {degree : Nat}

/-! ## Conflicts to later uses -/

instance : Decidable (Clash conflicts u v) :=
  inferInstanceAs (Decidable (_ ∨ _))

/-- Whether every set of disputed uses that is not empty has one with at most `degree` conflicts inside the
set. -/
def Degenerate (conflicts : List (UseId × UseId)) (degree : Nat) : Prop :=
  ∀ set ⊆ (conflicted conflicts).toFinset, set.Nonempty →
    ∃ u ∈ set, (set.filter (Clash conflicts u)).card ≤ degree

instance : Decidable (Degenerate conflicts degree) :=
  inferInstanceAs (Decidable (∀ set ⊆ (conflicted conflicts).toFinset, _))

/-- Whether disputes name the conflicts among their own uses, each of them once. -/
structure Exact (conflicts : List (UseId × UseId)) (pending : List Dispute) : Prop where
  /-- No use has two disputes. -/
  nodup : (pending.map Dispute.use).Nodup
  /-- No dispute names a use twice. -/
  nodup_others : ∀ d ∈ pending, d.others.Nodup
  /-- A dispute names the uses among them that its own use clashes with. -/
  mem_others : ∀ d ∈ pending, ∀ v,
    v ∈ d.others ↔ v ∈ pending.map Dispute.use ∧ Clash conflicts d.use v

/-- Partners are listed in strictly ascending order. -/
theorem pairwise_partners (conflicts : List (UseId × UseId)) (u : UseId) :
    (partners conflicts u).Pairwise (· < ·) := by
  refine List.foldlRecOn conflicts _ .nil fun found h c _ => ?_
  have insert : ∀ {l : List UseId} (b : Prop) [Decidable b] (n : UseId), l.Pairwise (· < ·) →
      (if b then insertAscending n l else l).Pairwise (· < ·) := by
    intro l b _ n hl
    split
    · exact pairwise_insertAscending hl
    · exact hl
  exact insert _ _ (insert _ _ h)

/-- At the start disputes name all conflicts. -/
theorem exact_disputes (conflicts : List (UseId × UseId)) : Exact conflicts (disputes conflicts) where
  nodup := by
    rw [map_use_disputes]
    exact (pairwise_conflicted conflicts).imp Nat.ne_of_lt
  nodup_others := by
    intro d hd
    obtain ⟨u, -, rfl⟩ := List.mem_map.mp hd
    exact (pairwise_partners conflicts u).imp Nat.ne_of_lt
  mem_others := by
    intro d hd v
    obtain ⟨u, -, rfl⟩ := List.mem_map.mp hd
    rw [map_use_disputes, mem_partners]
    refine (and_iff_right_of_imp fun hclash => mem_conflicted.mpr ?_).symm
    rcases hclash with hclash | hclash
    · exact ⟨_, hclash, .inr rfl⟩
    · exact ⟨_, hclash, .inl rfl⟩

/-- Settling the disputes of a use leaves those among the other uses. -/
theorem Exact.settle {pending : List Dispute} (h : Exact conflicts pending) (u : UseId) :
    Exact conflicts (settle u pending) := by
  have before : ∀ e ∈ Division.settle u pending, ∃ d ∈ pending, e = { d with others := d.others.erase u } := by
    intro e he
    obtain ⟨d, hd, rfl⟩ := List.mem_map.mp he
    exact ⟨d, List.mem_of_mem_filter hd, rfl⟩
  refine ⟨?_, fun e he => ?_, fun e he v => ?_⟩
  · rw [map_use_settle h.nodup]
    exact h.nodup.erase u
  · obtain ⟨d, hd, rfl⟩ := before e he
    exact (h.nodup_others d hd).erase u
  · obtain ⟨d, hd, rfl⟩ := before e he
    rw [map_use_settle h.nodup, h.nodup.mem_erase_iff, (h.nodup_others d hd).mem_erase_iff,
      h.mem_others d hd, and_assoc]

/-- A dispute names as many uses as there are conflicts of its use with others that are left. -/
theorem Exact.length_others {pending : List Dispute} (h : Exact conflicts pending) {d : Dispute}
    (hd : d ∈ pending) :
    d.others.length = ((pending.map Dispute.use).toFinset.filter (Clash conflicts d.use)).card := by
  rw [← List.toFinset_card_of_nodup (h.nodup_others d hd)]
  congr 1
  ext v
  rw [List.mem_toFinset, Finset.mem_filter, List.mem_toFinset, h.mem_others d hd]

/-- The use that is taken out has at most as many conflicts left as some use of every set of disputed uses has
inside the set. -/
theorem Exact.length_others_least {pending : List Dispute} (h : Exact conflicts pending)
    (hdegenerate : Degenerate conflicts degree)
    (hsub : ∀ u ∈ pending.map Dispute.use, u ∈ conflicted conflicts) {d : Dispute}
    (hd : leastBy? (fun a b => decide (a.others.length < b.others.length)) pending = some d) :
    d.others.length ≤ degree := by
  obtain ⟨u, hu, hcard⟩ := hdegenerate (pending.map Dispute.use).toFinset
    (fun u hu => List.mem_toFinset.mpr (hsub u (List.mem_toFinset.mp hu)))
    ⟨d.use, List.mem_toFinset.mpr (List.mem_map_of_mem (leastBy?_mem hd))⟩
  obtain ⟨e, he, rfl⟩ := List.mem_map.mp (List.mem_toFinset.mp hu)
  have least : d.others.length ≤ e.others.length :=
    key_le_of_leastBy? (f := fun d => d.others.length) (fun _ _ => decide_eq_true_iff) hd he
  exact least.trans ((h.length_others he).trans_le hcard)

/-- No use that is taken out has more conflicts left. -/
theorem length_others_le (hdegenerate : Degenerate conflicts degree) {steps : Nat} {pending : List Dispute}
    (h : Exact conflicts pending) (hsub : ∀ u ∈ pending.map Dispute.use, u ∈ conflicted conflicts) :
    ∀ d ∈ eliminationOrder steps pending, d.others.length ≤ degree := by
  induction steps generalizing pending with
  | zero => exact fun d hd => absurd hd List.not_mem_nil
  | succ steps ih =>
    rw [eliminationOrder]
    split
    · exact fun d hd => absurd hd List.not_mem_nil
    · rename_i d hd
      intro e he
      rcases List.mem_cons.mp he with rfl | he
      · exact h.length_others_least hdegenerate hsub hd
      · exact ih (h.settle d.use) (fun u hu => hsub u (mem_map_use_of_settle hu).1) e he

/-! ## Colours -/

/-- Parts without a common use that each hold one of some uses are at most as many as these. -/
theorem length_le_of_blocked {parts : List (List UseId)} {others : List UseId}
    (hparts : parts.flatten.Nodup) (h : ∀ part ∈ parts, ∃ v ∈ part, v ∈ others) :
    parts.length ≤ others.length := by
  have each : parts.length ≤ (parts.flatten.filter (· ∈ others)).length := by
    clear hparts
    induction parts with
    | nil => exact Nat.le_refl 0
    | cons part parts ih =>
      obtain ⟨v, hv, hother⟩ := h part List.mem_cons_self
      have first : 0 < (part.filter (· ∈ others)).length :=
        List.length_pos_of_mem (List.mem_filter.mpr ⟨hv, decide_eq_true hother⟩)
      have rest := ih fun t ht => h t (List.mem_cons_of_mem part ht)
      rw [List.flatten_cons, List.filter_append, List.length_append, List.length_cons]
      omega
  refine each.trans (List.subperm_of_subset (hparts.filter _) fun v hv => ?_).length_le
  exact of_decide_eq_true (List.mem_filter.mp hv).2

/-- A colour is opened only when each colour so far has one of the uses in the way. -/
theorem length_colorOne_le (d : Dispute) {c : Draft} (h : c.parts.flatten.Nodup) :
    (colorOne weight d c).parts.length ≤ max c.parts.length (d.others.length + 1) := by
  rw [colorOne]
  split
  · rw [List.length_modify]
    exact Nat.le_max_left _ _
  · rename_i hnone
    -- no part admits the use
    have none_admits := List.filter_eq_nil_iff.mp (List.map_eq_nil_iff.mp (leastBy?_eq_none_iff.mp hnone))
    have blocked : c.parts.length ≤ d.others.length := by
      refine length_le_of_blocked h fun part hpart => ?_
      obtain ⟨i, hi⟩ := List.mem_iff_getElem?.mp hpart
      have refused := none_admits (part, i) (List.mk_mem_zipIdx_iff_getElem?.mpr hi)
      simpa [admits] using refused
    rw [List.length_append, List.length_singleton]
    omega

/-- Uses that come with at most `degree` conflicts to later ones need at most one colour more. -/
theorem length_color_le {order : List Dispute} (h : (order.map Dispute.use).Nodup)
    (hothers : ∀ d ∈ order, d.others.length ≤ degree) : (color weight order).parts.length ≤ degree + 1 := by
  induction order with
  | nil => exact Nat.zero_le _
  | cons d order ih =>
    have later := (List.nodup_cons.mp h).2
    have so_far := ih later fun e he => hothers e (List.mem_cons_of_mem d he)
    have own := hothers d List.mem_cons_self
    refine (length_colorOne_le d ((perm_color weight order).nodup_iff.mpr later)).trans ?_
    exact Nat.max_le.mpr ⟨so_far, by omega⟩

/-- Placing opens no colour. -/
theorem length_place (steps : Nat) (waiting : List UseId) (c : Draft) :
    (place weight steps waiting c).parts.length = c.parts.length := by
  induction steps generalizing waiting c with
  | zero => rfl
  | succ steps ih =>
    rw [place]
    simp only
    split
    · rfl
    · rw [ih, List.length_modify]

/-! ## Forests -/

/-- The graph of some conflicts. -/
def conflictGraph (conflicts : List (UseId × UseId)) : SimpleGraph UseId :=
  .fromRel fun u v => (u, v) ∈ conflicts

/-- A finite graph without cycles has a vertex with at most one neighbour: an end of a longest path. -/
theorem exists_adj_subsingleton {V : Type} [Finite V] [Nonempty V] {G : SimpleGraph V} (h : G.IsAcyclic) :
    ∃ u, ∀ v w, G.Adj u v → G.Adj u w → v = w := by
  obtain ⟨u, _, p, hp, longest⟩ := SimpleGraph.Walk.exists_isPath_forall_isPath_length_le_length G
  have next : ∀ v, G.Adj u v → v = p.snd := by
    intro v hadj
    refine h.eq_snd_of_adj_start hp hadj ?_
    -- otherwise the path could be made longer
    by_contra hnew
    have longer := longest _ _ (p.cons hadj.symm) (hp.cons hnew)
    rw [SimpleGraph.Walk.length_cons] at longer
    omega
  exact ⟨u, fun v w hv hw => (next v hv).trans (next w hw).symm⟩

/-- In a forest of conflicts every set of uses has one with at most one conflict inside the set. -/
theorem degenerate_of_isAcyclic (hdistinct : ∀ c ∈ conflicts, c.1 ≠ c.2)
    (h : (conflictGraph conflicts).IsAcyclic) : Degenerate conflicts 1 := by
  intro set _ hset
  have : Nonempty (set : Set UseId) := hset.to_subtype
  obtain ⟨⟨u, hu⟩, alone⟩ := exists_adj_subsingleton (h.induce (set : Set UseId))
  have adjacent : ∀ v ∈ set, Clash conflicts u v → (conflictGraph conflicts).Adj u v := by
    refine fun v _ hclash => ⟨?_, hclash⟩
    rintro rfl
    exact hclash.elim (fun hc => hdistinct _ hc rfl) fun hc => hdistinct _ hc rfl
  refine ⟨u, hu, Finset.card_le_one.mpr fun v hv w hw => ?_⟩
  obtain ⟨hv, hclash⟩ := Finset.mem_filter.mp hv
  obtain ⟨hw, hclash'⟩ := Finset.mem_filter.mp hw
  exact congrArg Subtype.val (alone ⟨v, hv⟩ ⟨w, hw⟩ (adjacent v hv hclash) (adjacent w hw hclash'))

end Division

/-! ## Parts -/

/-- Normal form has no more sets than it was made of. -/
theorem Partition.length_ofSets_le (sets : List (List UseId)) :
    (Partition.ofSets sets).sets.length ≤ sets.length := by
  rw [Partition.ofSets, length_quickSortBy, List.length_map]
  exact List.length_filter_le _ _

/-- A division has no more parts than it has colours, and at least a colour for its undisputed uses. -/
theorem length_divide_le_color (members : List UseId) (conflicts : List (UseId × UseId))
    (weight : UseId → UseId → Nat) : (divide members conflicts weight).parts.length ≤
      max 1 (color weight (eliminationOrder (disputes conflicts).length (disputes conflicts))).parts.length := by
  rw [divide_eq]
  refine (Partition.length_ofSets_le _).trans ?_
  rw [length_place, openedFor]
  split
  · exact Nat.le_max_left _ _
  · exact Nat.le_max_right _ _

/-- If every set of disputed uses has one with at most `degree` conflicts inside it, a division has at most one
part more, whatever the weights. So it has at most two parts when the conflicts form a forest. -/
theorem length_divide_le :
    (∀ degree, Degenerate conflicts degree →
      (divide members conflicts weight).parts.length ≤ degree + 1) ∧
      ((∀ c ∈ conflicts, c.1 ≠ c.2) → (conflictGraph conflicts).IsAcyclic →
        (divide members conflicts weight).parts.length ≤ 2) := by
  have bound : ∀ degree, Degenerate conflicts degree →
      (divide members conflicts weight).parts.length ≤ degree + 1 := by
    intro degree hdegenerate
    refine (length_divide_le_color members conflicts weight).trans (Nat.max_le.mpr ⟨by omega, ?_⟩)
    refine length_color_le (nodup_eliminationOrder conflicts).2 ?_
    refine length_others_le hdegenerate (exact_disputes conflicts) fun u hu => ?_
    rwa [map_use_disputes] at hu
  exact ⟨bound, fun hdistinct hforest => bound 1 (degenerate_of_isAcyclic hdistinct hforest)⟩

/-- A hub and a chain of four uses around it. -/
def fan : List (UseId × UseId) :=
  [(1, 2), (1, 3), (1, 4), (1, 5), (2, 3), (2, 5), (3, 4)]

/-- Every set of the fan's uses has one with at most two conflicts inside it, and the fan needs three parts. Where
all conflicts are with one use, two parts are enough although the links are with that use. -/
theorem length_divide_le_fan :
    (Degenerate fan 2 ∧ (divide [1, 2, 3, 4, 5] fan fun _ _ => 0).parts = [[1], [2, 4], [3, 5]] ∧
      (divide [1, 2, 3, 4, 5] fan fun _ _ => 0).parts.length ≤ 2 + 1) ∧
    ((conflictGraph [(2, 0), (1, 2), (2, 3)]).IsAcyclic ∧
      (divide [0, 1, 2, 3] [(2, 0), (1, 2), (2, 3)] fun _ v => if v = 2 then 9 else 0).parts.length ≤ 2) := by
  have degenerate : Degenerate fan 2 := by decide +kernel
  have star : conflictGraph [(2, 0), (1, 2), (2, 3)] ≤ SimpleGraph.starGraph 2 := by
    rintro u v ⟨hne, hclash⟩
    refine SimpleGraph.starGraph_adj.mpr ⟨hne, ?_⟩
    simp only [List.mem_cons, List.not_mem_nil, or_false, Prod.mk.injEq] at hclash
    grind
  have forest := (SimpleGraph.isAcyclic_starGraph 2).anti star
  refine ⟨⟨degenerate, by decide +kernel, ?_⟩, forest, ?_⟩
  · exact length_divide_le.1 2 degenerate
  · exact length_divide_le.2 (by decide) forest

end RegisterColoring
