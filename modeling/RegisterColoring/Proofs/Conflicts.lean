import RegisterColoring.Proofs.Separation

/-! # Separation leaves no conflict

A use is coloured after the uses it still conflicted with when it was taken out, and keeps away from their
colours. So no part of a division holds both uses of a conflict. Linkages between parts are split, and what
they no longer join is in no set together: after separation no two uses of a set conflict.

* `Division.Clash`, `Division.Peaceful`: conflicts of uses, and parts that hold none.
* `Division.pairwise_eliminationOrder`: a use comes with all its conflicts to later ones.
* `Division.Peaceful.colorOne`, `Division.peaceful_color`, `Division.peaceful_place`: one use, and all of them.
* `peaceful_divide`: no part of a division holds both uses of a conflict.
* `Program.clash_conflictPairs`: all conflicts among some uses are found.
* `Program.exists_part_of_separate`: the sets after separation lie in parts.
* `Program.conflict_separate`: no two uses of a set conflict after separation. -/

namespace RegisterColoring

namespace Division

/-- Whether two uses are in conflict, in either order. -/
def Clash (conflicts : List (UseId × UseId)) (u v : UseId) : Prop :=
  (u, v) ∈ conflicts ∨ (v, u) ∈ conflicts

/-- Whether no part holds both uses of a conflict. -/
def Peaceful (conflicts : List (UseId × UseId)) (parts : List (List UseId)) : Prop :=
  ∀ part ∈ parts, ∀ u ∈ part, ∀ v ∈ part, ¬ Clash conflicts u v

variable {conflicts : List (UseId × UseId)} {weight : UseId → UseId → Nat} {u v : UseId}

theorem Clash.symm (h : Clash conflicts u v) : Clash conflicts v u :=
  Or.symm h

/-! ## Order of elimination -/

/-- The partners of a use are those it clashes with. -/
theorem mem_partners : v ∈ partners conflicts u ↔ Clash conflicts u v := by
  -- the partners that are found so far are kept on the way
  have general : ∀ found : List UseId, v ∈ conflicts.foldl (fun found c =>
      let found := if c.1 = u then insertAscending c.2 found else found
      if c.2 = u then insertAscending c.1 found else found) found ↔
      v ∈ found ∨ Clash conflicts u v := by
    induction conflicts with
    | nil => simp [Clash]
    | cons c conflicts ih =>
      intro found
      rw [List.foldl_cons, ih]
      obtain ⟨a, b⟩ := c
      simp only [Clash, List.mem_cons, Prod.mk.injEq]
      by_cases ha : a = u <;> by_cases hb : b = u <;> simp [ha, hb, eq_comm] <;> tauto
  rw [partners, general]
  simp

/-- Settled disputes are those of the other uses. -/
theorem mem_map_use_of_settle {pending : List Dispute} (h : v ∈ (settle u pending).map Dispute.use) :
    v ∈ pending.map Dispute.use ∧ v ≠ u := by
  obtain ⟨e, he, rfl⟩ := List.mem_map.mp h
  obtain ⟨d, hd, rfl⟩ := List.mem_map.mp he
  obtain ⟨hmem, hne⟩ := List.mem_filter.mp hd
  exact ⟨List.mem_map.mpr ⟨d, hmem, rfl⟩, bne_iff_ne.mp hne⟩

/-- Elimination takes out uses of the disputes only. -/
theorem mem_map_use_of_eliminationOrder {steps : Nat} {pending : List Dispute} {d : Dispute}
    (h : d ∈ eliminationOrder steps pending) : d.use ∈ pending.map Dispute.use := by
  induction steps generalizing pending with
  | zero => cases h
  | succ steps ih =>
    rw [eliminationOrder] at h
    split at h
    · cases h
    · rename_i e he
      rcases List.mem_cons.mp h with rfl | h
      · exact List.mem_map_of_mem (leastBy?_mem he)
      · exact (mem_map_use_of_settle (ih h)).1

/-- If disputes name all conflicts among their uses, a use that is taken out comes with all its conflicts to
those that are taken out later. -/
theorem pairwise_eliminationOrder {clash : UseId → UseId → Prop} {steps : Nat} {pending : List Dispute}
    (h : ∀ d ∈ pending, ∀ v ∈ pending.map Dispute.use, clash d.use v → v ∈ d.others) :
    (eliminationOrder steps pending).Pairwise fun d e => clash d.use e.use → e.use ∈ d.others := by
  induction steps generalizing pending with
  | zero => exact .nil
  | succ steps ih =>
    rw [eliminationOrder]
    split
    · exact .nil
    · rename_i d hd
      refine .cons (fun e he => ?_) (ih fun e he v hv hclash => ?_)
      · have later := mem_map_use_of_settle (mem_map_use_of_eliminationOrder he)
        exact h d (leastBy?_mem hd) e.use later.1
      · -- what is crossed out is the use that was taken out, and that is none of the later ones
        obtain ⟨before, hbefore, rfl⟩ := List.mem_map.mp he
        obtain ⟨hmem, hne⟩ := mem_map_use_of_settle hv
        have named := h before (List.mem_of_mem_filter hbefore) v hmem hclash
        exact (List.mem_erase_of_ne hne).mpr named

/-! ## Parts without conflicts -/

/-- A use may be added to a part in which it clashes with no use. -/
theorem Peaceful.modify {parts : List (List UseId)} {color : Nat} (h : Peaceful conflicts parts)
    (hself : ¬ Clash conflicts u u)
    (hfree : ∀ part, parts[color]? = some part → ∀ v ∈ part, ¬ Clash conflicts u v) :
    Peaceful conflicts (parts.modify color (· ++ [u])) := by
  intro part hpart
  obtain ⟨i, hi⟩ := List.mem_iff_getElem?.mp hpart
  rw [List.getElem?_modify] at hi
  obtain ⟨before, hbefore, rfl⟩ := Option.map_eq_some_iff.mp hi
  have peace := h before (List.mem_of_getElem? hbefore)
  split
  · rename_i hcolor
    have free := hfree before (hcolor ▸ hbefore)
    intro x hx y hy
    rw [List.mem_append, List.mem_singleton] at hx hy
    rcases hx with hx | rfl <;> rcases hy with hy | rfl
    · exact peace x hx y hy
    · exact fun hclash => free x hx hclash.symm
    · exact free y hy
    · exact hself
  · exact peace

/-- Colouring a use that comes with its conflicts to the uses so far keeps the peace. -/
theorem Peaceful.colorOne {d : Dispute} {c : Draft} (h : Peaceful conflicts c.parts)
    (hself : ¬ Clash conflicts d.use d.use)
    (hothers : ∀ v ∈ c.parts.flatten, Clash conflicts d.use v → v ∈ d.others) :
    Peaceful conflicts (colorOne weight d c).parts := by
  rw [Division.colorOne]
  split
  · rename_i color strength hleast
    obtain ⟨part, hpart, -⟩ := exists_of_mem_offers (leastBy?_mem hleast)
    obtain ⟨hzip, hadmits⟩ := List.mem_filter.mp hpart
    have hget : c.parts[color]? = some part := List.mk_mem_zipIdx_iff_getElem?.mp hzip
    refine h.modify hself fun part' hpart' v hv hclash => ?_
    obtain rfl : part = part' := Option.some.inj (hget.symm.trans hpart')
    have other := hothers v (List.mem_flatten.mpr ⟨part, List.mem_of_getElem? hget, hv⟩) hclash
    simp only [admits, Bool.not_eq_true', List.any_eq_false, List.contains_iff_mem] at hadmits
    exact hadmits v hv other
  · intro part hpart
    rcases List.mem_append.mp hpart with hpart | hpart
    · exact h part hpart
    · rw [List.mem_singleton.mp hpart]
      intro x hx y hy
      rw [List.mem_singleton.mp hx, List.mem_singleton.mp hy]
      exact hself

/-- Colouring uses that come with their conflicts to later ones keeps the peace. -/
theorem peaceful_color (hself : ∀ u, ¬ Clash conflicts u u) {order : List Dispute}
    (h : order.Pairwise fun d e => Clash conflicts d.use e.use → e.use ∈ d.others) :
    Peaceful conflicts (color weight order).parts := by
  induction order with
  | nil => exact fun part hpart => absurd hpart List.not_mem_nil
  | cons d order ih =>
    obtain ⟨hothers, hlater⟩ := List.pairwise_cons.mp h
    refine (ih hlater).colorOne (hself d.use) fun v hv hclash => ?_
    -- the parts so far hold the later uses
    obtain ⟨e, he, rfl⟩ := List.mem_map.mp ((perm_color weight order).mem_iff.mp hv)
    exact hothers e he hclash

/-- Placing uses that clash with none keeps the peace. -/
theorem peaceful_place {steps : Nat} {waiting : List UseId} {c : Draft} (h : Peaceful conflicts c.parts)
    (hwaiting : ∀ u ∈ waiting, ∀ v, ¬ Clash conflicts u v) :
    Peaceful conflicts (place weight steps waiting c).parts := by
  induction steps generalizing waiting c with
  | zero => exact h
  | succ steps ih =>
    rw [place]
    simp only
    split
    · exact h
    · rename_i p hp
      obtain ⟨u, hu, rfl⟩ := List.mem_map.mp (leastBy?_mem hp)
      rw [(placement_spec weight c.parts u).1]
      refine ih (h.modify (hwaiting u hu u) fun _ _ v _ => hwaiting u hu v) fun v hv => ?_
      exact hwaiting v (List.mem_of_mem_erase hv)

/-- Opening a part for the undisputed uses keeps the peace. -/
theorem Peaceful.openedFor {c : Draft} (h : Peaceful conflicts c.parts) (waiting : List UseId) :
    Peaceful conflicts (openedFor waiting c).parts := by
  rw [RegisterColoring.openedFor]
  split
  · intro part hpart
    rw [List.mem_singleton.mp hpart]
    exact fun u hu => absurd hu List.not_mem_nil
  · exact h

end Division

open Division in
/-- No part of a division holds both uses of a conflict. -/
theorem peaceful_divide {members : List UseId} {conflicts : List (UseId × UseId)}
    {weight : UseId → UseId → Nat} (hself : ∀ u, ¬ Clash conflicts u u) :
    Peaceful conflicts (divide members conflicts weight).parts := by
  have colored : Peaceful conflicts (color weight
      (eliminationOrder (disputes conflicts).length (disputes conflicts))).parts := by
    refine peaceful_color hself (pairwise_eliminationOrder fun d hd v _ hclash => ?_)
    obtain ⟨u, -, rfl⟩ := List.mem_map.mp hd
    exact mem_partners.mpr hclash
  have undisputed : ∀ u ∈ unconflicted members (conflicted conflicts), ∀ v, ¬ Clash conflicts u v := by
    intro u hu v hclash
    refine (mem_unconflicted.mp hu).2 (mem_conflicted.mpr ?_)
    rcases hclash with hclash | hclash
    · exact ⟨_, hclash, .inl rfl⟩
    · exact ⟨_, hclash, .inr rfl⟩
  rw [divide_eq]
  intro part hpart u hu v hv
  -- normal form only sorts the parts
  obtain ⟨t, ht, -, rfl⟩ := Partition.mem_sets_ofSets.mp hpart
  exact peaceful_place (colored.openedFor _) undisputed t ht u (mem_sortBy.mp hu) v (mem_sortBy.mp hv)

/-- The largest class inside two classes does not depend on their order. -/
theorem Machine.largestWithin?_comm (m : Machine) (c d : ClassId) :
    m.largestWithin? c d = m.largestWithin? d c := by
  rw [largestWithin?, largestWithin?]
  simp only [Bool.and_comm]

namespace Program

variable {m : Machine} {p : Program} {u v : UseId} {members : List UseId}

/-! ## Conflicts among uses -/

/-- Conflicts are mutual. -/
theorem conflict_comm : p.conflict m u v = p.conflict m v u := by
  rw [conflict, conflict]
  cases p.use? u with
  | none => cases p.use? v <;> rfl
  | some x =>
    cases p.use? v with
    | none => rfl
    | some y =>
      have slots : x.sharesSlot y = y.sharesSlot x := by
        rw [Use.sharesSlot, Use.sharesSlot, BEq.comm, BEq.comm (a := x.operation)]
      have classes : incompatible m x y = incompatible m y x := by
        rw [incompatible, incompatible]
        cases x.class? with
        | none => cases y.class? <;> rfl
        | some c =>
          cases y.class? with
          | none => rfl
          | some d => simp only [m.largestWithin?_comm c d]
      simp only [slots, classes]

/-- All conflicts among some uses are found. -/
theorem clash_conflictPairs (hu : u ∈ members) (hv : v ∈ members) (hne : u ≠ v)
    (h : p.conflict m u v = true) : Division.Clash (p.conflictPairs m members) u v := by
  induction members with
  | nil => cases hu
  | cons a rest ih =>
    have first : ∀ b ∈ rest, p.conflict m a b = true → (a, b) ∈ p.conflictPairs m (a :: rest) := by
      intro b hb hconflict
      exact List.mem_append_left _ (List.mem_map.mpr ⟨b, List.mem_filter.mpr ⟨hb, hconflict⟩, rfl⟩)
    rcases List.mem_cons.mp hu with rfl | hu' <;> rcases List.mem_cons.mp hv with rfl | hv'
    · exact absurd rfl hne
    · exact .inl (first v hv' h)
    · exact .inr (first u hu' (conflict_comm.trans h))
    · exact (ih hu' hv').imp (List.mem_append_right _) (List.mem_append_right _)

/-- What is found are conflicts. -/
theorem conflict_of_mem_conflictPairs {c : UseId × UseId} (h : c ∈ p.conflictPairs m members) :
    p.conflict m c.1 c.2 = true := by
  induction members with
  | nil => cases h
  | cons a rest ih =>
    rcases List.mem_append.mp h with h | h
    · obtain ⟨b, hb, rfl⟩ := List.mem_map.mp h
      exact (List.mem_filter.mp hb).2
    · exact ih h

/-- No use is found to conflict with itself. -/
theorem not_clash_self (h : members.Nodup) (u : UseId) :
    ¬ Division.Clash (p.conflictPairs m members) u u := by
  have apart : (u, u) ∉ p.conflictPairs m members := by
    induction members with
    | nil => exact List.not_mem_nil
    | cons a rest ih =>
      obtain ⟨ha, hrest⟩ := List.nodup_cons.mp h
      intro hmem
      rcases List.mem_append.mp hmem with hmem | hmem
      · obtain ⟨b, hb, heq⟩ := List.mem_map.mp hmem
        obtain ⟨rfl, rfl⟩ := Prod.mk.inj heq
        exact ha (List.mem_of_mem_filter hb)
      · exact ih hrest hmem
  exact not_or.mpr ⟨apart, apart⟩

/-- No two uses of a part conflict. -/
theorem conflict_of_mem_parts {weight : UseId → UseId → Nat} (hmembers : members.Nodup) {part : List UseId}
    (hpart : part ∈ (p.divideSet m weight members).division.parts) (hu : u ∈ part) (hv : v ∈ part)
    (hne : u ≠ v) : p.conflict m u v = false := by
  by_contra hconflict
  rw [Bool.not_eq_false] at hconflict
  rw [divideSet] at hpart
  simp only at hpart
  split at hpart
  · -- without conflicts the set is its only part
    rename_i hnone
    rw [List.mem_singleton.mp hpart] at hu hv
    have found := clash_conflictPairs hu hv hne hconflict
    rw [List.isEmpty_iff.mp hnone] at found
    rcases found with found | found <;> cases found
  · have inside : ∀ w ∈ part, w ∈ members := fun w hw =>
      (perm_divide hmembers fun c hc => mem_conflictPairs hc).mem_iff.mp
        (List.mem_flatten.mpr ⟨part, hpart, hw⟩)
    have found := clash_conflictPairs (inside u hu) (inside v hv) hne hconflict
    exact peaceful_divide (not_clash_self hmembers) part hpart u hu v hv found

/-! ## Separation -/

/-- No two uses of a part of the joined sets conflict. -/
theorem conflict_of_mem_partsOf {part : List UseId} (hpart : part ∈ p.partsOf m) (hu : u ∈ part)
    (hv : v ∈ part) (hne : u ≠ v) : p.conflict m u v = false := by
  obtain ⟨d, hd, hpart⟩ := List.mem_flatMap.mp hpart
  obtain ⟨set, hset, rfl⟩ := List.mem_map.mp hd
  exact conflict_of_mem_parts ((p.normal_joinedSets.ascending set hset).imp Nat.ne_of_lt) hpart hu hv hne

/-- The linkages that stay active are those that are not split. -/
theorem mem_activeLinkages_splitAll {ids : List LinkageId} {k : Linkage} {l : LinkageId} :
    (k, l) ∈ (p.splitAll ids).activeLinkages ↔ (k, l) ∈ p.activeLinkages ∧ l ∉ ids := by
  simp only [mem_activeLinkages, splitAll, getElem?_mapStates, Linkage.isActive_iff,
    Option.map_eq_some_iff, List.contains_iff_mem]
  constructor
  · rintro ⟨⟨k, hk, rfl⟩, hactive⟩
    by_cases hl : l ∈ ids
    · simp [hl] at hactive
    · simp only [hl, if_false] at hactive ⊢
      exact ⟨⟨hk, hactive⟩, not_false⟩
  · rintro ⟨⟨hk, hactive⟩, hl⟩
    exact ⟨⟨k, hk, by simp [hl]⟩, hactive⟩

/-- Splitting linkages leaves none with a missing end. -/
theorem missingEnd?_splitAll (h : p.missingEnd? = none) (ids : List LinkageId) :
    (p.splitAll ids).missingEnd? = none := by
  refine List.find?_eq_none.mpr fun u hu => ?_
  obtain ⟨⟨k, l⟩, hk, hu⟩ := List.mem_flatMap.mp hu
  exact List.find?_eq_none.mp h u (List.mem_flatMap.mpr ⟨(k, l), (mem_activeLinkages_splitAll.mp hk).1, hu⟩)

/-- Uses that are joined after the linkages between parts are split are in one part. -/
theorem indexOf?_eq_of_joined (hends : p.missingEnd? = none) {sets : Partition} {set : List UseId}
    (hset : set ∈ (p.splitAll (p.crossing sets)).joinedSets.sets) (hu : u ∈ set) (hv : v ∈ set) :
    sets.indexOf? u = sets.indexOf? v := by
  have hmissing := missingEnd?_splitAll hends (p.crossing sets)
  refine eq_of_eqvGen_linked (fun k hk => ?_) (eqvGen_of_joinedSet hmissing hset hu hv)
  -- a linkage that is still active did not cross the parts
  obtain ⟨⟨l, hl⟩, -, -⟩ := (mem_joiningLinkages hmissing).mp hk
  obtain ⟨hl, hkept⟩ := mem_activeLinkages_splitAll.mp hl
  by_contra hcross
  exact hkept (List.mem_map.mpr ⟨(k, l), List.mem_filter.mpr ⟨hl, bne_iff_ne.mpr hcross⟩, rfl⟩)

/-- After separation the uses of a set are in one part. -/
theorem exists_part_of_separate (hends : p.missingEnd? = none) {set : List UseId}
    (hset : set ∈ (p.separate m p.joinedSets).partition.sets) (hu : u ∈ set) (hv : v ∈ set) :
    ∃ part ∈ p.partsOf m, u ∈ part ∧ v ∈ part := by
  rw [separate] at hset
  split at hset
  · obtain ⟨t, ht, -, rfl⟩ := Partition.mem_sets_ofSets.mp hset
    exact ⟨t, ht, mem_sortBy.mp hu, mem_sortBy.mp hv⟩
  · have hperm := (Partition.perm_flatten_ofSets (p.partsOf m)).trans (perm_flatten_partsOf m p)
    have same := indexOf?_eq_of_joined hends hset hu hv
    have inPlay : u ∈ (p.splitAll (p.crossing (Partition.ofSets (p.partsOf m)))).usesInPlay :=
      mem_flatten_joinedSets.mp (List.mem_flatten.mpr ⟨set, hset, hu⟩)
    have covered := hperm.mem_iff.mpr (mem_flatten_joinedSets.mpr inPlay)
    rcases (Partition.indexOf?_eq_iff_of_nodup (hperm.nodup_iff.mpr p.nodup_flatten_joinedSets)).mp
      same with ⟨part, hpart, hboth⟩ | ⟨hnone, -⟩
    · obtain ⟨t, ht, -, rfl⟩ := Partition.mem_sets_ofSets.mp hpart
      exact ⟨t, ht, mem_sortBy.mp hboth.1, mem_sortBy.mp hboth.2⟩
    · exact absurd covered hnone

/-- After separation no two uses of a set conflict. -/
theorem conflict_separate (hends : p.EndsInRange) {set : List UseId}
    (hset : set ∈ (p.separate m p.joinedSets).partition.sets) (hu : u ∈ set) (hv : v ∈ set) (hne : u ≠ v) :
    p.conflict m u v = false := by
  obtain ⟨part, hpart, hu, hv⟩ := exists_part_of_separate (missingEnd?_eq_none hends) hset hu hv
  exact conflict_of_mem_partsOf hpart hu hv hne

end Program

end RegisterColoring
