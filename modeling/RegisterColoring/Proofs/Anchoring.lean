import RegisterColoring.Proofs.Refinement

/-! # Separation strands no use

Active linkages lead from every use of a joined set to every other. When the set is divided, its disputed uses are
coloured first. Of the others the one with the strongest links to a part goes next, so that as long as any use
waits, one is placed that has a link to the part it goes to. In the end links inside a part lead from every use of
the part to a disputed one, and separation leaves these links active.

* `Division.Connected`: links lead from every use to every other.
* `Division.Anchored`: links inside a part lead from a use to a disputed one.
* `Division.exists_link_of_first`: the use that is placed next has a link to the part it goes to.
* `Division.anchored_place`, `anchored_divide`: all uses of all parts are anchored.
* `Program.connected_joinedSet`: joined sets are connected.
* `Program.exists_disputed_of_anchored`: an anchored use stays with a disputed one.
* `anchored_separate`: no set that is left of a divided one is without a disputed use. -/

namespace RegisterColoring

namespace Division

variable {waiting part disputed : List UseId} {weight : UseId → UseId → Nat} {parts : List (List UseId)}
  {u : UseId}

/-! ## Links into parts -/

/-- Whether links lead from every use to every other: wherever the uses are cut in two, a link crosses. -/
def Connected (weight : UseId → UseId → Nat) (uses : List UseId) : Prop :=
  ∀ inside : UseId → Prop, (∃ v ∈ uses, inside v) → (∃ u ∈ uses, ¬ inside u) →
    ∃ u ∈ uses, ∃ v ∈ uses, ¬ inside u ∧ inside v ∧ 0 < weight u v

/-- Connection does not depend on the order of the uses. -/
theorem Connected.perm {uses uses' : List UseId} (h : Connected weight uses) (hperm : uses.Perm uses') :
    Connected weight uses' := by
  intro inside hinside houtside
  simp only [← hperm.mem_iff] at hinside houtside ⊢
  exact h inside hinside houtside

/-- Whether links inside a part lead from a use to a disputed one. -/
inductive Anchored (weight : UseId → UseId → Nat) (disputed part : List UseId) : UseId → Prop
  /-- A disputed use is an anchor. -/
  | anchor {u : UseId} (hu : u ∈ part) (hdisputed : u ∈ disputed) : Anchored weight disputed part u
  /-- A link to another use leads on from there. -/
  | link {u v : UseId} (hu : u ∈ part) (hv : Anchored weight disputed part v) (hne : v ≠ u)
      (hlink : 0 < weight u v) : Anchored weight disputed part u

theorem Anchored.mem (h : Anchored weight disputed part u) : u ∈ part := by
  cases h <;> assumption

/-- More uses in the part do no harm. -/
theorem Anchored.mono {part' : List UseId} (hsub : ∀ u ∈ part, u ∈ part') (h : Anchored weight disputed part u) :
    Anchored weight disputed part' u := by
  induction h with
  | anchor hu hdisputed => exact .anchor (hsub _ hu) hdisputed
  | link hu _ hne hlink ih => exact .link (hsub _ hu) ih hne hlink

/-- A use has a strength towards a part if it has a link to one of its uses. -/
theorem strength_pos_iff : 0 < strength weight u part ↔ ∃ v ∈ part, 0 < weight u v := by
  induction part with
  | nil => simp [strength]
  | cons a part ih =>
    rw [List.exists_mem_cons_iff, ← ih]
    show 0 < weight u a + strength weight u part ↔ _
    omega

/-- A use is placed in a part to which its links are strongest. -/
theorem placement_strongest (h : parts ≠ []) (weight : UseId → UseId → Nat) (u : UseId) :
    ∃ part, parts[(placement weight parts u).color]? = some part ∧
      (placement weight parts u).strength = strength weight u part ∧
      ∀ other ∈ parts, strength weight u other ≤ (placement weight parts u).strength := by
  have hoffers : offers weight u parts.zipIdx ≠ [] := by simpa [offers] using h
  obtain ⟨⟨color, best⟩, hbest⟩ := exists_leastBy? stronger hoffers
  obtain ⟨part, hpart, rfl⟩ := exists_of_mem_offers (leastBy?_mem hbest)
  rw [placement, hbest]
  refine ⟨part, List.mk_mem_zipIdx_iff_getElem?.mp hpart, rfl, fun other hother => ?_⟩
  obtain ⟨i, hi⟩ := List.mem_iff_getElem?.mp hother
  have offered : (i, strength weight u other) ∈ offers weight u parts.zipIdx :=
    List.mem_map.mpr ⟨(other, i), List.mk_mem_zipIdx_iff_getElem?.mpr hi, rfl⟩
  exact le_key_of_leastBy? (f := Prod.snd) (fun _ _ => decide_eq_true_iff) hbest offered

/-- As long as uses wait, the one that is placed next has a link to the part it goes to. -/
theorem exists_link_of_first (hconnected : Connected weight (waiting ++ parts.flatten))
    (hparts : parts.flatten ≠ []) (hnodup : (waiting ++ parts.flatten).Nodup) {p : Placement}
    (hp : leastBy? (fun a b : Placement => decide (b.strength < a.strength))
      (waiting.map (placement weight parts)) = some p) :
    ∃ part, parts[p.color]? = some part ∧ ∃ v ∈ part, v ≠ p.use ∧ 0 < weight p.use v := by
  obtain ⟨-, -, apart⟩ := List.nodup_append.mp hnodup
  obtain ⟨first, hfirst, rfl⟩ := List.mem_map.mp (leastBy?_mem hp)
  have hne : parts ≠ [] := fun hnil => hparts (by rw [hnil]; rfl)
  -- some use that waits has a link to a use that does not
  obtain ⟨u, hu, v, -, houtside, hinside, hlink⟩ := hconnected (· ∈ parts.flatten)
    (List.exists_mem_of_ne_nil _ hparts |>.imp fun v hv => ⟨List.mem_append_right _ hv, hv⟩)
    ⟨first, List.mem_append_left _ hfirst, fun hmem => apart first hfirst first hmem rfl⟩
  obtain ⟨other, hother, hv⟩ := List.mem_flatten.mp hinside
  have waits : u ∈ waiting := (List.mem_append.mp hu).resolve_right houtside
  -- so the strongest of all placements has some strength
  obtain ⟨-, -, -, best⟩ := placement_strongest hne weight u
  have strongest : (placement weight parts u).strength ≤ (placement weight parts first).strength :=
    le_key_of_leastBy? (f := Placement.strength) (fun _ _ => decide_eq_true_iff) hp (List.mem_map_of_mem waits)
  obtain ⟨part, hpart, hstrength, -⟩ := placement_strongest hne weight first
  have linked : 0 < strength weight first part := by
    rw [← hstrength]
    exact (strength_pos_iff.mpr ⟨v, hv, hlink⟩).trans_le ((best other hother).trans strongest)
  obtain ⟨w, hw, hlink⟩ := strength_pos_iff.mp linked
  rw [(placement_spec weight parts first).1]
  refine ⟨part, hpart, w, hw, ?_, hlink⟩
  rintro rfl
  exact apart w hfirst w (List.mem_flatten.mpr ⟨part, List.mem_of_getElem? hpart, hw⟩) rfl

/-! ## Anchored parts -/

/-- A use with a link to an anchored use of a part may be added to the part. -/
theorem anchored_modify {color : Nat} (h : ∀ part ∈ parts, ∀ v ∈ part, Anchored weight disputed part v)
    (hlink : ∃ part, parts[color]? = some part ∧ ∃ v ∈ part, v ≠ u ∧ 0 < weight u v) :
    ∀ part ∈ parts.modify color (· ++ [u]), ∀ v ∈ part, Anchored weight disputed part v := by
  intro part hpart
  obtain ⟨i, hi⟩ := List.mem_iff_getElem?.mp hpart
  rw [List.getElem?_modify] at hi
  obtain ⟨before, hbefore, rfl⟩ := Option.map_eq_some_iff.mp hi
  have anchored := h before (List.mem_of_getElem? hbefore)
  split
  · rename_i hcolor
    obtain ⟨part', hpart', v, hv, hne, hlink⟩ := hlink
    obtain rfl : before = part' := Option.some.inj (hbefore.symm.trans (hcolor ▸ hpart'))
    have kept : ∀ w ∈ before, Anchored weight disputed (before ++ [u]) w := fun w hw =>
      (anchored w hw).mono fun x => List.mem_append_left [u]
    intro w hw
    rcases List.mem_append.mp hw with hw | hw
    · exact kept w hw
    · rw [List.mem_singleton.mp hw]
      exact .link (List.mem_append_right before List.mem_cons_self) (kept v hv) hne hlink
  · exact anchored

/-- Placing connected uses keeps all uses of all parts anchored. -/
theorem anchored_place {steps : Nat} {c : Draft} (hconnected : Connected weight (waiting ++ c.parts.flatten))
    (hparts : c.parts.flatten ≠ []) (hnodup : (waiting ++ c.parts.flatten).Nodup)
    (h : ∀ part ∈ c.parts, ∀ u ∈ part, Anchored weight disputed part u) :
    ∀ part ∈ (place weight steps waiting c).parts, ∀ u ∈ part, Anchored weight disputed part u := by
  induction steps generalizing waiting c with
  | zero => exact h
  | succ steps ih =>
    rw [place]
    simp only
    split
    · exact h
    · rename_i p hp
      have hlink := exists_link_of_first hconnected hparts hnodup hp
      obtain ⟨u, hu, rfl⟩ := List.mem_map.mp (leastBy?_mem hp)
      have hcolor : (placement weight c.parts u).color < c.parts.length := by
        obtain ⟨part, hpart, -⟩ := hlink
        exact (List.getElem?_eq_some_iff.mp hpart).1
      rw [(placement_spec weight c.parts u).1] at hlink ⊢
      have handed := perm_handOver hu hcolor
      refine ih (hconnected.perm handed.symm) ?_ (handed.nodup_iff.mpr hnodup) (anchored_modify h hlink)
      exact List.ne_nil_of_mem ((perm_flatten_modify hcolor u).mem_iff.mpr List.mem_cons_self)

end Division

open Division

/-- When connected uses are divided, all uses of all parts are anchored. -/
theorem anchored_divide {members : List UseId} {conflicts : List (UseId × UseId)}
    {weight : UseId → UseId → Nat} (hmembers : members.Nodup)
    (hconflicts : ∀ c ∈ conflicts, c.1 ∈ members ∧ c.2 ∈ members) (hne : conflicts ≠ [])
    (hconnected : Connected weight members) :
    ∀ part ∈ (divide members conflicts weight).parts, ∀ u ∈ part,
      Anchored weight (conflicted conflicts) part u := by
  have whole := (perm_opened weight members conflicts).trans (perm_unconflicted_append hmembers hconflicts)
  have colored := (perm_color weight _).trans (nodup_eliminationOrder conflicts).1
  -- the coloured parts hold the disputed uses, and there are some
  obtain ⟨c, hc⟩ := List.exists_mem_of_ne_nil conflicts hne
  rw [← (openedFor_spec (unconflicted members (conflicted conflicts)) _).1] at colored
  have hsome := colored.mem_iff.mpr (mem_conflicted.mpr ⟨c, hc, .inl rfl⟩)
  rw [divide_eq]
  intro part hpart u hu
  obtain ⟨t, ht, -, rfl⟩ := Partition.mem_sets_ofSets.mp hpart
  refine Anchored.mono (fun v hv => mem_sortBy.mpr hv) ?_
  refine anchored_place (hconnected.perm whole.symm) (List.ne_nil_of_mem hsome) (whole.nodup_iff.mpr hmembers)
    (fun part hpart v hv => ?_) t ht u (mem_sortBy.mp hu)
  exact .anchor hv (colored.mem_iff.mp (List.mem_flatten.mpr ⟨part, hpart, hv⟩))

/-! ## Joined sets -/

/-- Whether a linkage joins two uses, in either direction. -/
def Linkage.Between (k : Linkage) (u v : UseId) : Prop :=
  k.first = u ∧ k.second = v ∨ k.first = v ∧ k.second = u

instance (k : Linkage) (u v : UseId) : Decidable (k.Between u v) :=
  inferInstanceAs (Decidable (_ ∨ _))

namespace Program

variable {m : Machine} {p : Program} {set part : List UseId} {u v : UseId}

/-- A use has links to the uses that active linkages join it with. -/
theorem linkCount_pos_iff (hu : u < p.uses.size) :
    0 < linkCount p.linkedUses u v ↔ ∃ k l, (k, l) ∈ p.activeLinkages ∧ k.Between u v := by
  rw [linkCount_eq_countP hu, List.countP_pos_iff]
  constructor
  · rintro ⟨⟨k, l⟩, hk, hlink⟩
    refine ⟨k, l, hk, ?_⟩
    unfold Linkage.Between
    grind
  · rintro ⟨k, l, hk, hlink⟩
    refine ⟨(k, l), hk, ?_⟩
    unfold Linkage.Between at hlink
    grind

/-- Joined sets are connected by the active linkages. -/
theorem connected_joinedSet (hends : p.missingEnd? = none) (hset : set ∈ p.joinedSets.sets) :
    Connected (linkCount p.linkedUses) set := by
  rintro inside ⟨v, hv, hinside⟩ ⟨u, hu, houtside⟩
  by_contra hnone
  -- without a link across, no linkage leads out of the uses inside
  have stays : ∀ k ∈ p.joiningLinkages, ∀ a b, k.Between b a → a ∈ set ∧ inside a → b ∈ set ∧ inside b := by
    rintro k hk a b hbetween ⟨ha, hinside⟩
    obtain ⟨⟨l, hl⟩, hfirst, hsecond⟩ := (mem_joiningLinkages hends).mp hk
    obtain ⟨t, ht, hends⟩ := exists_joinedSet_of_active hends hl hfirst hsecond
    obtain ⟨hat, hbt⟩ : a ∈ t ∧ b ∈ t := by
      rcases hbetween with ⟨rfl, rfl⟩ | ⟨rfl, rfl⟩
      · exact hends.symm
      · exact hends
    have hb : b ∈ set := (joins_joinedSets p).eq_of_mem ht hset hat ha ▸ hbt
    have linked := (linkCount_pos_iff ((joins_joinedSets p).lt_of_mem hset hb)).mpr ⟨k, l, hl, hbetween⟩
    exact ⟨hb, by_contra fun houtside => hnone ⟨b, hb, a, ha, houtside, hinside, linked⟩⟩
  have same : (v ∈ set ∧ inside v) = (u ∈ set ∧ inside u) :=
    eq_of_eqvGen_linked (f := fun w => w ∈ set ∧ inside w)
      (fun k hk => propext ⟨stays k hk _ _ (.inr ⟨rfl, rfl⟩), stays k hk _ _ (.inl ⟨rfl, rfl⟩)⟩)
      (eqvGen_of_joinedSet hends hset hv hu)
  exact houtside (same.mp ⟨hv, hinside⟩).2

/-! ## Links that stay -/

/-- A link inside a part stays active, and its ends stay in one set. -/
theorem exists_active_of_link (hp : p.ActiveInPlay) (hpart : part ∈ p.partsOf m) (hu : u ∈ part)
    (hv : v ∈ part) (hlink : 0 < linkCount p.linkedUses u v) :
    ∃ set ∈ (p.separate m p.joinedSets).partition.sets, u ∈ set ∧ v ∈ set ∧
      ∃ k ∈ (p.separate m p.joinedSets).program.linkages, k.state = .active ∧ k.Between u v := by
  obtain ⟨t, ht, hinside⟩ := exists_joinedSet_of_part hpart
  obtain ⟨k, l, hk, hbetween⟩ :=
    (linkCount_pos_iff ((joins_joinedSets p).lt_of_mem ht (hinside u hu))).mp hlink
  obtain ⟨hmem, hactive⟩ := exists_mem_activeLinkages.mp ⟨l, hk⟩
  have together : p.KeptTogether m k := by
    rcases hbetween with ⟨rfl, rfl⟩ | ⟨rfl, rfl⟩
    · exact ⟨part, hpart, hu, hv⟩
    · exact ⟨part, hpart, hv, hu⟩
  have stays := getElem?_separate_of_keptTogether hp (mem_activeLinkages.mp hk).1 together
  obtain ⟨set, hset, hfirst, hsecond⟩ := (keptTogether_iff hp hmem hactive).mp together
  refine ⟨set, hset, ?_, ?_, k, Array.mem_of_getElem? stays, hactive, hbetween⟩
  all_goals rcases hbetween with ⟨rfl, rfl⟩ | ⟨rfl, rfl⟩ <;> assumption

/-- Separation leaves an anchored use in one set with a disputed one. -/
theorem exists_disputed_of_anchored (hp : p.ActiveInPlay) (hpart : part ∈ p.partsOf m) {disputed : List UseId}
    (h : Anchored (linkCount p.linkedUses) disputed part u) :
    ∃ set ∈ (p.separate m p.joinedSets).partition.sets, u ∈ set ∧ ∃ v ∈ set, v ∈ disputed := by
  induction h with
  | @anchor u hu hdisputed =>
    obtain ⟨t, ht, hinside⟩ := exists_joinedSet_of_part hpart
    have inPlay := mem_flatten_joinedSets.mp (List.mem_flatten.mpr ⟨t, ht, hinside u hu⟩)
    obtain ⟨set, hset, hu⟩ := List.mem_flatten.mp ((perm_flatten_separate m p).mem_iff.mpr inPlay)
    exact ⟨set, hset, hu, u, hu, hdisputed⟩
  | link hu hv _ hlink ih =>
    -- the set of the use that the link leads to has both ends of the link
    obtain ⟨set, hset, hvset, w, hw, hdisputed⟩ := ih
    obtain ⟨t, ht, hut, hvt, -⟩ := exists_active_of_link hp hpart hu hv.mem hlink
    obtain rfl := (joins_separate m p).eq_of_mem hset ht hvset hvt
    exact ⟨set, hset, hut, w, hw, hdisputed⟩

/-- The sets that are divided are joined sets with conflicts. -/
theorem exists_of_mem_splits {d : DividedSet} (h : d ∈ (p.separate m p.joinedSets).splits) :
    ∃ set ∈ p.joinedSets.sets, p.conflictPairs m set ≠ [] ∧ d = p.divideSet m (linkCount p.linkedUses) set := by
  obtain ⟨hd, hconflicts⟩ := List.mem_filter.mp h
  rw [divided_separate] at hd
  obtain ⟨set, hset, rfl⟩ := List.mem_map.mp hd
  refine ⟨set, hset, fun hnil => ?_, rfl⟩
  simp [divideSet, hnil] at hconflicts

/-- All uses of a joined set with conflicts are anchored in their parts. -/
theorem anchored_divideSet (hends : p.missingEnd? = none) (hset : set ∈ p.joinedSets.sets)
    (hconflicts : p.conflictPairs m set ≠ [])
    (hpart : part ∈ (p.divideSet m (linkCount p.linkedUses) set).division.parts) (hu : u ∈ part) :
    Anchored (linkCount p.linkedUses) (conflicted (p.conflictPairs m set)) part u := by
  rw [divideSet] at hpart
  simp only [List.isEmpty_iff, hconflicts, if_false] at hpart
  exact anchored_divide ((p.normal_joinedSets.ascending set hset).imp Nat.ne_of_lt)
    (fun c hc => mem_conflictPairs hc) hconflicts (connected_joinedSet hends hset) part hpart u hu

/-- A disputed use conflicts with another use of its set. -/
theorem exists_conflict_of_disputed (hset : set ∈ p.joinedSets.sets)
    (h : u ∈ conflicted (p.conflictPairs m set)) : ∃ v ∈ set, v ≠ u ∧ p.conflict m u v = true := by
  have hself := not_clash_self (p := p) (m := m) ((p.normal_joinedSets.ascending set hset).imp Nat.ne_of_lt)
  obtain ⟨⟨a, b⟩, hc, rfl | rfl⟩ := mem_conflicted.mp h
  · refine ⟨b, (mem_conflictPairs hc).2, ?_, conflict_of_mem_conflictPairs hc⟩
    rintro rfl
    exact hself _ (.inl hc)
  · refine ⟨a, (mem_conflictPairs hc).1, ?_, conflict_comm.trans (conflict_of_mem_conflictPairs hc)⟩
    rintro rfl
    exact hself _ (.inl hc)

end Program

/-- Where every active linkage joins two uses in play, every set that is left of a divided one has a use that
conflicted with another use of the divided one. A use without conflicts keeps an active linkage to another use of
the set that it is left in. -/
theorem anchored_separate (m : Machine) {p : Program} (hp : p.ActiveInPlay) :
    let s := p.separate m p.joinedSets
    ∀ d ∈ s.splits, d.members ∈ p.joinedSets.sets ∧
      (∀ set ∈ s.partition.sets, ∀ u ∈ set, u ∈ d.members → (∀ v ∈ set, v ∈ d.members) ∧
        ∃ v ∈ set, ∃ w ∈ d.members, w ≠ v ∧ p.conflict m v w = true) ∧
      ∀ u ∈ d.members, (∀ v ∈ d.members, v ≠ u → p.conflict m u v = false) →
        ∃ set ∈ s.partition.sets, u ∈ set ∧ ∃ v ∈ set, v ≠ u ∧
          ∃ k ∈ s.program.linkages, k.state = .active ∧ k.Between u v := by
  dsimp only
  intro d hd
  obtain ⟨group, hgroup, hconflicts, rfl⟩ := Program.exists_of_mem_splits hd
  -- every use of the divided set is anchored in a part
  have anchored : ∀ u ∈ group, ∃ part ∈ p.partsOf m, Anchored (Program.linkCount p.linkedUses)
      (conflicted (p.conflictPairs m group)) part u := by
    intro u hu
    obtain ⟨part, hpart, hu⟩ := List.mem_flatten.mp ((Program.perm_flatten_divideSet hgroup).mem_iff.mpr hu)
    refine ⟨part, List.mem_flatMap.mpr ⟨_, List.mem_map_of_mem hgroup, hpart⟩, ?_⟩
    exact Program.anchored_divideSet hp.missingEnd? hgroup hconflicts hpart hu
  refine ⟨hgroup, fun set hset u hu hmember => ⟨fun v hv => ?_, ?_⟩, fun u hu hfree => ?_⟩
  · obtain ⟨t, ht, hinside⟩ := Program.exists_joinedSet_of_separate hp.missingEnd? hset
    rw [show (p.divideSet m _ group).members = group from rfl,
      (Program.joins_joinedSets p).eq_of_mem hgroup ht hmember (hinside u hu)]
    exact hinside v hv
  · obtain ⟨part, hpart, hanchored⟩ := anchored u hmember
    obtain ⟨t, ht, hut, v, hv, hdisputed⟩ := Program.exists_disputed_of_anchored hp hpart hanchored
    rw [(Program.joins_separate m p).eq_of_mem hset ht hu hut]
    exact ⟨v, hv, Program.exists_conflict_of_disputed hgroup hdisputed⟩
  · obtain ⟨part, hpart, hanchored⟩ := anchored u hu
    cases hanchored with
    | anchor _ hdisputed =>
      obtain ⟨v, hv, hne, hconflict⟩ := Program.exists_conflict_of_disputed hgroup hdisputed
      rw [hfree v hv hne] at hconflict
      cases hconflict
    | link hu hv hne hlink =>
      obtain ⟨set, hset, huset, hvset, hactive⟩ := Program.exists_active_of_link hp hpart hu hv.mem hlink
      exact ⟨set, hset, huset, _, hvset, hne, hactive⟩

/-- Uses 2 and 3 of the square are without conflicts. Each keeps a linkage to one of the other two. -/
theorem anchored_separate_square :
    let s := square.separate bytePairMachine square.joinedSets
    square.ActiveInPlay ∧ s.splits.map DividedSet.members = [[0, 1, 2, 3]] ∧
      s.partition.sets = [[0, 2], [1, 3]] ∧
      (∃ v ∈ [0, 2], ∃ w ∈ [0, 1, 2, 3], w ≠ v ∧ square.conflict bytePairMachine v w = true) ∧
      ∃ set ∈ s.partition.sets, 3 ∈ set ∧ ∃ v ∈ set, v ≠ 3 ∧
        ∃ k ∈ s.program.linkages, k.state = .active ∧ k.Between 3 v := by
  intro s
  have inPlay : square.ActiveInPlay := by decide +kernel
  have members : s.splits.map DividedSet.members = [[0, 1, 2, 3]] := by decide +kernel
  have sets : s.partition.sets = [[0, 2], [1, 3]] := by decide +kernel
  have divided : ∀ d ∈ s.splits, _ := anchored_separate bytePairMachine inPlay
  obtain ⟨d, hd, hmembers⟩ : ∃ d ∈ s.splits, d.members = [0, 1, 2, 3] := by
    rw [← List.mem_map, members]
    exact List.mem_cons_self
  obtain ⟨-, hsets, hfree⟩ := divided d hd
  rw [hmembers] at hsets hfree
  have half : [0, 2] ∈ s.partition.sets := by
    rw [sets]
    exact List.mem_cons_self
  refine ⟨inPlay, members, sets, ?_, hfree 3 (by decide) (by decide +kernel)⟩
  exact (hsets [0, 2] half 0 (by decide) (by decide)).2

end RegisterColoring
