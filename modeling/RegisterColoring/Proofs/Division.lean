import Mathlib.Data.List.Nodup
import Mathlib.Data.List.Perm.Subperm
import RegisterColoring.Grouping.Division
import RegisterColoring.Proofs.Lists

/-! # Division loses no use

Colouring the disputed uses and placing the others hands every use to exactly one part, so that the parts
of a division are a partition of its members and the uses of its conflicts. No link strength that is weighed
on the way adds up links to one use twice.

* `Division.perm_colorOne`, `Division.perm_place`: what one use, and all that wait, are handed to.
* `perm_divide_append`, `perm_divide`: the parts of a division together are its uses.
* `peak_divide_le`: a bound on the strengths of links between its uses bounds its peak. -/

namespace RegisterColoring

namespace Division

/-! ## Order of elimination -/

/-- The disputed uses are those of the conflicts. -/
theorem mem_conflicted {conflicts : List (UseId × UseId)} {u : UseId} :
    u ∈ conflicted conflicts ↔ ∃ c ∈ conflicts, u = c.1 ∨ u = c.2 := by
  -- the uses that are found so far are kept on the way
  have general : ∀ found : List UseId, u ∈ conflicts.foldl (fun found c =>
      insertAscending c.2 (insertAscending c.1 found)) found ↔
      u ∈ found ∨ ∃ c ∈ conflicts, u = c.1 ∨ u = c.2 := by
    induction conflicts with
    | nil => simp
    | cons c conflicts ih =>
      intro found
      rw [List.foldl_cons, ih]
      simp only [mem_insertAscending, List.mem_cons, exists_eq_or_imp]
      rw [or_comm (a := u = c.1), or_comm (a := u = c.2), or_assoc, or_assoc, or_assoc]
  rw [conflicted, general]
  simp

/-- Disputed uses are listed in strictly ascending order. -/
theorem pairwise_conflicted (conflicts : List (UseId × UseId)) :
    (conflicted conflicts).Pairwise (· < ·) := by
  refine List.foldlRecOn conflicts _ .nil fun found h c _ => ?_
  exact pairwise_insertAscending (pairwise_insertAscending h)

/-- The uses of the disputes are the disputed ones. -/
theorem map_use_disputes (conflicts : List (UseId × UseId)) :
    (disputes conflicts).map Dispute.use = conflicted conflicts := by
  rw [disputes, List.map_map]
  exact (List.map_congr_left fun _ _ => rfl).trans (List.map_id _)

/-- Settling the disputes of a use takes that use away. -/
theorem map_use_settle {pending : List Dispute} (h : (pending.map Dispute.use).Nodup) (u : UseId) :
    (settle u pending).map Dispute.use = (pending.map Dispute.use).erase u := by
  rw [settle, List.map_map, h.erase_eq_filter, List.filter_map]
  rfl

/-- Settling the disputes of a use leaves fewer. -/
theorem length_settle_lt {pending : List Dispute} {d : Dispute} (h : d ∈ pending) :
    (settle d.use pending).length < pending.length := by
  rw [settle, List.length_map, List.length_filter_lt_length_iff_exists]
  exact ⟨d, h, by simp⟩

/-- Elimination takes out every use once. -/
theorem perm_eliminationOrder {steps : Nat} {pending : List Dispute}
    (h : (pending.map Dispute.use).Nodup) (hsteps : pending.length ≤ steps) :
    ((eliminationOrder steps pending).map Dispute.use).Perm (pending.map Dispute.use) := by
  induction steps generalizing pending with
  | zero =>
    obtain rfl := List.length_eq_zero_iff.mp (Nat.le_zero.mp hsteps)
    exact .refl _
  | succ steps ih =>
    rw [eliminationOrder]
    split
    · rename_i hnone
      rw [leastBy?_eq_none_iff.mp hnone, List.map_nil]
    · rename_i d hd
      -- one use is taken out, and the others keep their order
      have hmem : d.use ∈ pending.map Dispute.use := List.mem_map_of_mem (leastBy?_mem hd)
      have settled := map_use_settle h d.use
      have fewer := length_settle_lt (leastBy?_mem hd)
      have later := ih (settled ▸ h.erase _) (Nat.le_of_lt_succ (Nat.lt_of_lt_of_le fewer hsteps))
      rw [List.map_cons]
      exact (later.cons d.use).trans (settled ▸ (List.perm_cons_erase hmem).symm)

/-! ## Parts -/

/-- Adding a use to one of some parts adds it to what they hold together. -/
theorem perm_flatten_modify {parts : List (List UseId)} {color : Nat} (h : color < parts.length)
    (u : UseId) : (parts.modify color (· ++ [u])).flatten.Perm (u :: parts.flatten) := by
  induction parts generalizing color with
  | nil => cases h
  | cons part parts ih =>
    cases color with
    | zero =>
      rw [List.modify_zero_cons, List.flatten_cons, List.flatten_cons, List.append_assoc]
      exact List.perm_middle
    | succ color =>
      rw [List.modify_succ_cons, List.flatten_cons, List.flatten_cons]
      exact ((ih (Nat.lt_of_succ_lt_succ h)).append_left part).trans List.perm_middle

/-- What is offered are colours of parts. -/
theorem exists_of_mem_offers {weight : UseId → UseId → Nat} {u : UseId}
    {parts : List (List UseId × Nat)} {offer : Nat × Nat} (h : offer ∈ offers weight u parts) :
    ∃ part, (part, offer.1) ∈ parts ∧ offer.2 = strength weight u part := by
  obtain ⟨⟨part, color⟩, hmem, rfl⟩ := List.mem_map.mp h
  exact ⟨part, hmem, rfl⟩

/-- A use that is coloured is handed to one part. -/
theorem perm_colorOne (weight : UseId → UseId → Nat) (d : Dispute) (c : Draft) :
    (colorOne weight d c).parts.flatten.Perm (d.use :: c.parts.flatten) := by
  rw [colorOne]
  split
  · rename_i color strength hleast
    obtain ⟨part, hpart, -⟩ := exists_of_mem_offers (leastBy?_mem hleast)
    exact perm_flatten_modify (List.snd_lt_of_mem_zipIdx (List.mem_of_mem_filter hpart)) d.use
  · rw [List.flatten_append, List.flatten_singleton]
    exact List.perm_append_singleton _ _

/-- The parts of a colouring together hold the uses that were coloured. -/
theorem perm_color (weight : UseId → UseId → Nat) (order : List Dispute) :
    (color weight order).parts.flatten.Perm (order.map Dispute.use) := by
  induction order with
  | nil => exact .refl _
  | cons d order ih => exact (perm_colorOne weight d _).trans (ih.cons d.use)

/-- A use is placed as itself, in one of the parts if there is any. -/
theorem placement_spec (weight : UseId → UseId → Nat) (parts : List (List UseId)) (u : UseId) :
    (placement weight parts u).use = u ∧
      (parts ≠ [] → (placement weight parts u).color < parts.length) ∧
      ((placement weight parts u).strength = 0 ∨
        ∃ part ∈ parts, (placement weight parts u).strength = strength weight u part) := by
  rw [placement]
  split
  · rename_i color strength hleast
    obtain ⟨part, hpart, hstrength⟩ := exists_of_mem_offers (leastBy?_mem hleast)
    exact ⟨rfl, fun _ => List.snd_lt_of_mem_zipIdx hpart,
      .inr ⟨part, List.fst_mem_of_mem_zipIdx hpart, hstrength⟩⟩
  · exact ⟨rfl, fun hne => List.length_pos_iff.mpr hne, .inl rfl⟩

/-- A use that is placed no longer waits. -/
theorem perm_handOver {waiting : List UseId} {parts : List (List UseId)} {u : UseId} {color : Nat}
    (hu : u ∈ waiting) (hcolor : color < parts.length) :
    (waiting.erase u ++ (parts.modify color (· ++ [u])).flatten).Perm (waiting ++ parts.flatten) := by
  calc (waiting.erase u ++ (parts.modify color (· ++ [u])).flatten).Perm
        (waiting.erase u ++ u :: parts.flatten) := (perm_flatten_modify hcolor u).append_left _
    _ |>.Perm (u :: (waiting.erase u ++ parts.flatten)) := List.perm_middle
    _ |>.Perm (waiting ++ parts.flatten) := (List.perm_cons_erase hu).symm.append_right _

/-- Placing hands every use that waits to one part. -/
theorem perm_place {weight : UseId → UseId → Nat} {steps : Nat} {waiting : List UseId} {c : Draft}
    (h : waiting ≠ [] → c.parts ≠ []) (hsteps : waiting.length ≤ steps) :
    (place weight steps waiting c).parts.flatten.Perm (waiting ++ c.parts.flatten) := by
  induction steps generalizing waiting c with
  | zero =>
    obtain rfl := List.length_eq_zero_iff.mp (Nat.le_zero.mp hsteps)
    exact .refl _
  | succ steps ih =>
    rw [place]
    simp only
    split
    · rename_i hnone
      rw [List.map_eq_nil_iff.mp (leastBy?_eq_none_iff.mp hnone)]
      exact .refl _
    · rename_i p hp
      obtain ⟨u, hu, rfl⟩ := List.mem_map.mp (leastBy?_mem hp)
      obtain ⟨huse, hcolor, -⟩ := placement_spec weight c.parts u
      -- the part that the use goes to is there, since one was opened for the uses that wait
      have hparts : c.parts ≠ [] := h (List.ne_nil_of_mem hu)
      rw [huse]
      refine (ih (fun _ => ?_) ?_).trans (perm_handOver hu (hcolor hparts))
      · rwa [ne_eq, List.modify_eq_nil_iff]
      · rw [List.length_erase_of_mem hu]
        omega

/-- The undisputed uses are the members that are not disputed. -/
theorem mem_unconflicted {members disputed : List UseId} {u : UseId} :
    u ∈ unconflicted members disputed ↔ u ∈ members ∧ u ∉ disputed := by
  simp [unconflicted]

/-! ## Strengths -/

section

variable {weight : UseId → UseId → Nat} {bound : Nat}

/-- The largest of some numbers is within a bound that all of them keep. -/
theorem foldl_max_le {α : Type} {f : α → Nat} {l : List α} {start : Nat} (hstart : start ≤ bound)
    (h : ∀ a ∈ l, f a ≤ bound) : l.foldl (fun peak a => max peak (f a)) start ≤ bound := by
  induction l generalizing start with
  | nil => exact hstart
  | cons a l ih =>
    have first : max start (f a) ≤ bound := Nat.max_le.mpr ⟨hstart, h a List.mem_cons_self⟩
    exact ih first fun b hb => h b (List.mem_cons_of_mem a hb)

/-- Colouring a use weighs its links to parts only. -/
theorem peak_colorOne_le (d : Dispute) {c : Draft} (hpeak : c.peak ≤ bound)
    (hparts : ∀ part ∈ c.parts, strength weight d.use part ≤ bound) :
    (colorOne weight d c).peak ≤ bound := by
  have weighed : max c.peak (peakOf (offers weight d.use (c.parts.zipIdx.filter fun x =>
      admits d.others x.1))) ≤ bound := by
    refine Nat.max_le.mpr ⟨hpeak, foldl_max_le (Nat.zero_le bound) fun offer hmem => ?_⟩
    obtain ⟨part, hpart, hoffer⟩ := exists_of_mem_offers hmem
    rw [hoffer]
    exact hparts part (List.fst_mem_of_mem_zipIdx (List.mem_of_mem_filter hpart))
  rw [colorOne]
  split <;> exact weighed

/-- No part of a draft repeats a use when the draft as a whole does not. -/
theorem nodup_of_mem_parts {parts : List (List UseId)} (h : parts.flatten.Nodup) {part : List UseId}
    (hpart : part ∈ parts) : part.Nodup :=
  (List.nodup_flatten.mp h).1 part hpart

/-- A bound on the strengths of links between some uses bounds what is weighed while they are coloured. -/
theorem peak_color_le {uses : List UseId}
    (hbound : ∀ u part, (u :: part).Subperm uses → strength weight u part ≤ bound)
    {order : List Dispute} (h : (order.map Dispute.use).Subperm uses) :
    (color weight order).peak ≤ bound := by
  induction order with
  | nil => exact Nat.zero_le bound
  | cons d order ih =>
    refine peak_colorOne_le d (ih (List.Subperm.cons_self.trans h)) fun part hpart => hbound d.use part ?_
    -- the parts so far hold the later uses, each of them once
    have later : part.Subperm (order.map Dispute.use) :=
      (List.sublist_flatten_of_mem hpart).subperm.trans (perm_color weight order).subperm
    exact ((List.subperm_cons d.use).mpr later).trans h

/-- The same while uses are placed. -/
theorem peak_place_le {uses : List UseId}
    (hbound : ∀ u part, (u :: part).Subperm uses → strength weight u part ≤ bound) {steps : Nat}
    {waiting : List UseId} {c : Draft} (hparts : waiting ≠ [] → c.parts ≠ []) (hpeak : c.peak ≤ bound)
    (h : (waiting ++ c.parts.flatten).Subperm uses) : (place weight steps waiting c).peak ≤ bound := by
  induction steps generalizing waiting c with
  | zero => exact hpeak
  | succ steps ih =>
    rw [place]
    simp only
    split
    · exact hpeak
    · rename_i p hp
      obtain ⟨u, hu, rfl⟩ := List.mem_map.mp (leastBy?_mem hp)
      obtain ⟨huse, hcolor, -⟩ := placement_spec weight c.parts u
      have hne : c.parts ≠ [] := hparts (List.ne_nil_of_mem hu)
      rw [huse]
      refine ih (fun _ => ?_) ?_ ((perm_handOver hu (hcolor hne)).subperm.trans h)
      · rwa [ne_eq, List.modify_eq_nil_iff]
      · -- the strengths that are weighed are those of the placements, each to a part
        refine foldl_max_le hpeak fun q hq => ?_
        obtain ⟨v, hv, rfl⟩ := List.mem_map.mp hq
        obtain ⟨-, -, hzero | ⟨part, hpart, hstrength⟩⟩ := placement_spec weight c.parts v
        · rw [hzero]
          exact Nat.zero_le bound
        · rw [hstrength]
          refine hbound v part (.trans ?_ h)
          exact ((List.singleton_sublist.mpr hv).append (List.sublist_flatten_of_mem hpart)).subperm

end

end Division

/-! ## Whole divisions -/

section

open Division

/-- Normal form keeps what some sets hold together. -/
theorem Partition.perm_flatten_ofSets (sets : List (List UseId)) :
    (Partition.ofSets sets).sets.flatten.Perm sets.flatten := by
  refine ((quickSortBy_perm _ _).flatten).trans ?_
  induction sets with
  | nil => exact .refl _
  | cons set sets ih =>
    cases set with
    | nil => exact ih
    | cons u set => exact (sortBy_perm before (u :: set)).append ih

variable {members : List UseId} {conflicts : List (UseId × UseId)} {weight : UseId → UseId → Nat}

/-- The draft that the undisputed uses are added to: the coloured parts, and an empty one if there are
none. -/
def openedFor (waiting : List UseId) (c : Draft) : Draft :=
  if c.parts.isEmpty && !waiting.isEmpty then { c with parts := [[]] } else c

/-- Opening a part for the undisputed uses changes nothing else. -/
theorem openedFor_spec (waiting : List UseId) (c : Draft) :
    (openedFor waiting c).parts.flatten = c.parts.flatten ∧ (openedFor waiting c).peak = c.peak ∧
      (waiting ≠ [] → (openedFor waiting c).parts ≠ []) := by
  rw [openedFor]
  split
  · rename_i hempty
    have hnil : c.parts = [] := List.isEmpty_iff.mp (Bool.and_eq_true_iff.mp hempty).1
    exact ⟨by rw [hnil]; rfl, rfl, fun _ => List.cons_ne_nil _ _⟩
  · rename_i hopen
    refine ⟨rfl, rfl, fun hwaiting hparts => hopen ?_⟩
    rw [hparts, List.isEmpty_nil, Bool.true_and, Bool.not_eq_true', List.isEmpty_eq_false_iff]
    exact hwaiting

/-- How a division comes about: the disputed uses are coloured in the order of elimination, and the others
are placed. -/
theorem divide_eq : divide members conflicts weight =
    let colored := color weight (eliminationOrder (disputes conflicts).length (disputes conflicts))
    let waiting := unconflicted members (conflicted conflicts)
    let placed := place weight waiting.length waiting (openedFor waiting colored)
    ⟨(Partition.ofSets placed.parts).sets, placed.peak⟩ := by
  rw [divide, map_use_disputes]
  rfl

/-- No use is taken out twice. -/
theorem nodup_eliminationOrder (conflicts : List (UseId × UseId)) :
    ((eliminationOrder (disputes conflicts).length (disputes conflicts)).map Dispute.use).Perm
        (conflicted conflicts) ∧
      ((eliminationOrder (disputes conflicts).length (disputes conflicts)).map Dispute.use).Nodup := by
  have hnodup : ((disputes conflicts).map Dispute.use).Nodup := by
    rw [map_use_disputes]
    exact (pairwise_conflicted conflicts).imp Nat.ne_of_lt
  have taken := perm_eliminationOrder hnodup (Nat.le_refl _)
  exact ⟨map_use_disputes conflicts ▸ taken, taken.nodup_iff.mpr hnodup⟩

/-- No use is both undisputed and disputed, and none is listed twice. -/
theorem nodup_unconflicted_append (members : List UseId) (conflicts : List (UseId × UseId)) :
    (unconflicted members (conflicted conflicts) ++ conflicted conflicts).Nodup := by
  have waiting : (unconflicted members (conflicted conflicts)).Nodup :=
    (pairwise_unionAscending .nil).imp Nat.ne_of_lt
  have disputed : (conflicted conflicts).Nodup := (pairwise_conflicted conflicts).imp Nat.ne_of_lt
  refine List.nodup_append.mpr ⟨waiting, disputed, ?_⟩
  rintro u hu _ hv rfl
  exact (mem_unconflicted.mp hu).2 hv

/-- The undisputed and the disputed uses are the members and the uses of the conflicts. -/
theorem mem_unconflicted_append {u : UseId} :
    u ∈ unconflicted members (conflicted conflicts) ++ conflicted conflicts ↔
      u ∈ members ∨ u ∈ conflicted conflicts := by
  rw [List.mem_append, mem_unconflicted]
  tauto

/-- The undisputed and the disputed uses together are the members. -/
theorem perm_unconflicted_append (hmembers : members.Nodup)
    (hconflicts : ∀ c ∈ conflicts, c.1 ∈ members ∧ c.2 ∈ members) :
    (unconflicted members (conflicted conflicts) ++ conflicted conflicts).Perm members := by
  -- neither side repeats a use, so that it is enough for them to have the same ones
  refine (List.perm_ext_iff_of_nodup (nodup_unconflicted_append members conflicts) hmembers).mpr fun u => ?_
  rw [mem_unconflicted_append]
  refine or_iff_left_of_imp fun hu => ?_
  obtain ⟨c, hc, rfl | rfl⟩ := mem_conflicted.mp hu
  · exact (hconflicts c hc).1
  · exact (hconflicts c hc).2

/-- The uses that wait and the coloured parts together are the undisputed and the disputed uses. -/
theorem perm_opened (weight : UseId → UseId → Nat) (members : List UseId)
    (conflicts : List (UseId × UseId)) :
    let waiting := unconflicted members (conflicted conflicts)
    (waiting ++ (openedFor waiting (color weight (eliminationOrder (disputes conflicts).length
      (disputes conflicts)))).parts.flatten).Perm (waiting ++ conflicted conflicts) := by
  intro waiting
  rw [(openedFor_spec waiting _).1]
  exact .append_left waiting ((perm_color weight _).trans (nodup_eliminationOrder conflicts).1)

/-- The parts of a division together are the undisputed and the disputed uses. -/
theorem perm_divide_append : (divide members conflicts weight).parts.flatten.Perm
    (unconflicted members (conflicted conflicts) ++ conflicted conflicts) := by
  rw [divide_eq]
  refine (Partition.perm_flatten_ofSets _).trans ?_
  refine (perm_place (openedFor_spec _ _).2.2 (Nat.le_refl _)).trans ?_
  exact perm_opened weight members conflicts

/-- The parts of a division of uses that its conflicts are between together are these uses. -/
theorem perm_divide (hmembers : members.Nodup)
    (hconflicts : ∀ c ∈ conflicts, c.1 ∈ members ∧ c.2 ∈ members) :
    (divide members conflicts weight).parts.flatten.Perm members :=
  perm_divide_append.trans (perm_unconflicted_append hmembers hconflicts)

/-- What bounds the strengths of links between the uses of a division bounds its peak. -/
theorem peak_divide_le {bound : Nat}
    (hbound : ∀ u part,
      (u :: part).Subperm (unconflicted members (conflicted conflicts) ++ conflicted conflicts) →
        strength weight u part ≤ bound) : (divide members conflicts weight).peak ≤ bound := by
  have whole := (perm_opened weight members conflicts).subperm
  rw [divide_eq]
  refine peak_place_le hbound (openedFor_spec _ _).2.2 ?_ whole
  rw [(openedFor_spec _ _).2.1]
  refine peak_color_le hbound ((nodup_eliminationOrder conflicts).1.subperm.trans ?_)
  exact (List.sublist_append_right _ _).subperm

end

end RegisterColoring
