import Mathlib.Order.Monotone.Basic
import RegisterColoring.Proofs.Division
import RegisterColoring.Proofs.Grouping

/-! # Division does not depend on numbers

Uses are compared by their numbers only where nothing else decides. So a division of uses that were given
other numbers in the same order is the same division, with the other numbers.

* `Draft.rename`, `Dispute.rename`: uses under other numbers.
* `Division.eliminationOrder_rename`, `Division.color_rename`, `Division.place_rename`: every stage commutes with
  a change of numbers.
* `mem_parts_divide_rename`: so does the whole division. -/

namespace RegisterColoring

/-! ## Lists under other numbers -/

section

variable {f : Nat → Nat} (hf : StrictMono f)
include hf

/-- Inserting commutes with a change of numbers. -/
theorem insertAscending_map (n : Nat) (l : List Nat) :
    insertAscending (f n) (l.map f) = (insertAscending n l).map f := by
  induction l with
  | nil => rfl
  | cons a l ih =>
    rw [List.map_cons, insertAscending, insertAscending, ih]
    simp only [hf.lt_iff_lt, hf.injective.eq_iff]
    split
    · rfl
    · split <;> rfl

/-- Unions commute with a change of numbers. -/
theorem unionAscending_map (l k : List Nat) :
    unionAscending (l.map f) (k.map f) = (unionAscending l k).map f := by
  induction l with
  | nil => rfl
  | cons a l ih =>
    show insertAscending (f a) (unionAscending (l.map f) (k.map f)) = _
    rw [ih, insertAscending_map hf]
    rfl

/-- Sorting commutes with a change of numbers. -/
theorem sortBy_before_map (l : List UseId) :
    sortBy Partition.before (l.map f) = (sortBy Partition.before l).map f := by
  have insert : ∀ (a : UseId) (l : List UseId), insertBy Partition.before (f a) (l.map f) =
      (insertBy Partition.before a l).map f := by
    intro a l
    induction l with
    | nil => rfl
    | cons b l ih =>
      rw [List.map_cons, insertBy, insertBy, ih]
      simp only [Partition.before, hf.lt_iff_lt]
      by_cases h : b < a <;> simp [h]
  induction l with
  | nil => rfl
  | cons a l ih =>
    rw [List.map_cons, sortBy, ih, insert]
    rfl

/-- Whether a list has an element does not depend on the numbers. -/
theorem contains_map (l : List Nat) (n : Nat) : (l.map f).contains (f n) = l.contains n := by
  rw [Bool.eq_iff_iff, List.contains_iff_mem, List.contains_iff_mem, List.mem_map]
  constructor
  · rintro ⟨m, hm, heq⟩
    exact hf.injective heq ▸ hm
  · exact fun hn => ⟨n, hn, rfl⟩

end

namespace Division

/-! ## Elimination -/

/-- A dispute under other numbers. -/
def Dispute.rename (f : UseId → UseId) (d : Dispute) : Dispute :=
  ⟨f d.use, d.others.map f⟩

section

variable {f : UseId → UseId} (hf : StrictMono f)
include hf

/-- The uses in conflict with a use, under other numbers. -/
theorem partners_rename (conflicts : List (UseId × UseId)) (u : UseId) :
    partners (conflicts.map (Prod.map f f)) (f u) = (partners conflicts u).map f := by
  have general : ∀ found : List UseId,
      (conflicts.map (Prod.map f f)).foldl (fun found c =>
        let found := if c.1 = f u then insertAscending c.2 found else found
        if c.2 = f u then insertAscending c.1 found else found) (found.map f) =
      (conflicts.foldl (fun found c =>
        let found := if c.1 = u then insertAscending c.2 found else found
        if c.2 = u then insertAscending c.1 found else found) found).map f := by
    induction conflicts with
    | nil => exact fun found => rfl
    | cons c conflicts ih =>
      intro found
      rw [List.map_cons, List.foldl_cons, List.foldl_cons, ← ih]
      simp only [Prod.map_fst, Prod.map_snd, hf.injective.eq_iff]
      split <;> split <;> simp only [insertAscending_map hf]
  exact general []

/-- The disputed uses, under other numbers. -/
theorem conflicted_rename (conflicts : List (UseId × UseId)) :
    conflicted (conflicts.map (Prod.map f f)) = (conflicted conflicts).map f := by
  have general : ∀ found : List UseId,
      (conflicts.map (Prod.map f f)).foldl
        (fun found c => insertAscending c.2 (insertAscending c.1 found)) (found.map f) =
      (conflicts.foldl (fun found c => insertAscending c.2 (insertAscending c.1 found)) found).map f := by
    induction conflicts with
    | nil => exact fun found => rfl
    | cons c conflicts ih =>
      intro found
      rw [List.map_cons, List.foldl_cons, List.foldl_cons, ← ih, ← insertAscending_map hf,
        ← insertAscending_map hf]
      rfl
  exact general []

/-- The disputes, under other numbers. -/
theorem disputes_rename (conflicts : List (UseId × UseId)) :
    disputes (conflicts.map (Prod.map f f)) = (disputes conflicts).map (Dispute.rename f) := by
  rw [disputes, disputes, conflicted_rename hf, List.map_map, List.map_map]
  refine List.map_congr_left fun u _ => ?_
  show (⟨f u, partners _ (f u)⟩ : Dispute) = ⟨f u, (partners conflicts u).map f⟩
  rw [partners_rename hf]

/-- Settling disputes commutes with a change of numbers. -/
theorem settle_rename (u : UseId) (pending : List Dispute) :
    settle (f u) (pending.map (Dispute.rename f)) = (settle u pending).map (Dispute.rename f) := by
  rw [settle, settle, List.filter_map, List.map_map, List.map_map]
  -- the disputes that stay are the same, and each loses the settled use
  have same : (fun d : Dispute => d.use != f u) ∘ Dispute.rename f = fun d => d.use != u := by
    funext d
    show (f d.use != f u) = (d.use != u)
    rw [Bool.eq_iff_iff, bne_iff_ne, bne_iff_ne, hf.injective.ne_iff]
  rw [same]
  refine List.map_congr_left fun d _ => ?_
  show (⟨f d.use, (d.others.map f).erase (f u)⟩ : Dispute) = ⟨f d.use, (d.others.erase u).map f⟩
  rw [List.map_erase hf.injective]

/-- The order of elimination commutes with a change of numbers. -/
theorem eliminationOrder_rename (steps : Nat) (pending : List Dispute) :
    eliminationOrder steps (pending.map (Dispute.rename f)) =
      (eliminationOrder steps pending).map (Dispute.rename f) := by
  induction steps generalizing pending with
  | zero => rfl
  | succ steps ih =>
    -- disputes are compared by how many uses are on the other side, whatever their numbers
    have least : leastBy? (fun a b => decide (a.others.length < b.others.length))
        (pending.map (Dispute.rename f)) =
        (leastBy? (fun a b => decide (a.others.length < b.others.length)) pending).map
          (Dispute.rename f) :=
      leastBy?_map (fun a b => by simp only [Dispute.rename, List.length_map]) pending
    rw [eliminationOrder, eliminationOrder, least]
    cases leastBy? (fun a b : Dispute => decide (a.others.length < b.others.length)) pending with
    | none => rfl
    | some d =>
      show d.rename f :: eliminationOrder steps (settle (f d.use) (pending.map (Dispute.rename f))) = _
      rw [settle_rename hf, ih]
      rfl

end

/-! ## Colours -/

/-- A draft under other numbers. -/
def Draft.rename (f : UseId → UseId) (c : Draft) : Draft :=
  ⟨c.parts.map (List.map f), c.peak⟩

/-- Adding a use to a part commutes with a change of numbers. -/
theorem modify_rename (f : UseId → UseId) (parts : List (List UseId)) (color : Nat) (u : UseId) :
    (parts.map (List.map f)).modify color (· ++ [f u]) =
      (parts.modify color (· ++ [u])).map (List.map f) := by
  refine List.ext_getElem? fun i => ?_
  simp only [List.getElem?_modify, List.getElem?_map]
  by_cases hi : color = i
  · cases parts[i]? <;> simp [hi]
  · simp [hi]

section

variable {f : UseId → UseId} (hf : StrictMono f) {weight weight' : UseId → UseId → Nat}
  (hweight : ∀ a b, weight' (f a) (f b) = weight a b)

include hweight

/-- Links are as strong under other numbers. -/
theorem strength_rename (u : UseId) (part : List UseId) :
    strength weight' (f u) (part.map f) = strength weight u part := by
  rw [strength, strength, List.map_map]
  refine congrArg (List.foldr (· + ·) 0) (List.map_congr_left fun v _ => ?_)
  exact hweight u v

/-- Offers are the same under other numbers. -/
theorem offers_rename (u : UseId) (parts : List (List UseId × Nat)) :
    offers weight' (f u) (parts.map fun x => (x.1.map f, x.2)) = offers weight u parts := by
  rw [offers, offers, List.map_map]
  refine List.map_congr_left fun x _ => ?_
  show (x.2, strength weight' (f u) (x.1.map f)) = (x.2, strength weight u x.1)
  rw [strength_rename hweight]

/-- The placement of a use, under other numbers. -/
theorem placement_rename (parts : List (List UseId)) (u : UseId) :
    placement weight' (parts.map (List.map f)) (f u) =
      ⟨f u, (placement weight parts u).color, (placement weight parts u).strength⟩ := by
  have offered : offers weight' (f u) (parts.map (List.map f)).zipIdx =
      offers weight u parts.zipIdx := by
    rw [List.zipIdx_map]
    exact offers_rename hweight u _
  rw [placement, placement, offered]
  split <;> rfl

include hf

/-- Colouring a use commutes with a change of numbers. -/
theorem colorOne_rename (d : Dispute) (c : Draft) :
    colorOne weight' (d.rename f) (c.rename f) = (colorOne weight d c).rename f := by
  -- the colours that are admissible do not depend on the numbers
  have admitted : ∀ part : List UseId, admits (d.others.map f) (part.map f) = admits d.others part := by
    intro part
    have same : (d.others.map f).contains ∘ f = d.others.contains :=
      funext fun u => contains_map hf d.others u
    rw [admits, admits, List.any_map, same]
  have offered : offers weight' (f d.use) ((c.parts.map (List.map f)).zipIdx.filter fun x =>
      admits (d.others.map f) x.1) =
      offers weight d.use (c.parts.zipIdx.filter fun x => admits d.others x.1) := by
    rw [List.zipIdx_map, List.filter_map, ← offers_rename hweight]
    refine congrArg (offers weight' (f d.use)) ?_
    refine congrArg₂ List.map rfl (List.filter_congr fun x _ => ?_)
    exact admitted x.1
  rw [colorOne, colorOne]
  simp only [Dispute.rename, Draft.rename, offered]
  split
  · rw [modify_rename]
  · simp

/-- The colouring of disputed uses commutes with a change of numbers. -/
theorem color_rename (order : List Dispute) :
    color weight' (order.map (Dispute.rename f)) = (color weight order).rename f := by
  induction order with
  | nil => rfl
  | cons d order ih =>
    show colorOne weight' (d.rename f) (color weight' (order.map (Dispute.rename f))) = _
    rw [ih, colorOne_rename hf hweight]
    rfl

/-- Placing uses commutes with a change of numbers. -/
theorem place_rename (steps : Nat) (waiting : List UseId) (c : Draft) :
    place weight' steps (waiting.map f) (c.rename f) = (place weight steps waiting c).rename f := by
  induction steps generalizing waiting c with
  | zero => rfl
  | succ steps ih =>
    -- colours and strengths are the same under other numbers, only the use that is placed has another
    let renamed (p : Placement) : Placement := ⟨f p.use, p.color, p.strength⟩
    have placements : (waiting.map f).map (placement weight' (c.rename f).parts) =
        (waiting.map (placement weight c.parts)).map renamed := by
      rw [List.map_map, List.map_map]
      refine List.map_congr_left fun u _ => ?_
      refine (placement_rename hweight c.parts u).trans ?_
      rw [Function.comp_apply]
      show _ = (⟨f (placement weight c.parts u).use, _, _⟩ : Placement)
      rw [(placement_spec weight c.parts u).1]
    have least : leastBy? (fun a b : Placement => decide (b.strength < a.strength))
        ((waiting.map (placement weight c.parts)).map renamed) =
        (leastBy? (fun a b => decide (b.strength < a.strength))
          (waiting.map (placement weight c.parts))).map renamed :=
      leastBy?_map (fun a b => rfl) _
    have peak : ∀ start, ((waiting.map (placement weight c.parts)).map renamed).foldl
        (fun peak p => max peak p.strength) start =
        (waiting.map (placement weight c.parts)).foldl (fun peak p => max peak p.strength) start := by
      intro start
      rw [List.foldl_map]
    rw [place, place]
    simp only [placements, least, peak]
    cases leastBy? (fun a b : Placement => decide (b.strength < a.strength))
        (waiting.map (placement weight c.parts)) with
    | none => rfl
    | some p =>
      simp only [Option.map_some]
      rw [← ih, ← List.map_erase hf.injective]
      refine congrArg (place weight' steps ((waiting.erase p.use).map f)) ?_
      exact congrArg₂ Draft.mk (modify_rename f c.parts p.color p.use) rfl

end

/-- The draft that undisputed uses are added to, under other numbers. -/
theorem openedFor_rename (f : UseId → UseId) (waiting : List UseId) (c : Draft) :
    openedFor (waiting.map f) (c.rename f) = (openedFor waiting c).rename f := by
  have same : ((c.rename f).parts.isEmpty && !(waiting.map f).isEmpty) =
      (c.parts.isEmpty && !waiting.isEmpty) := by
    rw [Draft.rename, List.isEmpty_map, List.isEmpty_map]
  rw [openedFor, openedFor, same]
  split <;> rfl

/-- The undisputed uses, under other numbers. -/
theorem unconflicted_rename {f : UseId → UseId} (hf : StrictMono f) (members disputed : List UseId) :
    unconflicted (members.map f) (disputed.map f) = (unconflicted members disputed).map f := by
  have same : (fun u => !(disputed.map f).contains u) ∘ f = fun u => !disputed.contains u :=
    funext fun u => congrArg (!·) (contains_map hf disputed u)
  rw [unconflicted, List.filter_map, same]
  exact unionAscending_map hf _ []

end Division

open Division in
/-- A division of uses under other numbers has the parts of the division, under these numbers. -/
theorem mem_parts_divide_rename {f : UseId → UseId} (hf : StrictMono f)
    {weight weight' : UseId → UseId → Nat} (hweight : ∀ a b, weight' (f a) (f b) = weight a b)
    {members : List UseId} {conflicts : List (UseId × UseId)} {part : List UseId} :
    part ∈ (divide (members.map f) (conflicts.map (Prod.map f f)) weight').parts ↔
      ∃ part' ∈ (divide members conflicts weight).parts, part = part'.map f := by
  rw [divide_eq, divide_eq]
  -- stage by stage, up to the normal form of the parts
  simp only [disputes_rename hf, conflicted_rename hf, unconflicted_rename hf, List.length_map,
    eliminationOrder_rename hf, color_rename hf hweight, openedFor_rename, place_rename hf hweight,
    Partition.mem_sets_ofSets]
  simp only [Draft.rename, List.mem_map]
  constructor
  · rintro ⟨_, ⟨t, ht, rfl⟩, hne, rfl⟩
    exact ⟨_, ⟨t, ht, fun hnil => hne (by rw [hnil]; rfl), rfl⟩, sortBy_before_map hf t⟩
  · rintro ⟨_, ⟨t, ht, hne, rfl⟩, rfl⟩
    exact ⟨_, ⟨t, ht, rfl⟩, fun hnil => hne (List.map_eq_nil_iff.mp hnil), sortBy_before_map hf t⟩

end RegisterColoring
