import Mathlib.Order.WellFounded
import RegisterColoring.Proofs.Parts.Division
import RegisterColoring.Proofs.Parts.Shows
import RegisterColoring.Proofs.Separation

/-! # Parts of a program

A part of a program has some of its uses, with all linkages at them, under numbers of its own. Where no
other use is in a block of the part, an attempt on the whole does with the part what an attempt on the
part alone does. Here this is shown for joining and separation.

* `Program.Embeds f h q p`: `q` is a part of `p`, with the numbers `f` for uses and `h` for linkages.
* `Program.Embeds.root_eq_iff`: uses of the part are joined in the part or not at all.
* `Program.Embeds.exists_set`, `Program.Embeds.map_mem_sets`: sets of joined uses with a use of the part are
  sets of the part.
* `Program.Embeds.keptTogether_iff`: what stays together does so in the part and in the whole.
* `Program.Embeds.separate`: separation keeps a part a part. -/

namespace RegisterColoring

/-- A linkage of uses under other numbers. -/
def Linkage.rename (f : UseId → UseId) (k : Linkage) : Linkage :=
  { k with first := f k.first, second := f k.second }

/-- Different linkages stay different under other numbers. -/
theorem Linkage.rename_injective {f : UseId → UseId} (hf : Function.Injective f) :
    Function.Injective (Linkage.rename f) := by
  rintro ⟨first, second, state⟩ ⟨first', second', state'⟩ h
  simp only [Linkage.rename, Linkage.mk.injEq] at h
  rw [hf h.1, hf h.2.1, h.2.2]

namespace Program

/-- A program is part of another: its uses and linkages are some of the other's, under numbers that keep
their order. Beyond the ends of the part the numbers are beyond the ends of the whole. -/
structure Embeds (f : UseId → UseId) (h : LinkageId → LinkageId) (q p : Program) : Prop where
  /-- Uses keep their order. -/
  uses_mono : StrictMono f
  /-- Linkages keep their order. -/
  linkages_mono : StrictMono h
  /-- Uses of the part are uses of the whole. -/
  use?_eq : ∀ u, p.use? (f u) = q.use? u
  /-- Linkages of the part are linkages of the whole. -/
  linkage_eq : ∀ l, p.linkages[h l]? = q.linkages[l]?.map (Linkage.rename f)
  /-- The part has all linkages at its uses. -/
  closed : ∀ l k, p.linkages[l]? = some k → (∃ u, k.first = f u ∨ k.second = f u) → ∃ l', l = h l'
  /-- The part has all uses in its blocks. -/
  alone : ∀ u v a b, p.position? (f u) = some a → p.position? v = some b → a.block = b.block →
    ∃ w, v = f w

namespace Embeds

variable {f : UseId → UseId} {h : LinkageId → LinkageId} {m : Machine} {q p : Program}

/-! ## Uses and linkages of a part -/

/-- A use of the part is in memory if it is so in the whole. -/
theorem isInMemory_eq (e : Embeds f h q p) (u : UseId) : p.isInMemory (f u) = q.isInMemory u := by
  rw [isInMemory, isInMemory, e.use?_eq]

/-- A use of the part is where it is in the whole. -/
theorem position?_eq (e : Embeds f h q p) (u : UseId) : p.position? (f u) = q.position? u := by
  rw [position?, position?, e.use?_eq]

/-- Uses of the part are there if they are there in the whole. -/
theorem lt_iff (e : Embeds f h q p) {u : UseId} : f u < p.uses.size ↔ u < q.uses.size := by
  have := e.use?_eq u
  rw [use?, use?] at this
  constructor
  · intro hu
    rw [Array.getElem?_eq_getElem hu] at this
    exact (Array.getElem?_eq_some_iff.mp this.symm).1
  · intro hu
    rw [Array.getElem?_eq_getElem hu] at this
    exact (Array.getElem?_eq_some_iff.mp this).1

/-- A part has no more uses and linkages than the whole. -/
theorem size_le (e : Embeds f h q p) :
    q.uses.size ≤ p.uses.size ∧ q.linkages.size ≤ p.linkages.size := by
  constructor
  · refine Nat.le_of_not_lt fun hlt => ?_
    exact Nat.lt_irrefl _ (Nat.lt_of_le_of_lt e.uses_mono.le_apply (e.lt_iff.mpr hlt))
  · refine Nat.le_of_not_lt fun hlt => ?_
    have hget := e.linkage_eq p.linkages.size
    rw [Array.getElem?_eq_getElem hlt, Option.map_some] at hget
    exact Nat.lt_irrefl _
      (Nat.lt_of_le_of_lt e.linkages_mono.le_apply (Array.getElem?_eq_some_iff.mp hget).1)

theorem mem_usesInPlay_iff (e : Embeds f h q p) {u : UseId} :
    f u ∈ p.usesInPlay ↔ u ∈ q.usesInPlay := by
  rw [mem_usesInPlay, mem_usesInPlay, e.lt_iff, e.isInMemory_eq]

/-- A linkage of the whole at a use of the part is a linkage of the part. -/
theorem exists_linkage (e : Embeds f h q p) {k : Linkage} {l : LinkageId} (hk : p.linkages[l]? = some k)
    (hend : ∃ u, k.first = f u ∨ k.second = f u) :
    ∃ k' l', k = k'.rename f ∧ l = h l' ∧ q.linkages[l']? = some k' := by
  obtain ⟨l', rfl⟩ := e.closed l k hk hend
  rw [e.linkage_eq] at hk
  obtain ⟨k', hk', rfl⟩ := Option.map_eq_some_iff.mp hk
  exact ⟨k', l', rfl, rfl, hk'⟩

/-- Linkages of the part are active if they are so in the whole. -/
theorem mem_activeLinkages_iff (e : Embeds f h q p) {k : Linkage} {l : LinkageId} :
    (k.rename f, h l) ∈ p.activeLinkages ↔ (k, l) ∈ q.activeLinkages := by
  rw [mem_activeLinkages, mem_activeLinkages, e.linkage_eq]
  refine and_congr_left fun _ => ?_
  rw [Option.map_eq_some_iff]
  constructor
  · rintro ⟨k', hk', heq⟩
    rwa [← Linkage.rename_injective e.uses_mono.injective heq]
  · exact fun hk => ⟨k, hk, rfl⟩

/-- An active linkage of the whole at a use of the part is an active linkage of the part. -/
theorem exists_activeLinkage (e : Embeds f h q p) {k : Linkage} {l : LinkageId}
    (hk : (k, l) ∈ p.activeLinkages) (hend : ∃ u, k.first = f u ∨ k.second = f u) :
    ∃ k' l', k = k'.rename f ∧ l = h l' ∧ (k', l') ∈ q.activeLinkages := by
  obtain ⟨k', l', rfl, rfl, -⟩ := e.exists_linkage (mem_activeLinkages.mp hk).1 hend
  exact ⟨k', l', rfl, rfl, e.mem_activeLinkages_iff.mp hk⟩

/-- A linkage of the part is one of the whole. -/
theorem rename_mem (e : Embeds f h q p) {k : Linkage} (hk : k ∈ q.linkages) :
    k.rename f ∈ p.linkages := by
  obtain ⟨l, hl⟩ := Array.mem_iff_getElem?.mp hk
  refine Array.mem_of_getElem? (i := h l) ?_
  rw [e.linkage_eq, hl, Option.map_some]

/-- In a part, linkages join uses of the part. -/
theorem endsInRange (e : Embeds f h q p) (hends : p.EndsInRange) : q.EndsInRange := by
  intro k hk
  obtain ⟨hfirst, hsecond⟩ := hends _ (e.rename_mem hk)
  exact ⟨e.lt_iff.mp hfirst, e.lt_iff.mp hsecond⟩

/-- A part of a settled program is settled. -/
theorem settled (e : Embeds f h q p) (hsettled : p.Settled) : q.Settled := by
  intro k hk hstate
  rw [← e.isInMemory_eq, ← e.isInMemory_eq]
  exact hsettled _ (e.rename_mem hk) hstate

/-- A part stays a part when both programs change the states of its linkages and the state of its uses in
the same way. -/
theorem congr {q' p' : Program} (e : Embeds f h q p) (hshape : p.SameShape p')
    (huse : ∀ u, p'.use? (f u) = q'.use? u) (hposition : ∀ v, p'.position? v = p.position? v)
    (hlinkage : ∀ l, p'.linkages[h l]? = q'.linkages[l]?.map (Linkage.rename f)) :
    Embeds f h q' p' where
  uses_mono := e.uses_mono
  linkages_mono := e.linkages_mono
  use?_eq := huse
  linkage_eq := hlinkage
  closed l k' hk' hend := by
    obtain ⟨k, hk, hfirst, hsecond⟩ := hshape.exists_linkage hk'
    rw [← hfirst, ← hsecond] at hend
    exact e.closed l k hk hend
  alone u v a b := by
    rw [hposition, hposition]
    exact e.alone u v a b

/-- Making split linkages active again keeps a part a part. -/
theorem resetSplits (e : Embeds f h q p) : Embeds f h q.resetSplits p.resetSplits := by
  refine e.congr (.mapStates p _) e.use?_eq (fun _ => rfl) fun l => ?_
  rw [Program.resetSplits, Program.resetSplits, getElem?_mapStates, getElem?_mapStates, e.linkage_eq,
    Option.map_map, Option.map_map]
  rfl

/-! ## Joined uses of a part -/

/-- Joining linkages of the part are those of the whole at uses of the part. -/
theorem mem_joiningLinkages_iff (e : Embeds f h q p) {k : Linkage} :
    k.rename f ∈ p.joiningLinkages ↔ k ∈ q.joiningLinkages := by
  rw [joiningLinkages, joiningLinkages, List.mem_filter, List.mem_filter, joins, joins]
  show _ ∧ (!p.isInMemory (f k.first) && !p.isInMemory (f k.second)) = true ↔ _
  rw [e.isInMemory_eq, e.isInMemory_eq]
  refine and_congr_left fun _ => ?_
  simp only [List.mem_map, Prod.exists, exists_and_right, exists_eq_right]
  constructor
  · rintro ⟨l, hl⟩
    obtain ⟨k', l', heq, rfl, hk'⟩ := e.exists_activeLinkage hl ⟨k.first, .inl rfl⟩
    rw [Linkage.rename_injective e.uses_mono.injective heq]
    exact ⟨l', hk'⟩
  · rintro ⟨l, hl⟩
    exact ⟨h l, e.mem_activeLinkages_iff.mpr hl⟩

/-- A joining linkage of the whole at a use of the part is one of the part. -/
theorem exists_joiningLinkage (e : Embeds f h q p) {k : Linkage} (hk : k ∈ p.joiningLinkages)
    (hend : ∃ u, k.first = f u ∨ k.second = f u) : ∃ k' ∈ q.joiningLinkages, k = k'.rename f := by
  obtain ⟨⟨_, l⟩, hl, rfl⟩ := List.mem_map.mp (List.mem_of_mem_filter hk)
  obtain ⟨k', l', rfl, -, -⟩ := e.exists_activeLinkage hl hend
  exact ⟨k', e.mem_joiningLinkages_iff.mp hk, rfl⟩

/-- Chains of joining linkages stay inside the part or outside. -/
theorem eqvGen_linked (e : Embeds f h q p) {x y : UseId}
    (hxy : Relation.EqvGen (Linked p.joiningLinkages) x y) :
    ((∃ u, x = f u) ↔ ∃ v, y = f v) ∧
      ∀ u v, x = f u → y = f v → Relation.EqvGen (Linked q.joiningLinkages) u v := by
  induction hxy with
  | rel x y hlinked =>
    -- a linkage with one end in the part has the other one there too
    obtain ⟨k, hk, rfl, rfl⟩ := hlinked
    constructor
    · constructor
      · rintro ⟨u, hu⟩
        obtain ⟨k', -, rfl⟩ := e.exists_joiningLinkage hk ⟨u, .inl hu⟩
        exact ⟨_, rfl⟩
      · rintro ⟨v, hv⟩
        obtain ⟨k', -, rfl⟩ := e.exists_joiningLinkage hk ⟨v, .inr hv⟩
        exact ⟨_, rfl⟩
    · intro u v hu hv
      obtain ⟨k', hk', rfl⟩ := e.exists_joiningLinkage hk ⟨u, .inl hu⟩
      exact .rel _ _ ⟨k', hk', e.uses_mono.injective hu, e.uses_mono.injective hv⟩
  | refl x =>
    refine ⟨Iff.rfl, fun u v hu hv => ?_⟩
    rw [e.uses_mono.injective (hu.symm.trans hv)]
    exact .refl v
  | symm x y _ ih => exact ⟨ih.1.symm, fun u v hu hv => .symm _ _ (ih.2 v u hv hu)⟩
  | trans x y z _ _ ih ih' =>
    refine ⟨ih.1.trans ih'.1, fun u w hu hw => ?_⟩
    -- the use in between is in the part as well
    obtain ⟨v, hv⟩ := ih.1.mp ⟨u, hu⟩
    exact .trans _ _ _ (ih.2 u v hu hv) (ih'.2 v w hv hw)

/-- A chain of joining linkages of the part is one of the whole. -/
theorem eqvGen_linked_rename (e : Embeds f h q p) {u v : UseId}
    (huv : Relation.EqvGen (Linked q.joiningLinkages) u v) :
    Relation.EqvGen (Linked p.joiningLinkages) (f u) (f v) := by
  induction huv with
  | rel u v hlinked =>
    obtain ⟨k, hk, rfl, rfl⟩ := hlinked
    exact .rel _ _ ⟨k.rename f, e.mem_joiningLinkages_iff.mpr hk, rfl, rfl⟩
  | refl u => exact .refl _
  | symm u v _ ih => exact .symm _ _ ih
  | trans u v w _ _ ih ih' => exact .trans _ _ _ ih ih'

/-- Uses of the part are joined in the whole if and only if they are joined in the part. -/
theorem root_eq_iff (e : Embeds f h q p) (hends : p.EndsInRange) {u v : UseId} (hu : u < q.uses.size)
    (hv : v < q.uses.size) :
    p.joined.root (f u) = p.joined.root (f v) ↔ q.joined.root u = q.joined.root v := by
  have whole := endsBelow_joiningLinkages (missingEnd?_eq_none hends)
  have part := endsBelow_joiningLinkages (missingEnd?_eq_none (e.endsInRange hends))
  rw [joined, joined, root_unite_eq_iff whole (e.lt_iff.mpr hu) (e.lt_iff.mpr hv),
    root_unite_eq_iff part hu hv]
  exact ⟨fun hxy => (e.eqvGen_linked hxy).2 u v rfl rfl, e.eqvGen_linked_rename⟩

/-- What is joined with a use of the part is a use of the part. -/
theorem exists_of_root_eq (e : Embeds f h q p) (hends : p.EndsInRange) {x u : UseId}
    (hx : x < p.uses.size) (hu : u < q.uses.size) (hroot : p.joined.root x = p.joined.root (f u)) :
    ∃ v, x = f v := by
  have whole := endsBelow_joiningLinkages (missingEnd?_eq_none hends)
  rw [joined, root_unite_eq_iff whole hx (e.lt_iff.mpr hu)] at hroot
  exact (e.eqvGen_linked hroot).1.mpr ⟨u, rfl⟩

/-! ## Sets of joined uses -/

/-- Where both partitions are the joined uses of their programs, a set of the whole with a use of the part
is a set of the part. -/
theorem exists_set (e : Embeds f h q p) (hends : p.EndsInRange) {whole part : Partition}
    (hwhole : whole.Joins p) (hpart : part.Joins q) {set : List UseId} (hset : set ∈ whole.sets)
    {u : UseId} (hu : f u ∈ set) : ∃ t ∈ part.sets, set = t.map f := by
  obtain ⟨w, -, hiff⟩ := hwhole.sorted.mem_iff set hset
  obtain ⟨hplay, hroot⟩ := (hiff (f u)).mp hu
  have hplay' := e.mem_usesInPlay_iff.mp hplay
  obtain ⟨t, ht, hut⟩ := hpart.sorted.covered u hplay'
  obtain ⟨w', -, hiff'⟩ := hpart.sorted.mem_iff t ht
  have hroot' := ((hiff' u).mp hut).2
  -- both sets are ascending, so that it is enough for them to have the same uses
  have ascending : (t.map f).Pairwise (· < ·) :=
    (hpart.normal.ascending t ht).map f fun _ _ hlt => e.uses_mono hlt
  refine ⟨t, ht, (hwhole.normal.ascending set hset).eq_of_mem_iff ascending fun x => ?_⟩
  rw [hiff, ← hroot, List.mem_map]
  constructor
  · rintro ⟨hx, hxu⟩
    obtain ⟨v, rfl⟩ := e.exists_of_root_eq hends (mem_usesInPlay.mp hx).1 (mem_usesInPlay.mp hplay').1 hxu
    have hv := e.mem_usesInPlay_iff.mp hx
    refine ⟨v, (hiff' v).mpr ⟨hv, ?_⟩, rfl⟩
    rw [← hroot']
    exact (e.root_eq_iff hends (mem_usesInPlay.mp hv).1 (mem_usesInPlay.mp hplay').1).mp hxu
  · rintro ⟨v, hv, rfl⟩
    obtain ⟨hplayv, hrootv⟩ := (hiff' v).mp hv
    refine ⟨e.mem_usesInPlay_iff.mpr hplayv, ?_⟩
    rw [← hroot'] at hrootv
    exact (e.root_eq_iff hends (mem_usesInPlay.mp hplayv).1 (mem_usesInPlay.mp hplay').1).mpr hrootv

/-- Where both partitions are the joined uses of their programs, a set of the part is a set of the
whole. -/
theorem map_mem_sets (e : Embeds f h q p) (hends : p.EndsInRange) {whole part : Partition}
    (hwhole : whole.Joins p) (hpart : part.Joins q) {t : List UseId} (ht : t ∈ part.sets) :
    t.map f ∈ whole.sets := by
  obtain ⟨u, hu, hiff⟩ := hpart.sorted.mem_iff t ht
  obtain ⟨set, hset, hmem⟩ := hwhole.sorted.covered (f u) (e.mem_usesInPlay_iff.mpr hu)
  obtain ⟨t', ht', rfl⟩ := e.exists_set hends hwhole hpart hset hmem
  obtain ⟨v, hv, heq⟩ := List.mem_map.mp hmem
  rw [e.uses_mono.injective heq] at hv
  rwa [hpart.eq_of_mem ht ht' ((hiff u).mpr ⟨hu, rfl⟩) hv]

/-! ## Separation of a part -/

/-- The active linkages of the whole show those of the part. -/
theorem shows_activeLinkages (e : Embeds f h q p) :
    Shows (fun x y => x = (y.1.rename f, h y.2)) (fun x => ¬ ∃ u, x.1.first = f u ∨ x.1.second = f u)
      p.activeLinkages q.activeLinkages := by
  refine .of_sorted e.linkages_mono (pairwise_activeLinkages p) (pairwise_activeLinkages q) ?_ ?_ ?_
  · rintro _ ⟨k, l⟩ - - rfl
    exact ⟨rfl, not_not_intro ⟨k.first, .inl rfl⟩⟩
  · rintro ⟨k, l⟩ hk
    refine or_iff_not_imp_left.mpr fun hend => ?_
    obtain ⟨k', l', rfl, rfl, hk'⟩ := e.exists_activeLinkage hk (not_not.mp hend)
    exact ⟨(k', l'), hk', rfl⟩
  · rintro ⟨k, l⟩ hk
    exact ⟨_, e.mem_activeLinkages_iff.mpr hk, rfl⟩

/-- Two uses of the part are linked as often in the part as in the whole. -/
theorem linkCount_eq (e : Embeds f h q p) (u v : UseId) :
    linkCount p.linkedUses (f u) (f v) = linkCount q.linkedUses u v := by
  by_cases hu : u < q.uses.size
  · rw [linkCount_eq_countP (e.lt_iff.mpr hu), linkCount_eq_countP hu]
    -- both are counts over active linkages, and hidden ones have no end in the part
    refine e.shows_activeLinkages.countP ?_ ?_
    · rintro _ ⟨k, l⟩ rfl
      simp only [Linkage.rename, e.uses_mono.injective.eq_iff]
      split
      · simp [e.uses_mono.injective.eq_iff]
      · split <;> simp [e.uses_mono.injective.eq_iff]
    · rintro ⟨k, l⟩ hk
      have hfirst : k.first ≠ f u := fun heq => hk ⟨u, .inl heq⟩
      have hsecond : k.second ≠ f u := fun heq => hk ⟨u, .inr heq⟩
      simp [hfirst, hsecond]
  · rw [linkCount_eq_zero hu, linkCount_eq_zero fun hlt => hu (e.lt_iff.mp hlt)]

/-- Uses of the part conflict in the part if they do in the whole. -/
theorem conflictPairs_map (e : Embeds f h q p) (members : List UseId) :
    p.conflictPairs m (members.map f) = (q.conflictPairs m members).map (Prod.map f f) := by
  induction members with
  | nil => rfl
  | cons u rest ih =>
    have same : p.conflict m (f u) ∘ f = q.conflict m u := by
      funext v
      simp only [Function.comp, conflict, e.use?_eq]
    rw [List.map_cons, conflictPairs, conflictPairs, ih, List.map_append, List.filter_map, same, List.map_map,
      List.map_map]
    rfl

/-- A set of the part is divided as in the whole. -/
theorem mem_parts_divideSet_iff (e : Embeds f h q p) {members part : List UseId} :
    part ∈ (p.divideSet m (linkCount p.linkedUses) (members.map f)).division.parts ↔
      ∃ part' ∈ (q.divideSet m (linkCount q.linkedUses) members).division.parts, part = part'.map f := by
  rw [divideSet, divideSet]
  simp only [e.conflictPairs_map, List.isEmpty_map]
  split
  · simp
  · exact mem_parts_divide_rename e.uses_mono e.linkCount_eq

/-- The ends of a linkage of the part are in one part of the part if they are so in the whole. -/
theorem keptTogether_iff (e : Embeds f h q p) (hends : p.EndsInRange) {k : Linkage} :
    p.KeptTogether m (k.rename f) ↔ q.KeptTogether m k := by
  have whole := joins_joinedSets p
  have part := joins_joinedSets q
  simp only [KeptTogether, partsOf, List.mem_flatMap, List.mem_map, exists_exists_and_eq_and]
  constructor
  · rintro ⟨_, ⟨set, hset, hparts⟩, hfirst, hsecond⟩
    -- the set that was divided has a use of the part, so that it is one of the part
    have hmem : f k.first ∈ set :=
      (perm_flatten_divideSet hset).mem_iff.mp (List.mem_flatten.mpr ⟨_, hparts, hfirst⟩)
    obtain ⟨t, ht, rfl⟩ := e.exists_set hends whole part hset hmem
    obtain ⟨part', hpart', rfl⟩ := e.mem_parts_divideSet_iff.mp hparts
    rw [Linkage.rename, List.mem_map_of_injective e.uses_mono.injective] at hfirst hsecond
    exact ⟨part', ⟨t, ht, hpart'⟩, hfirst, hsecond⟩
  · rintro ⟨part', ⟨t, ht, hpart'⟩, hfirst, hsecond⟩
    exact ⟨part'.map f, ⟨t.map f, e.map_mem_sets hends whole part ht,
      e.mem_parts_divideSet_iff.mpr ⟨part', hpart', rfl⟩⟩, List.mem_map_of_mem hfirst,
      List.mem_map_of_mem hsecond⟩

open Classical in
/-- Separation of a settled program keeps a part a part. -/
theorem separate (e : Embeds f h q p) (hsettled : p.Settled) (hends : p.EndsInRange) :
    Embeds f h (q.separate m q.joinedSets).program (p.separate m p.joinedSets).program := by
  refine e.congr (.separate m p _) (fun u => ?_) (fun v => ?_) fun l => ?_
  · rw [use?, use?, uses_separate, uses_separate]
    exact e.use?_eq u
  · rw [position?, position?, use?, use?, uses_separate]
  · rw [getElem?_linkages_separate (missingEnd?_eq_none hends) hsettled.isInMemory_ends,
      getElem?_linkages_separate (missingEnd?_eq_none (e.endsInRange hends))
        (e.settled hsettled).isInMemory_ends, e.linkage_eq, Option.map_map, Option.map_map]
    -- a linkage is split for the same reason in both
    refine congrArg (fun g => q.linkages[l]?.map g) (funext fun k => ?_)
    simp only [Function.comp, e.keptTogether_iff hends]
    simp only [Linkage.rename, e.isInMemory_eq]

end Embeds

end Program

end RegisterColoring
