import Mathlib.Data.Sym.Sym2
import RegisterColoring.Proofs.Anchoring

/-! # Joined sets are connected components

Uses are joined along the active linkages one after another, and which use stands for a set on the way depends on
the order of the linkages and on the sizes of the sets. What is left of that in the end are the connected
components of the uses in play, in normal form. Two programs with the same uses in play and the same pairs of
adjacent uses have the same components, so the order of the linkages and the order of their ends do not count.

* `Program.Adjacent`: an active linkage joins two uses in play.
* `Program.chained_iff`: chains of adjacent uses are what the linkages that join generate.
* `Partition.IsComponents`: a partition lists the connected components of a program.
* `Partition.IsComponents.unique`: there is one such partition.
* `Program.isComponents_joinedSets`: the joined sets are it.
* `Linkage.unordered`, `Program.Rearranged`: linkages without the order of their ends, and without their own.
* `components_joinedSets`: the joined sets are the components, whatever the order of linkages and ends. -/

namespace RegisterColoring

/-! ## Chains of linkages -/

namespace Program

variable {p q : Program} {u v : UseId}

/-- Whether an active linkage joins two uses, in either direction, and both are in play. -/
def Adjacent (p : Program) (u v : UseId) : Prop :=
  u ∈ p.usesInPlay ∧ v ∈ p.usesInPlay ∧ ∃ k ∈ p.linkages, k.state = .active ∧ k.Between u v

/-- Uses are adjacent when one of the linkages that join leads from the one to the other or back. -/
theorem adjacent_iff (hends : p.missingEnd? = none) :
    p.Adjacent u v ↔ Relation.SymmGen (Linked p.joiningLinkages) u v := by
  constructor
  · rintro ⟨hu, hv, k, hk, hactive, hbetween⟩
    have active := exists_mem_activeLinkages.mpr ⟨hk, hactive⟩
    rcases hbetween with ⟨rfl, rfl⟩ | ⟨rfl, rfl⟩
    · exact .inl ⟨k, (mem_joiningLinkages hends).mpr ⟨active, hu, hv⟩, rfl, rfl⟩
    · exact .inr ⟨k, (mem_joiningLinkages hends).mpr ⟨active, hv, hu⟩, rfl, rfl⟩
  · rintro (⟨k, hk, rfl, rfl⟩ | ⟨k, hk, rfl, rfl⟩)
    · obtain ⟨active, hfirst, hsecond⟩ := (mem_joiningLinkages hends).mp hk
      obtain ⟨hk, hactive⟩ := exists_mem_activeLinkages.mp active
      exact ⟨hfirst, hsecond, k, hk, hactive, .inl ⟨rfl, rfl⟩⟩
    · obtain ⟨active, hfirst, hsecond⟩ := (mem_joiningLinkages hends).mp hk
      obtain ⟨hk, hactive⟩ := exists_mem_activeLinkages.mp active
      exact ⟨hsecond, hfirst, k, hk, hactive, .inr ⟨rfl, rfl⟩⟩

/-- Chains of adjacent uses are what the linkages that join generate. -/
theorem chained_iff (hends : p.missingEnd? = none) :
    Relation.ReflTransGen p.Adjacent u v ↔ Relation.EqvGen (Linked p.joiningLinkages) u v := by
  have same : p.Adjacent = Relation.SymmGen (Linked p.joiningLinkages) := by
    funext a b
    exact propext (adjacent_iff hends)
  rw [same, Relation.EqvGen.reflTransGen_symmGen]

end Program

/-! ## Components -/

namespace Partition

/-- Whether a partition lists the connected components of the uses in play of a program, in normal form. -/
structure IsComponents (part : Partition) (p : Program) : Prop where
  /-- Two uses are in one set if and only if both are in play and a chain of active linkages between uses in play
  leads from the one to the other. -/
  together : ∀ u v, (∃ set ∈ part.sets, u ∈ set ∧ v ∈ set) ↔
    u ∈ p.usesInPlay ∧ v ∈ p.usesInPlay ∧ Relation.ReflTransGen p.Adjacent u v
  /-- The sets have every use in play once, and no other. -/
  once : part.sets.flatten.Perm p.usesInPlay
  /-- No set is empty. -/
  inhabited : ∀ set ∈ part.sets, set ≠ []
  /-- Sets are ascending and come in the order of their first uses. -/
  normal : part.Normal

variable {part part' : Partition} {p : Program} {s t : List UseId} {u v : UseId}

/-- Sets with a use in common are one set. -/
theorem IsComponents.eq_of_mem (h : part.IsComponents p) (hs : s ∈ part.sets) (ht : t ∈ part.sets) (hus : u ∈ s)
    (hut : u ∈ t) : s = t := by
  have nodup : part.sets.flatten.Nodup := h.once.nodup_iff.mpr (List.nodup_range.filter _)
  have symm : Std.Symm (List.Disjoint (α := UseId)) := ⟨fun _ _ => List.Disjoint.symm⟩
  by_contra hne
  exact (List.nodup_flatten.mp nodup).2.forall hs ht hne hus hut

/-- A set has the uses in play to which chains lead from any of its uses. -/
theorem IsComponents.mem_iff (h : part.IsComponents p) (hs : s ∈ part.sets) (hu : u ∈ s) :
    v ∈ s ↔ v ∈ p.usesInPlay ∧ Relation.ReflTransGen p.Adjacent u v := by
  constructor
  · intro hv
    exact ((h.together u v).mp ⟨s, hs, hu, hv⟩).2
  · rintro ⟨hv, hchain⟩
    have inPlay := ((h.together u u).mp ⟨s, hs, hu, hu⟩).1
    obtain ⟨t, ht, hut, hvt⟩ := (h.together u v).mpr ⟨inPlay, hv, hchain⟩
    rwa [h.eq_of_mem hs ht hu hut]

/-- The components of a program are its components in any other list of them. -/
theorem IsComponents.mem_of_mem (h : part.IsComponents p) (h' : part'.IsComponents p) (hs : s ∈ part.sets) :
    s ∈ part'.sets := by
  obtain ⟨u, hu⟩ := List.exists_mem_of_ne_nil s (h.inhabited s hs)
  obtain ⟨t, ht, hut, -⟩ := (h'.together u u).mpr ((h.together u u).mp ⟨s, hs, hu, hu⟩)
  have same : s = t := by
    apply (h.normal.ascending s hs).eq_of_mem_iff (h'.normal.ascending t ht)
    intro v
    rw [h.mem_iff hs hu, h'.mem_iff ht hut]
  exact same ▸ ht

/-- A program has one list of components in normal form. -/
theorem IsComponents.unique (h : part.IsComponents p) (h' : part'.IsComponents p) : part = part' :=
  h.normal.eq_of_mem_iff h'.normal fun _ => ⟨h.mem_of_mem h', h'.mem_of_mem h⟩

end Partition

namespace Program

variable {p q : Program} {u v : UseId}

/-- Two uses are joined when both are in play and a chain leads from the one to the other. -/
theorem exists_joinedSet_iff (hends : p.missingEnd? = none) :
    (∃ set ∈ p.joinedSets.sets, u ∈ set ∧ v ∈ set) ↔
      u ∈ p.usesInPlay ∧ v ∈ p.usesInPlay ∧ Relation.ReflTransGen p.Adjacent u v := by
  rw [chained_iff hends]
  constructor
  · rintro ⟨set, hset, hu, hv⟩
    have inPlay : ∀ w ∈ set, w ∈ p.usesInPlay := fun w hw =>
      mem_flatten_joinedSets.mp (List.mem_flatten.mpr ⟨set, hset, hw⟩)
    exact ⟨inPlay u hu, inPlay v hv, eqvGen_of_joinedSet hends hset hu hv⟩
  · rintro ⟨hu, hv, hchain⟩
    obtain ⟨set, hset, hmem⟩ := p.sortedBy_joinedSets.covered u hu
    obtain ⟨w, -, hiff⟩ := p.sortedBy_joinedSets.mem_iff set hset
    -- uses that the linkages join have one root
    have root : p.joined.root u = p.joined.root v :=
      (root_unite_eq_iff (endsBelow_joiningLinkages hends) (mem_usesInPlay.mp hu).1
        (mem_usesInPlay.mp hv).1).mpr hchain
    refine ⟨set, hset, hmem, (hiff v).mpr ⟨hv, ?_⟩⟩
    rw [← root]
    exact ((hiff u).mp hmem).2

/-- The joined sets are the connected components. -/
theorem isComponents_joinedSets (hends : p.missingEnd? = none) : p.joinedSets.IsComponents p where
  together _ _ := exists_joinedSet_iff hends
  once := by
    apply (List.perm_ext_iff_of_nodup (nodup_flatten_joinedSets p) (List.nodup_range.filter _)).mpr
    intro u
    exact mem_flatten_joinedSets
  inhabited _ hset := (joins_joinedSets p).ne_nil hset
  normal := normal_joinedSets p

end Program

/-! ## The order of linkages and of their ends -/

/-- A linkage without the order of its ends. -/
def Linkage.unordered (k : Linkage) : Sym2 UseId × LinkState :=
  (s(k.first, k.second), k.state)

/-- Without the order of their ends, linkages join the same pairs of uses. -/
theorem Linkage.between_iff_mk_eq {k : Linkage} {u v : UseId} : k.Between u v ↔ s(k.first, k.second) = s(u, v) :=
  Sym2.eq_iff.symm

namespace Program

variable {p q : Program} {u v : UseId}

/-- Whether two programs have the same uses, and the same linkages up to their order and the order of ends. -/
def Rearranged (p q : Program) : Prop :=
  q.uses = p.uses ∧ (q.linkages.toList.map Linkage.unordered).Perm (p.linkages.toList.map Linkage.unordered)

instance (p q : Program) : Decidable (p.Rearranged q) :=
  inferInstanceAs (Decidable (_ ∧ _))

theorem Rearranged.symm (h : p.Rearranged q) : q.Rearranged p :=
  ⟨h.1.symm, h.2.symm⟩

/-- Every linkage is in the rearranged program, up to the order of its ends. -/
theorem Rearranged.exists_linkage (h : p.Rearranged q) {k : Linkage} (hk : k ∈ q.linkages) :
    ∃ k' ∈ p.linkages, k'.unordered = k.unordered := by
  have hmem : k.unordered ∈ q.linkages.toList.map Linkage.unordered := List.mem_map_of_mem hk.val
  obtain ⟨k', hk', same⟩ := List.mem_map.mp (h.2.mem_iff.mp hmem)
  exact ⟨k', ⟨hk'⟩, same⟩

/-- Rearranged linkages have their ends in range. -/
theorem Rearranged.endsInRange (h : p.Rearranged q) (hp : p.EndsInRange) : q.EndsInRange := by
  intro k hk
  obtain ⟨k', hk', same⟩ := h.exists_linkage hk
  obtain ⟨hfirst, hsecond⟩ := hp k' hk'
  rw [h.1]
  rcases Linkage.between_iff_mk_eq.mpr (congrArg Prod.fst same) with ⟨hf, hs⟩ | ⟨hf, hs⟩
  · exact ⟨hf ▸ hfirst, hs ▸ hsecond⟩
  · exact ⟨hs ▸ hsecond, hf ▸ hfirst⟩

/-- A rearranged program has the same uses in play. -/
theorem Rearranged.usesInPlay_eq (h : p.Rearranged q) : q.usesInPlay = p.usesInPlay := by
  unfold usesInPlay useIds isInMemory use?
  rw [h.1]

/-- Adjacent uses of a rearranged program are adjacent. -/
theorem Rearranged.adjacent (h : p.Rearranged q) (hadjacent : q.Adjacent u v) : p.Adjacent u v := by
  obtain ⟨hu, hv, k, hk, hactive, hbetween⟩ := hadjacent
  rw [h.usesInPlay_eq] at hu hv
  obtain ⟨k', hk', same⟩ := h.exists_linkage hk
  refine ⟨hu, hv, k', hk', ?_, ?_⟩
  · exact (congrArg Prod.snd same).trans hactive
  · rw [Linkage.between_iff_mk_eq] at hbetween ⊢
    exact (congrArg Prod.fst same).trans hbetween

/-- A rearranged program has the same components. -/
theorem Rearranged.isComponents {part : Partition} (h : p.Rearranged q) (hpart : part.IsComponents q) :
    part.IsComponents p := by
  have adjacent : q.Adjacent = p.Adjacent := by
    funext a b
    exact propext ⟨h.adjacent, h.symm.adjacent⟩
  have together := hpart.together
  have once := hpart.once
  rw [adjacent, h.usesInPlay_eq] at together
  rw [h.usesInPlay_eq] at once
  exact ⟨together, once, hpart.inhabited, hpart.normal⟩

end Program

/-- Where linkages have their ends in range, the joined sets are the connected components of the uses in play:
two uses are in one set if and only if a chain of active linkages between uses in play leads from the one to the
other, every use in play is in one set and no other is in any, and the sets are ascending and ordered by their first
uses. Nothing else is this list of sets, and neither the order of the linkages nor the order of their ends counts.
There is no fault. -/
theorem components_joinedSets {p : Program} (hends : p.EndsInRange) :
    p.joinedSets.IsComponents p ∧ (∀ part : Partition, part.IsComponents p → part = p.joinedSets) ∧
      p.joinFault? = none ∧
      ∀ q : Program, p.Rearranged q → q.joinedSets = p.joinedSets ∧ q.joinFault? = none := by
  have present := Program.missingEnd?_eq_none hends
  have components := Program.isComponents_joinedSets present
  refine ⟨components, fun part hpart => hpart.unique components, Program.joinFault?_eq_none present, ?_⟩
  intro q hq
  have present' := Program.missingEnd?_eq_none (hq.endsInRange hends)
  refine ⟨?_, Program.joinFault?_eq_none present'⟩
  exact (hq.isComponents (Program.isComponents_joinedSets present')).unique components

/-- Six uses with a ring of linkages, one of them twice, and a use in memory that two others are linked to. A broken
linkage leads out of the ring. -/
def entangled : Program where
  functions := #["f"]
  uses := #[⟨0, .operand, 0, some 0, 1, none, false⟩, ⟨0, .operand, 1, some 0, 1, none, false⟩,
    ⟨0, .temp, 0, some 0, 1, none, true⟩, ⟨0, .operand, 2, some 0, 1, none, false⟩,
    ⟨0, .operand, 3, some 0, 1, none, false⟩, ⟨0, .operand, 4, some 0, 1, none, false⟩]
  linkages := #[⟨3, 5, .active⟩, ⟨5, 1, .active⟩, ⟨1, 3, .active⟩, ⟨5, 3, .active⟩, ⟨0, 2, .active⟩,
    ⟨2, 4, .active⟩, ⟨4, 5, .broken 1⟩]

/-- The ring is one set of the entangled uses. Linkages over the use in memory join nothing, and another order of
linkages and ends gives the same sets. -/
theorem components_joinedSets_entangled :
    let other : Program := { entangled with
      linkages := #[⟨2, 4, .active⟩, ⟨5, 4, .broken 1⟩, ⟨1, 5, .active⟩, ⟨3, 5, .active⟩, ⟨2, 0, .active⟩,
        ⟨3, 1, .active⟩, ⟨3, 5, .active⟩] }
    entangled.EndsInRange ∧ entangled.Rearranged other ∧ entangled.joinedSets.sets = [[0], [1, 3, 5], [4]] ∧
      Relation.ReflTransGen entangled.Adjacent 1 5 ∧ ¬ Relation.ReflTransGen entangled.Adjacent 0 4 ∧
      other.joinedSets = entangled.joinedSets := by
  intro other
  have inRange : entangled.EndsInRange := by decide
  have rearranged : entangled.Rearranged other := by decide +kernel
  have sets : entangled.joinedSets.sets = [[0], [1, 3, 5], [4]] := by decide +kernel
  obtain ⟨components, -, -, same⟩ := components_joinedSets inRange
  have chained := components.together 1 5
  have apart := components.together 0 4
  rw [sets] at chained apart
  refine ⟨inRange, rearranged, sets, ?_, fun hchain => ?_, (same other rearranged).1⟩
  · exact (chained.mp ⟨[1, 3, 5], by decide, by decide, by decide⟩).2.2
  · obtain ⟨set, hset, h0, h4⟩ := apart.mpr ⟨by decide +kernel, by decide +kernel, hchain⟩
    revert set
    decide

end RegisterColoring
