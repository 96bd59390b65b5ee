import RegisterColoring.Proofs.Legality

/-! # What the second look decides

The second look accepts some locations if and only if they keep five rules, which are stated here without
the way in which it goes about them: no lists of uses in order, no disjoint sets, and no side of a pair of
registers that is looked up before the other.

* `Machine.Overlap`: two registers share storage.
* `Together`: a chain of active linkages between uses in registers joins two uses.
* `IsLegal`: the five rules.
* `registerViolations_eq_nil_iff`, `linkViolations_eq_nil_iff`, `spanViolations_eq_nil_iff`: what it means
  that a part of the second look finds nothing.
* `checkLegal_iff`: the second look accepts exactly what is legal. -/

namespace RegisterColoring

/-- Whether two registers share storage, looked up at either of them. -/
def Machine.Overlap (m : Machine) (r q : RegisterId) : Prop :=
  q ∈ m.aliases r ∨ r ∈ m.aliases q

instance (m : Machine) (r q : RegisterId) : Decidable (m.Overlap r q) :=
  inferInstanceAs (Decidable (_ ∨ _))

/-- On an accepted machine it does not matter at which of two registers the other is looked up. -/
theorem Machine.Consistent.overlap_iff {m : Machine} (hm : m.Consistent) {r q : RegisterId} :
    m.Overlap r q ↔ q ∈ m.aliases r :=
  ⟨fun h => h.elim id (hm.aliases_symm q r), .inl⟩

/-! ## The rules -/

/-- Whether an active linkage goes from `x` to `y`, and both are in registers. -/
def LinkedInRegisters (p : Program) (ls : Array Location) (x y : UseId) : Prop :=
  ∃ k ∈ p.linkages, k.state = .active ∧ k.first = x ∧ k.second = y ∧
    (∃ rs, ls[x]? = some (.registers rs)) ∧ ∃ qs, ls[y]? = some (.registers qs)

/-- Whether a chain of active linkages between uses in registers joins two uses. -/
def Together (p : Program) (ls : Array Location) : UseId → UseId → Prop :=
  Relation.EqvGen (LinkedInRegisters p ls)

/-- The rules for where the uses of a program live. -/
structure IsLegal (m : Machine) (p : Program) (ls : Array Location) : Prop where
  /-- A use in registers holds as many as it needs. -/
  count : ∀ (u : UseId) use rs, p.uses[u]? = some use → ls[u]? = some (.registers rs) →
    rs.length = use.registers
  /-- They are all in its class, when it asks for one. -/
  inClass : ∀ (u : UseId) use rs c, p.uses[u]? = some use → ls[u]? = some (.registers rs) →
    use.class? = some c → ∀ r ∈ rs, r ∈ m.members c
  /-- No two of them share storage. -/
  apart : ∀ (u : UseId) rs, ls[u]? = some (.registers rs) → rs.Pairwise fun r q => ¬ m.Overlap r q
  /-- The ends of an active linkage that are both in registers live in the same place. -/
  linked : ∀ k ∈ p.linkages, k.state = .active → ∀ rs qs, ls[k.first]? = some (.registers rs) →
    ls[k.second]? = some (.registers qs) → rs = qs
  /-- Inside the span of such a linkage, no use that it is not joined with overlaps its registers. -/
  spared : ∀ k ∈ p.linkages, k.state = .active → ∀ rs rs', ls[k.first]? = some (.registers rs) →
    ls[k.second]? = some (.registers rs') → ∀ a b, p.position? k.first = some a →
    p.position? k.second = some b → a.block = b.block → ∀ u c qs, p.position? u = some c →
    c.block = a.block → min a.offset b.offset ≤ c.offset → c.offset ≤ max a.offset b.offset →
    ls[u]? = some (.registers qs) → ¬ Together p ls k.first u → ∀ r ∈ rs, ∀ q ∈ qs, ¬ m.Overlap r q

section

variable {m : Machine} {p : Program} {ls : Array Location} {u : UseId}

/-! ## Uses and linkages in registers -/

/-- A use lives in registers when its location is a list of registers. -/
theorem inRegisters_iff : inRegisters ls u = true ↔ ∃ rs, ls[u]? = some (.registers rs) := by
  rw [inRegisters, locationOf, Array.getD_eq_getD_getElem?]
  cases ls[u]? with
  | none => simp [Location.isMemory]
  | some location => cases location <;> simp [Location.isMemory]

/-- What a use in registers holds. -/
theorem locationOf_eq {rs : List RegisterId} (h : ls[u]? = some (.registers rs)) :
    locationOf ls u = .registers rs := by
  rw [locationOf, Array.getD_eq_getD_getElem?, h, Option.getD_some]

/-- The live linkages are the active ones with both ends in registers. -/
theorem mem_liveLinkages {k : Linkage} : k ∈ liveLinkages p ls ↔ k ∈ p.linkages ∧ k.state = .active ∧
    inRegisters ls k.first = true ∧ inRegisters ls k.second = true := by
  have active : k ∈ p.activeLinkages.map Prod.fst ↔ k ∈ p.linkages ∧ k.state = .active := by
    rw [← Program.exists_mem_activeLinkages, List.mem_map]
    simp only [Prod.exists, exists_eq_right, exists_comm]
  rw [liveLinkages, List.mem_filter, active, Bool.and_eq_true, and_assoc]

/-- The chains that the second look follows are those between uses in registers. -/
theorem linked_liveLinkages : Program.Linked (liveLinkages p ls) = LinkedInRegisters p ls := by
  funext x y
  simp only [Program.Linked, LinkedInRegisters, mem_liveLinkages, inRegisters_iff, eq_iff_iff]
  constructor
  · rintro ⟨k, ⟨hk, hactive, hfirst, hsecond⟩, rfl, rfl⟩
    exact ⟨k, hk, hactive, rfl, rfl, hfirst, hsecond⟩
  · rintro ⟨k, hk, hactive, rfl, rfl, hfirst, hsecond⟩
    exact ⟨k, ⟨hk, hactive, hfirst, hsecond⟩, rfl, rfl⟩

/-! ## Finding nothing -/

/-- The registers of a use violate nothing if and only if they are of its class and each is free of
overlap with the later ones. -/
theorem registerViolations_eq_nil_iff {class? : Option ClassId} {rs : List RegisterId} :
    registerViolations m u class? rs = [] ↔
      (∀ c, class? = some c → ∀ r ∈ rs, r ∈ m.members c) ∧
        rs.Pairwise fun r q => q ∉ m.aliases r := by
  refine ⟨fun h => ?_, fun h => registerViolations_eq_nil h.1 h.2⟩
  induction rs with
  | nil => exact ⟨fun c _ r hr => absurd hr List.not_mem_nil, .nil⟩
  | cons r later ih =>
    -- the head is looked at against its class and the later registers
    unfold registerViolations at h
    rw [List.append_eq_nil_iff, List.append_eq_nil_iff] at h
    obtain ⟨⟨hclass, hoverlap⟩, hlater⟩ := h
    obtain ⟨laterClass, laterApart⟩ := ih hlater
    constructor
    · rintro c rfl q hq
      rcases List.mem_cons.mp hq with rfl | hq
      · by_contra hmem
        rw [RegisterSet.mem_def] at hmem
        simp [hmem] at hclass
      · exact laterClass c rfl q hq
    · refine .cons (fun q hq hmem => ?_) laterApart
      rw [if_pos (List.any_eq_true.mpr ⟨q, hq, hmem⟩)] at hoverlap
      cases hoverlap

/-- A use in registers violates nothing if and only if it holds as many as it needs, and these are of its
class and free of overlap. -/
theorem useViolations_eq_nil_iff {use : Use} {rs : List RegisterId} (huse : p.uses[u]? = some use)
    (hrs : ls[u]? = some (.registers rs)) :
    useViolations m p ls u = [] ↔ rs.length = use.registers ∧
      (∀ c, use.class? = some c → ∀ r ∈ rs, r ∈ m.members c) ∧
        rs.Pairwise fun r q => q ∉ m.aliases r := by
  rw [useViolations, Program.use?, huse]
  simp only [locationOf_eq hrs, Location.held, List.append_eq_nil_iff, registerViolations_eq_nil_iff]
  refine and_congr_left fun _ => ?_
  split <;> simp_all

/-- A live linkage violates nothing if and only if its ends live in the same place. -/
theorem linkViolations_eq_nil_iff {k : Linkage} {rs qs : List RegisterId}
    (hrs : ls[k.first]? = some (.registers rs)) (hqs : ls[k.second]? = some (.registers qs)) :
    linkViolations ls k = [] ↔ rs = qs := by
  rw [linkViolations, locationOf_eq hrs, locationOf_eq hqs]
  split <;> simp_all

/-- Whether registers of two lists share storage. -/
theorem shareStorage_eq_false_iff {rs qs : List RegisterId} :
    shareStorage m rs qs = false ↔ ∀ r ∈ rs, ∀ q ∈ qs, q ∉ m.aliases r := by
  rw [shareStorage, ← Bool.not_eq_true, List.any_eq_true]
  constructor
  · intro h r hr q hq hmem
    exact h ⟨q, hq, List.any_eq_true.mpr ⟨r, hr, hmem⟩⟩
  · rintro h ⟨q, hq, hany⟩
    obtain ⟨r, hr, hmem⟩ := List.any_eq_true.mp hany
    exact h r hr q hq hmem

/-- The span of a linkage lies between the positions of its ends, which are in one block. -/
theorem Program.span?_eq_some_iff {k : Linkage} {span : Span} : p.span? k = some span ↔
    ∃ a b, p.position? k.first = some a ∧ p.position? k.second = some b ∧ a.block = b.block ∧
      span = ⟨a.block, min a.offset b.offset, max a.offset b.offset⟩ := by
  rw [Program.span?]
  cases p.position? k.first with
  | none => simp
  | some a =>
    cases p.position? k.second with
    | none => simp
    | some b => simp [Span.between?, eq_comm]

/-- Nothing is violated inside the span of a linkage if and only if no use of `uses` at a position in it
overlaps its registers, unless the disjoint sets say that they are joined. -/
theorem spanViolations_eq_nil_iff {joined : UnionFind} {uses : List UseId} {k : Linkage} :
    spanViolations m p ls joined uses k = [] ↔ ∀ span, p.span? k = some span → ∀ u ∈ uses, ∀ c,
      p.position? u = some c → span.contains c = true → joined.root k.first ≠ joined.root u →
      ∀ r ∈ (locationOf ls k.first).held, ∀ q ∈ (locationOf ls u).held, q ∉ m.aliases r := by
  rw [spanViolations]
  cases hspan : p.span? k with
  | none => simp
  | some span =>
    simp only [List.map_eq_nil_iff, List.filter_eq_nil_iff, Bool.and_eq_true, Bool.not_eq_true',
      Option.some.injEq, forall_eq']
    refine forall₂_congr fun u _ => ⟨fun h c hc hin hroot => ?_, fun h => ?_⟩
    · rw [← shareStorage_eq_false_iff]
      -- a use that shared storage would have been listed
      by_contra hshare
      refine h ⟨⟨?_, ?_⟩, by simpa using hshare⟩
      · rw [hc]
        exact hin
      · rw [UnionFind.same]
        exact beq_eq_false_iff_ne.mpr hroot
    · rintro ⟨⟨hin, hroot⟩, hshare⟩
      cases hc : p.position? u with
      | none =>
        rw [hc] at hin
        cases hin
      | some c =>
        rw [hc] at hin
        rw [UnionFind.same, beq_eq_false_iff_ne] at hroot
        rw [shareStorage_eq_false_iff.mpr (h c hc hin hroot)] at hshare
        cases hshare

/-! ## All rules together -/

/-- The uses that the second look goes through are those in registers. -/
theorem mem_usesInRegisters :
    u ∈ usesInRegisters p ls ↔ ∃ use rs, p.uses[u]? = some use ∧ ls[u]? = some (.registers rs) := by
  rw [usesInRegisters, List.mem_filter, Program.useIds, List.mem_range, inRegisters_iff]
  constructor
  · rintro ⟨hu, rs, hrs⟩
    exact ⟨_, rs, Array.getElem?_eq_getElem hu, hrs⟩
  · rintro ⟨use, rs, huse, hrs⟩
    exact ⟨(Array.getElem?_eq_some_iff.mp huse).1, rs, hrs⟩

/-- No use violates a rule if and only if each one in registers holds what suits it. -/
theorem forall_useViolations_iff (hm : m.Consistent) :
    (∀ u ∈ usesInRegisters p ls, useViolations m p ls u = []) ↔
      ∀ (u : UseId) use rs, p.uses[u]? = some use → ls[u]? = some (.registers rs) →
        rs.length = use.registers ∧ (∀ c, use.class? = some c → ∀ r ∈ rs, r ∈ m.members c) ∧
          rs.Pairwise fun r q => ¬ m.Overlap r q := by
  simp only [hm.overlap_iff]
  constructor
  · intro h u use rs huse hrs
    exact (useViolations_eq_nil_iff huse hrs).mp
      (h u (mem_usesInRegisters.mpr ⟨use, rs, huse, hrs⟩))
  · intro h u hu
    obtain ⟨use, rs, huse, hrs⟩ := mem_usesInRegisters.mp hu
    exact (useViolations_eq_nil_iff huse hrs).mpr (h u use rs huse hrs)

/-- No live linkage violates a rule if and only if each of them has both ends in the same place. -/
theorem forall_linkViolations_iff : (∀ k ∈ liveLinkages p ls, linkViolations ls k = []) ↔
    ∀ k ∈ p.linkages, k.state = .active → ∀ rs qs, ls[k.first]? = some (.registers rs) →
      ls[k.second]? = some (.registers qs) → rs = qs := by
  constructor
  · intro h k hk hactive rs qs hrs hqs
    exact (linkViolations_eq_nil_iff hrs hqs).mp (h k (mem_liveLinkages.mpr
      ⟨hk, hactive, inRegisters_iff.mpr ⟨rs, hrs⟩, inRegisters_iff.mpr ⟨qs, hqs⟩⟩))
  · intro h k hk
    obtain ⟨hmem, hactive, hfirst, hsecond⟩ := mem_liveLinkages.mp hk
    obtain ⟨rs, hrs⟩ := inRegisters_iff.mp hfirst
    obtain ⟨qs, hqs⟩ := inRegisters_iff.mp hsecond
    exact (linkViolations_eq_nil_iff hrs hqs).mpr (h k hmem hactive rs qs hrs hqs)

/-- The disjoint sets of the live linkages tell two uses apart exactly when no chain joins them. -/
theorem root_ne_iff_not_together (hends : p.EndsInRange) {x y : UseId} (hx : x < p.uses.size)
    (hy : y < p.uses.size) :
    (Program.unite p.uses.size (liveLinkages p ls)).root x ≠
      (Program.unite p.uses.size (liveLinkages p ls)).root y ↔ ¬ Together p ls x y := by
  have below : Program.EndsBelow p.uses.size (liveLinkages p ls) := by
    intro k hk
    exact hends k (mem_liveLinkages.mp hk).1
  rw [Ne, Program.root_unite_eq_iff below hx hy, linked_liveLinkages, Together]

/-- Nothing is violated inside the spans of live linkages if and only if a use there that is not joined
with the linkage does not overlap its registers. -/
theorem forall_spanViolations_iff (hm : m.Consistent) (hends : p.EndsInRange)
    (hsize : ls.size = p.uses.size) :
    (∀ k ∈ liveLinkages p ls, spanViolations m p ls (Program.unite p.uses.size (liveLinkages p ls))
      (usesInRegisters p ls) k = []) ↔
    ∀ k ∈ p.linkages, k.state = .active → ∀ rs rs', ls[k.first]? = some (.registers rs) →
      ls[k.second]? = some (.registers rs') → ∀ a b, p.position? k.first = some a →
      p.position? k.second = some b → a.block = b.block → ∀ u c qs, p.position? u = some c →
      c.block = a.block → min a.offset b.offset ≤ c.offset → c.offset ≤ max a.offset b.offset →
      ls[u]? = some (.registers qs) → ¬ Together p ls k.first u →
      ∀ r ∈ rs, ∀ q ∈ qs, ¬ m.Overlap r q := by
  simp only [hm.overlap_iff]
  constructor
  · intro h k hk hactive rs rs' hrs hrs' a b ha hb hblock u c qs hc hin hlow hhigh hqs htogether
    -- the second look comes to this linkage and to this use, which is in the span
    have live : k ∈ liveLinkages p ls := mem_liveLinkages.mpr
      ⟨hk, hactive, inRegisters_iff.mpr ⟨rs, hrs⟩, inRegisters_iff.mpr ⟨rs', hrs'⟩⟩
    have hspan := Program.span?_eq_some_iff.mpr ⟨a, b, ha, hb, hblock, rfl⟩
    have hu : u < p.uses.size := hsize ▸ (Array.getElem?_eq_some_iff.mp hqs).1
    have spared := spanViolations_eq_nil_iff.mp (h k live) _ hspan u
      (mem_usesInRegisters.mpr ⟨_, qs, Array.getElem?_eq_getElem hu, hqs⟩) c hc
      (by simp [Span.contains, hin, hlow, hhigh])
      ((root_ne_iff_not_together hends (hends k hk).1 hu).mpr htogether)
    rwa [locationOf_eq hrs, locationOf_eq hqs] at spared
  · intro h k hk
    obtain ⟨hmem, hactive, hfirst, hsecond⟩ := mem_liveLinkages.mp hk
    obtain ⟨rs, hrs⟩ := inRegisters_iff.mp hfirst
    obtain ⟨rs', hrs'⟩ := inRegisters_iff.mp hsecond
    -- what the second look goes through is a use in registers at a position in the span
    refine spanViolations_eq_nil_iff.mpr fun span hspan u hu c hc hcontains hroot => ?_
    obtain ⟨a, b, ha, hb, hblock, rfl⟩ := Program.span?_eq_some_iff.mp hspan
    obtain ⟨use, qs, huse, hqs⟩ := mem_usesInRegisters.mp hu
    have hlt := (Array.getElem?_eq_some_iff.mp huse).1
    simp only [Span.contains, Bool.and_eq_true, beq_iff_eq, decide_eq_true_eq] at hcontains
    rw [locationOf_eq hrs, locationOf_eq hqs]
    exact h k hmem hactive rs rs' hrs hrs' a b ha hb hblock u c qs hc hcontains.1.1 hcontains.1.2
      hcontains.2 hqs ((root_ne_iff_not_together hends (hends k hmem).1 hlt).mp hroot)

/-- Locations violate nothing if and only if they are legal. -/
theorem violations_eq_nil_iff (hm : m.Consistent) (hends : p.EndsInRange)
    (hsize : ls.size = p.uses.size) : violations m p ls = [] ↔ IsLegal m p ls := by
  rw [violations, List.append_eq_nil_iff, List.append_eq_nil_iff, List.flatMap_eq_nil_iff,
    List.flatMap_eq_nil_iff, List.flatMap_eq_nil_iff, forall_useViolations_iff hm,
    forall_linkViolations_iff, forall_spanViolations_iff hm hends hsize]
  constructor
  · rintro ⟨⟨huses, hlinked⟩, hspans⟩
    exact
      { count := fun u use rs huse hrs => (huses u use rs huse hrs).1
        inClass := fun u use rs c huse hrs => (huses u use rs huse hrs).2.1 c
        apart := fun u rs hrs => by
          have hu : u < p.uses.size := hsize ▸ (Array.getElem?_eq_some_iff.mp hrs).1
          exact (huses u _ rs (Array.getElem?_eq_getElem hu) hrs).2.2
        linked := hlinked
        spared := hspans }
  · intro h
    refine ⟨⟨fun u use rs huse hrs => ⟨h.count u use rs huse hrs, ?_, h.apart u rs hrs⟩, h.linked⟩,
      h.spared⟩
    intro c
    exact h.inClass u use rs c huse hrs

end

/-- The second look comes to an end for every way to give each use of a program a location, and it accepts
one if and only if it is legal. -/
theorem checkLegal_iff {d : MachineDescription} {m : Machine} (hm : Machine.ofDescription d = .ok m)
    {p : Program} (hends : p.EndsInRange) {ls : Array Location} (hsize : ls.size = p.uses.size) :
    (∃ vs, checkLegal m p ls = .ok vs) ∧ (checkLegal m p ls = .ok [] ↔ IsLegal m p ls) := by
  have hm := Machine.consistent_of_ofDescription hm
  rw [checkLegal_eq_ok hsize (Program.missingEnd?_eq_none hends), Except.ok.injEq,
    violations_eq_nil_iff hm hends hsize]
  exact ⟨⟨_, rfl⟩, Iff.rfl⟩

/-- On `contended` with both of its linkages active it is legal to move to memory what does not fit beside
them, and not to give the word to the use inside the span of the first. -/
theorem checkLegal_iff_contended :
    IsLegal bytePairMachine contended #[.registers [0], .registers [0], .memory, .memory,
        .registers [0], .registers [0], .registers [1]] ∧
      ¬ IsLegal bytePairMachine contended #[.registers [0], .registers [0], .registers [2], .memory,
        .registers [0], .registers [0], .registers [1]] := by
  have hends : contended.EndsInRange := by decide
  constructor
  · exact (checkLegal_iff ofDescription_bytePair hends rfl).2.mp (by decide +kernel)
  · intro h
    have accepted := (checkLegal_iff ofDescription_bytePair hends rfl).2.mpr h
    revert accepted
    decide +kernel

end RegisterColoring
