import RegisterColoring.Proofs.Parts.Coloring
import RegisterColoring.Proofs.Program
import RegisterColoring.Proofs.Revision

/-! # Revisions of a part

Groups that went without are helped in the order of what their help costs across all parts. What is broken
for groups of one part does not change what help costs in another, so that the groups of a part are helped
in the order in which they are helped in the part alone, and in the same way.

* `waysOut_eq`: groups of the part have the ways out that they have in the part.
* `shows_helpAll`: they are helped in the same order and in the same way.
* `Revision.Embeds`: what a revision of the whole does to the part.
* `Revision.embeds_of_choose`: the revision that is chosen for the whole does to the part what the one does
  that is chosen for the part.
* `Program.Embeds.revise`: revisions keep a part a part. -/

namespace RegisterColoring

variable {m : Machine} {f : UseId → UseId} {h : LinkageId → LinkageId} {k : GroupId → GroupId}
  {small big : Groups} {inner outer : Interference} {a a' : Assignment}

/-! ## Ways out -/

/-- Dropping repetitions commutes with a change of elements that keeps them different. -/
theorem eraseDups_map {α β : Type} [BEq α] [LawfulBEq α] [BEq β] [LawfulBEq β] {g : α → β}
    (hg : Function.Injective g) (l : List α) : (l.map g).eraseDups = l.eraseDups.map g := by
  induction hlength : l.length using Nat.strongRecOn generalizing l with
  | ind n ih =>
    cases l with
    | nil => rfl
    | cons b l =>
      have same : (fun c => !c == g b) ∘ g = fun c => !c == b := by
        funext c
        rw [Function.comp, Bool.eq_iff_iff, Bool.not_eq_true', Bool.not_eq_true', beq_eq_false_iff_ne,
          beq_eq_false_iff_ne, hg.ne_iff]
      rw [List.map_cons, List.eraseDups_cons, List.eraseDups_cons, List.filter_map, same, List.map_cons]
      refine congrArg (g b :: ·) (ih _ ?_ _ rfl)
      rw [← hlength]
      exact Nat.lt_succ_of_le (List.length_filter_le _ _)

/-- A blocker that is a group under another number. -/
def Blocker.rename (k : GroupId → GroupId) (b : Blocker) : Blocker :=
  { b with group := k b.group }

section WaysOut

variable (hgroups : Groups.Embeds f k small big) (hgraph : Interference.Embeds h k inner outer)
  (hh : StrictMono h) (ha : Assignment.Embeds k a a')
include hgraph ha

/-- The same neighbours block a group of the part. -/
theorem blockers_eq (g : GroupId) :
    blockers m outer a' (k g) = (blockers m inner a g).map (Blocker.rename k) := by
  have same : (fun n => !(a'.heldBy n).isEmpty) ∘ k = fun n => !(a.heldBy n).isEmpty :=
    funext fun n => by rw [Function.comp, ha.heldBy_eq]
  rw [blockers, blockers, hgraph.neighbors_eq, List.filter_map, same, List.map_map, List.map_map]
  refine List.map_congr_left fun n _ => ?_
  rw [Function.comp, Function.comp, Blocker.rename, ha.heldBy_eq]

omit ha in
include hh in
/-- The linkages that block a register are the same. -/
theorem wayOut_rename (g : GroupId) (bs : List Blocker) (r : RegisterId) :
    wayOut outer (k g) (bs.map (Blocker.rename k)) r = (wayOut inner g bs r).map h := by
  -- linkages that were found so far are those of the part, under the numbers of the whole
  have general : ∀ (bs : List Blocker) (found : List LinkageId),
      (bs.map (Blocker.rename k)).foldl
        (fun found b => unionAscending (outer.linkagesBehind (k g) b.group) found) (found.map h) =
      (bs.foldl (fun found b => unionAscending (inner.linkagesBehind g b.group) found) found).map h := by
    intro bs
    induction bs with
    | nil => exact fun _ => rfl
    | cons b bs ih =>
      intro found
      rw [List.map_cons, List.foldl_cons, List.foldl_cons, Blocker.rename, hgraph.linkagesBehind_eq,
        unionAscending_map hh, ih]
  rw [wayOut, wayOut, List.filter_map]
  exact general _ []

include hgroups hh

/-- A group of the part has the ways out that it has in the part. -/
theorem waysOut_eq (g : GroupId) :
    waysOut m big outer a' (k g) = (waysOut m small inner a g).map (List.map h) := by
  have nonempty : (fun way : List LinkageId => !way.isEmpty) ∘ List.map h = fun way => !way.isEmpty :=
    funext fun way => by rw [Function.comp, List.isEmpty_map]
  rw [waysOut, waysOut, hgroups.get_eq, blockers_eq hgraph ha]
  simp only
  have ways : (m.members (small.get g).classId).toList.map
      (wayOut outer (k g) ((blockers m inner a g).map (Blocker.rename k))) =
        ((m.members (small.get g).classId).toList.map (wayOut inner g (blockers m inner a g))).map
          (List.map h) := by
    rw [List.map_map]
    exact List.map_congr_left fun r _ => wayOut_rename hgraph hh g _ r
  rw [ways, List.filter_map, nonempty, eraseDups_map hh.injective.list_map]

omit hgroups hh ha in
/-- No way out of another group has a linkage of the part. -/
theorem notMem_waysOut {x : GroupId} (hx : ∀ g, x ≠ k g) {way : List LinkageId}
    (hway : way ∈ waysOut m big outer a' x) (l : LinkageId) : h l ∉ way := by
  obtain ⟨-, r, -, rfl⟩ := mem_waysOut.mp hway
  intro hl
  rcases mem_foldl_unionAscending.mp hl with hl | ⟨b, -, hl⟩
  · cases hl
  · obtain ⟨g, hg⟩ := hgraph.exists_group l x b.group hl
    exact hx g hg

end WaysOut

/-! ## Order of help -/

/-- A group in need and its ways out under other numbers. -/
def Need.rename (k : GroupId → GroupId) (h : LinkageId → LinkageId) (n : Need) : Need :=
  ⟨k n.group, n.ways.map (List.map h)⟩

/-- A rescue under other numbers. -/
def Rescue.rename (k : GroupId → GroupId) (h : LinkageId → LinkageId) (r : Rescue) : Rescue :=
  ⟨k r.group, r.way.map h⟩

/-- Different needs stay different under other numbers. -/
theorem Need.rename_injective (hk : Function.Injective k) (hh : Function.Injective h) :
    Function.Injective (Need.rename k h) := by
  rintro ⟨g, ways⟩ ⟨g', ways'⟩ heq
  obtain ⟨hgroup, hways⟩ := Need.mk.inj heq
  obtain rfl : g = g' := hk hgroup
  obtain rfl : ways = ways' := hh.list_map.list_map hways
  rfl

/-- Some needs of the whole show needs of the part: others have no linkage of the part in their ways. -/
abbrev Need.Shown (k : GroupId → GroupId) (h : LinkageId → LinkageId) : List Need → List Need → Prop :=
  Shows (fun n' n => n' = n.rename k h) fun n' =>
    (∀ g, n'.group ≠ k g) ∧ ∀ way ∈ n'.ways, ∀ l, h l ∉ way

/-- Some rescues of the whole show rescues of the part: others break no linkage of the part. -/
abbrev Rescue.Shown (k : GroupId → GroupId) (h : LinkageId → LinkageId) :
    List Rescue → List Rescue → Prop :=
  Shows (fun r' r => r' = r.rename k h) fun r' => ∀ l, h l ∉ r'.way

/-- The needs of groups that show groups of the part show their needs. -/
theorem Groups.Shown.needsOf (hgroups : Embeds f k small big)
    (hgraph : Interference.Embeds h k inner outer) (hh : StrictMono h) (ha : Assignment.Embeds k a a')
    {uncolored' uncolored : List GroupId} (hshown : Shown k uncolored' uncolored) :
    Need.Shown k h (Revision.needsOf m big outer a' uncolored')
      (Revision.needsOf m small inner a uncolored) := by
  refine Shows.map hshown ?_ fun x hx => ⟨hx, fun way hway l => notMem_waysOut hgraph hx hway l⟩
  rintro _ g rfl
  rw [Need.rename, waysOut_eq hgroups hgraph hh ha]

section Help

variable {broken' broken : List LinkageId} (hbroken : ∀ l, h l ∈ broken' ↔ l ∈ broken)
include hbroken

/-- Ways out of the part cost what they cost in the part. -/
theorem cost_map (way : List LinkageId) : cost broken' (way.map h) = cost broken way := by
  have same : (fun l => !broken'.contains l) ∘ h = fun l => !broken.contains l := by
    funext l
    rw [Function.comp, Bool.eq_iff_iff, Bool.not_eq_true', Bool.not_eq_true', ← Bool.not_eq_true,
      ← Bool.not_eq_true, List.contains_iff_mem, List.contains_iff_mem, hbroken]
  rw [cost, cost, List.filter_map, List.length_map, same]

/-- The cheapest way out is the one of the part. -/
theorem Need.cheapest?_rename (n : Need) :
    (n.rename k h).cheapest? broken' = (n.cheapest? broken).map (List.map h) := by
  refine leastBy?_map (fun w v => ?_) n.ways
  rw [cost_map hbroken, cost_map hbroken]

/-- Needs of the part are met in the order of the part. -/
theorem Need.before_rename (hk : StrictMono k) (n n' : Need) :
    (n.rename k h).before broken' (n'.rename k h) = n.before broken n' := by
  have price : ∀ n : Need, (n.rename k h).price broken' = n.price broken := by
    intro n
    rw [Need.price, Need.price, cheapest?_rename hbroken]
    cases n.cheapest? broken with
    | none => rfl
    | some way => exact cost_map hbroken way
  rw [Need.before, Need.before, price, price]
  simp only [Need.rename, hk.lt_iff_lt]

omit hbroken in
/-- No two needs are each met before the other. -/
theorem Need.before_asymm (n n' : Need) (hbefore : n.before broken n' = true) :
    n'.before broken n = false := by
  rw [← Bool.not_eq_true]
  rw [before_iff] at hbefore ⊢
  exact lt_asymm hbefore

omit hbroken in
/-- Not being met before another is transitive. -/
theorem Need.not_before_trans (n n' n'' : Need) (hbefore : n'.before broken n = false)
    (hbefore' : n''.before broken n' = false) : n''.before broken n = false := by
  rw [← Bool.not_eq_true, before_iff, not_lt] at hbefore hbefore' ⊢
  exact hbefore.trans hbefore'

/-- Groups of the part are helped in the order of the part and in the same way. -/
theorem shows_helpAll (hk : StrictMono k) (hh : StrictMono h) {steps' steps : Nat}
    {needs' needs : List Need} (hshown : Need.Shown k h needs' needs) (hlength' : needs'.length ≤ steps')
    (hlength : needs.length ≤ steps) :
    Rescue.Shown k h (helpAll steps' needs' broken') (helpAll steps needs broken) := by
  have nothing : ∀ steps broken, helpAll steps [] broken = [] := fun steps _ => by cases steps <;> rfl
  induction steps' generalizing steps needs' needs broken' broken with
  | zero =>
    obtain rfl := List.length_eq_zero_iff.mp (Nat.le_zero.mp hlength')
    rw [Shows.eq_nil hshown, nothing, nothing]
    exact .nil
  | succ steps' ih =>
    rw [helpAll]
    cases hleast : leastBy? (Need.before broken') needs' with
    | none =>
      obtain rfl : needs' = [] := by
        by_contra hne
        obtain ⟨n, hn⟩ := exists_leastBy? (Need.before broken') hne
        rw [hleast] at hn
        cases hn
      rw [Shows.eq_nil hshown, nothing]
      exact .nil
    | some n' =>
      have fewer' : (needs'.erase n').length ≤ steps' := by
        rw [List.length_erase_of_mem (leastBy?_mem hleast)]
        omega
      have order : ∀ n₁' n₁ n₂' n₂ : Need, n₁ ∈ needs → n₂ ∈ needs → n₁' = n₁.rename k h →
          n₂' = n₂.rename k h → n₁'.before broken' n₂' = n₁.before broken n₂ := by
        rintro _ n₁ _ n₂ - - rfl rfl
        exact Need.before_rename hbroken hk n₁ n₂
      rcases Shows.leastBy? Need.before_asymm Need.not_before_trans hshown order hleast with
        hhidden | ⟨n, rfl, hn⟩
      · -- help for another group breaks no linkage of the part
        have hway : ∀ l, h l ∉ (n'.cheapest? broken').getD [] := by
          intro l hl
          cases hcheapest : n'.cheapest? broken' with
          | none =>
            rw [hcheapest] at hl
            cases hl
          | some way =>
            rw [hcheapest] at hl
            exact hhidden.2 way (leastBy?_mem hcheapest) l hl
        refine .miss hway (ih (fun l => ?_) (Shows.erase_hidden hshown ?_) fewer' hlength)
        · rw [mem_unionAscending, or_iff_right (hway l), hbroken]
        · rintro n rfl
          exact hhidden.1 n.group rfl
      · -- the part meets the same need, and what is broken for it stays the same
        have hmem := leastBy?_mem hn
        obtain ⟨steps, rfl⟩ : ∃ s, steps = s + 1 :=
          Nat.exists_eq_succ_of_ne_zero fun hzero =>
            List.ne_nil_of_mem hmem (List.length_eq_zero_iff.mp (Nat.le_zero.mp (hzero ▸ hlength)))
        have fewer : (needs.erase n).length ≤ steps := by
          rw [List.length_erase_of_mem hmem]
          omega
        have hway : ((n.rename k h).cheapest? broken').getD [] =
            ((n.cheapest? broken).getD []).map h := by
          rw [Need.cheapest?_rename hbroken]
          cases n.cheapest? broken <;> rfl
        rw [helpAll, hn]
        simp only [hway]
        refine .hit rfl (ih (fun l => ?_) (Shows.erase hshown ?_ ?_) fewer' fewer)
        · rw [mem_unionAscending, mem_unionAscending, List.mem_map_of_injective hh.injective, hbroken]
        · rintro _ n₁ rfl
          exact (Need.rename_injective hk.injective hh.injective).eq_iff
        · exact fun hhidden => hhidden.1 n.group rfl

end Help

/-! ## Revisions -/

/-- A revision of the whole does to the part what a revision of the part does. -/
structure Revision.Embeds (h : LinkageId → LinkageId) (k : GroupId → GroupId) (r r' : Revision) :
    Prop where
  /-- It cuts the same linkages. -/
  mem_cuts_iff : ∀ l, h l ∈ r'.cuts ↔ l ∈ r.cuts
  /-- It evicts the same groups. -/
  evicted : Groups.Shown k r'.evicted r.evicted

/-- The revision that is chosen for the whole does to the part what the one does that is chosen for the
part. -/
theorem Revision.embeds_of_choose (hgroups : Groups.Embeds f k small big)
    (hgraph : Interference.Embeds h k inner outer) (hh : StrictMono h) (ha : Assignment.Embeds k a a')
    {uncolored' uncolored : List GroupId} (hshown : Groups.Shown k uncolored' uncolored) {q p : Program}
    {settings : Settings} {r r' : Revision}
    (hr' : choose m p big outer a' uncolored' settings = .ok r')
    (hr : choose m q small inner a uncolored settings = .ok r) : r.Embeds h k r' := by
  obtain ⟨-, hrescues', hevicted'⟩ := choose_eq_ok hr'
  obtain ⟨-, hrescues, hevicted⟩ := choose_eq_ok hr
  have needs : Need.Shown k h (needsOf m big outer a' uncolored') (needsOf m small inner a uncolored) :=
    hshown.needsOf hgroups hgraph hh ha
  have empty : ∀ n' n : Need, n' = n.rename k h → n'.ways.isEmpty = n.ways.isEmpty := by
    rintro _ n rfl
    exact List.isEmpty_map
  constructor
  · intro l
    have rescues : Rescue.Shown k h r'.rescues r.rescues := by
      rw [hrescues', hrescues]
      refine shows_helpAll (fun _ => by simp) hgroups.mono hh (Shows.filter needs ?_) (Nat.le_refl _)
        (Nat.le_refl _)
      intro n' n hn _ _
      rw [empty n' n hn]
    rw [mem_cuts, mem_cuts]
    constructor
    · rintro ⟨rescue', hrescue', hl⟩
      rcases Shows.of_mem_whole rescues hrescue' with hhidden | ⟨rescue, hrescue, rfl⟩
      · exact absurd hl (hhidden l)
      · exact ⟨rescue, hrescue, (List.mem_map_of_injective hh.injective).mp hl⟩
    · rintro ⟨rescue, hrescue, hl⟩
      obtain ⟨_, hrescue', rfl⟩ := Shows.of_mem_part rescues hrescue
      exact ⟨_, hrescue', List.mem_map_of_mem hl⟩
  · rw [hevicted', hevicted]
    have helpless := Shows.filter needs (fun n' n hn _ _ => empty n' n hn)
    refine Shows.map helpless ?_ fun n' hhidden => hhidden.1
    rintro _ n rfl
    rfl

/-- What a group of the part needs in the whole can be done if the choice for the part succeeds. -/
theorem Revision.of_choose (hgroups : Groups.Embeds f k small big)
    (hgraph : Interference.Embeds h k inner outer) (hh : StrictMono h) (ha : Assignment.Embeds k a a')
    {uncolored' uncolored : List GroupId} (hshown : Groups.Shown k uncolored' uncolored) {q : Program}
    {settings : Settings} {r : Revision} (hr : choose m q small inner a uncolored settings = .ok r)
    {g : GroupId} (hg : k g ∈ uncolored') :
    k g < big.size ∧ (waysOut m big outer a' (k g) = [] → settings.spillUnallocatable = true) := by
  obtain ⟨hneeds, -, -⟩ := choose_eq_ok hr
  have hmem : g ∈ uncolored := (hshown.mem_iff hgroups.mono.injective).mp hg
  obtain ⟨hlt, hways⟩ := hneeds _ (List.mem_map.mpr ⟨g, hmem, rfl⟩)
  rw [waysOut_eq hgroups hgraph hh ha, List.map_eq_nil_iff, hgroups.lt_iff]
  exact ⟨hlt, hways⟩

/-- A revision of the whole moves the uses of the part that the revision of the part moves. -/
theorem Revision.Embeds.mem_movedUses_iff {small big : Trial} {r r' : Revision} (hr : r.Embeds h k r')
    (hgroups : Groups.Embeds f k small.attempt.groups big.attempt.groups)
    (hf : Function.Injective f)
    (hevicted : ∀ x ∈ r'.evicted, x < big.attempt.groups.size)
    (hmembers : ∀ x v, x < big.attempt.groups.size → v ∈ (big.attempt.groups.get x).members →
      big.attempt.groups.ofUse? v = some x) (u : UseId) :
    f u ∈ big.movedUses r' ↔ u ∈ small.movedUses r := by
  rw [Trial.movedUses, Trial.movedUses, List.mem_flatMap, List.mem_flatMap]
  constructor
  · rintro ⟨x, hx, hu⟩
    -- a use of the part that moves is in a group of the part
    have hgroup := hmembers x (f u) (hevicted x hx) hu
    rw [hgroups.ofUse?_eq] at hgroup
    obtain ⟨g, -, rfl⟩ := Option.map_eq_some_iff.mp hgroup
    rw [hgroups.get_eq, List.mem_map_of_injective hf] at hu
    exact ⟨g, (hr.evicted.mem_iff hgroups.mono.injective).mp hx, hu⟩
  · rintro ⟨g, hg, hu⟩
    refine ⟨k g, (hr.evicted.mem_iff hgroups.mono.injective).mpr hg, ?_⟩
    rw [hgroups.get_eq]
    exact List.mem_map_of_mem hu

/-- Revisions that do the same to a part keep it a part. -/
theorem Program.Embeds.revise {q p : Program} (e : Embeds f h q p) {t t' : Trial} {r r' : Revision}
    (hnumber : t'.attempt.number = t.attempt.number) (hcuts : ∀ l, h l ∈ r'.cuts ↔ l ∈ r.cuts)
    (hmoved : ∀ u, f u ∈ t'.movedUses r' ↔ u ∈ t.movedUses r) :
    Embeds f h (q.revise t r) (p.revise t' r') := by
  refine e.congr (.revise p t' r') (fun u => ?_) (fun v => ?_) fun l => ?_
  · have same : (t'.movedUses r').contains (f u) = (t.movedUses r).contains u := by
      rw [Bool.eq_iff_iff, List.contains_iff_mem, List.contains_iff_mem, hmoved]
    have huse : p.uses[f u]? = q.uses[u]? := e.use?_eq u
    rw [use?, use?, getElem?_uses_revise, getElem?_uses_revise, huse, same]
  · rw [position?, position?, use?, use?, getElem?_uses_revise]
    cases p.uses[v]? <;> rfl
  · rw [getElem?_linkages_revise, getElem?_linkages_revise, e.linkage_eq, Option.map_map, Option.map_map]
    refine congrArg (fun g => q.linkages[l]?.map g) (funext fun c => ?_)
    have ends : (∃ v ∈ t'.movedUses r', (c.rename f).endsAt v = true) ↔
        ∃ u ∈ t.movedUses r, c.endsAt u = true := by
      simp only [Linkage.endsAt, Linkage.rename, Bool.or_eq_true, beq_iff_eq]
      constructor
      · rintro ⟨_, hv, rfl | rfl⟩
        · exact ⟨c.first, (hmoved _).mp hv, .inl rfl⟩
        · exact ⟨c.second, (hmoved _).mp hv, .inr rfl⟩
      · rintro ⟨_, hu, rfl | rfl⟩
        · exact ⟨f c.first, (hmoved _).mpr hu, .inl rfl⟩
        · exact ⟨f c.second, (hmoved _).mpr hu, .inr rfl⟩
    simp only [Function.comp, ends, hcuts, hnumber]
    rfl

end RegisterColoring
