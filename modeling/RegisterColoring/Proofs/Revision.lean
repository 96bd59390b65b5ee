import Mathlib.Data.Prod.Lex
import RegisterColoring.Proofs.Interference
import RegisterColoring.Proofs.Lists
import RegisterColoring.Revision

/-! # What a revision can do

A revision cuts active linkages only, and it never comes back empty: a group that went without registers
has a way out that is not empty, or it goes to memory.

* `mem_waysOut`, `active_of_mem_waysOut`: ways out are made of active linkages.
* `mem_ways_of_mem_helpAll`, `exists_rescue`: help takes one of a group's ways out, and reaches every group.
* `Revision.choose_eq_ok`, `Revision.choose_eq_error`: how a choice succeeds and fails.
* `Revision.pairwise_cuts`, `Revision.active_of_mem_cuts`, `Revision.helpless_of_mem_evicted`,
  `Revision.evicted_or_cut`, `Revision.cuts_ne_nil_or`: what a chosen revision is. -/

namespace RegisterColoring

/-! ## Ways out -/

/-- The ways out of a group are those by registers of its class, as far as they are not empty. -/
theorem mem_waysOut {m : Machine} {groups : Groups} {graph : Interference} {a : Assignment} {g : GroupId}
    {way : List LinkageId} : way ∈ waysOut m groups graph a g ↔
      way ≠ [] ∧ ∃ r ∈ m.members (groups.get g).classId, wayOut graph g (blockers m graph a g) r = way := by
  rw [waysOut, List.mem_eraseDups, List.mem_filter, List.mem_map, Bool.not_eq_true',
    List.isEmpty_eq_false_iff, and_comm]
  simp only [RegisterSet.mem_toList]

/-- Ways out are not empty, and made of active linkages. -/
theorem active_of_mem_waysOut {m : Machine} {p : Program} {groups : Groups} {a : Assignment}
    {g : GroupId} {way : List LinkageId} (h : way ∈ waysOut m groups (.ofGroups p groups) a g) :
    way ≠ [] ∧ ∀ l ∈ way, ∃ k, (k, l) ∈ p.activeLinkages := by
  obtain ⟨hne, r, -, rfl⟩ := mem_waysOut.mp h
  refine ⟨hne, fun l hl => ?_⟩
  rw [wayOut] at hl
  rcases mem_foldl_unionAscending.mp hl with hl | ⟨b, -, hl⟩
  · cases hl
  · exact Interference.active_of_mem_linkagesBehind hl

/-! ## Help -/

/-- A group that has ways out has a cheapest one, which is among them. -/
theorem Need.cheapest?_spec {n : Need} (h : n.ways ≠ []) (broken : List LinkageId) :
    ∃ way ∈ n.ways, n.cheapest? broken = some way := by
  obtain ⟨way, hway⟩ := exists_leastBy? (fun w v => cost broken w < cost broken v) h
  exact ⟨way, leastBy?_mem hway, hway⟩

/-- A need is met before another by price, then by group. -/
theorem Need.before_iff {broken : List LinkageId} {n n' : Need} : n.before broken n' = true ↔
    toLex (n.price broken, n.group) < toLex (n'.price broken, n'.group) := by
  rw [Need.before, Prod.Lex.toLex_lt_toLex, Bool.or_eq_true, Bool.and_eq_true, decide_eq_true_eq,
    decide_eq_true_eq, beq_iff_eq]

/-- Help takes one of a group's ways out. -/
theorem mem_ways_of_mem_helpAll {steps : Nat} {needs : List Need} {broken : List LinkageId}
    (hways : ∀ n ∈ needs, n.ways ≠ []) {r : Rescue} (hr : r ∈ helpAll steps needs broken) :
    ∃ n ∈ needs, r.way ∈ n.ways := by
  induction steps generalizing needs broken with
  | zero => cases hr
  | succ steps ih =>
    rw [helpAll] at hr
    split at hr
    · cases hr
    · rename_i n hn
      have hmem := leastBy?_mem hn
      rcases List.mem_cons.mp hr with rfl | hr
      · obtain ⟨way, hway, hcheapest⟩ := Need.cheapest?_spec (hways n hmem) broken
        refine ⟨n, hmem, ?_⟩
        rw [hcheapest]
        exact hway
      · obtain ⟨k, hk, hway⟩ := ih (fun k hk => hways k (List.mem_of_mem_erase hk)) hr
        exact ⟨k, List.mem_of_mem_erase hk, hway⟩

/-- Every group in need is helped by one of its ways out. -/
theorem exists_rescue {steps : Nat} {needs : List Need} (broken : List LinkageId)
    (hways : ∀ n ∈ needs, n.ways ≠ []) (hsteps : needs.length ≤ steps) {n : Need} (hn : n ∈ needs) :
    ∃ r ∈ helpAll steps needs broken, r.group = n.group ∧ r.way ∈ n.ways := by
  induction steps generalizing needs broken with
  | zero =>
    rw [List.length_eq_zero_iff.mp (Nat.le_zero.mp hsteps)] at hn
    cases hn
  | succ steps ih =>
    obtain ⟨k, hk⟩ := exists_leastBy? (Need.before broken) (List.ne_nil_of_mem hn)
    have hmem := leastBy?_mem hk
    rw [helpAll, hk]
    by_cases heq : n = k
    · obtain ⟨way, hway, hcheapest⟩ := Need.cheapest?_spec (hways k hmem) broken
      refine ⟨_, List.mem_cons_self, congrArg Need.group heq.symm, ?_⟩
      rw [heq, hcheapest]
      exact hway
    · -- the others wait for the next step
      have hfewer : (needs.erase k).length ≤ steps := by
        rw [List.length_erase_of_mem hmem]
        omega
      obtain ⟨r, hr, hgroup, hway⟩ := ih _ (fun n hn => hways n (List.mem_of_mem_erase hn)) hfewer
        ((List.mem_erase_of_ne heq).mpr hn)
      exact ⟨r, List.mem_cons_of_mem _ hr, hgroup, hway⟩

/-! ## The choice -/

/-- The error for a group that does not fit names the first use of the group and its function. -/
theorem misfit_eq {m : Machine} {p : Program} {groups : Groups} {g : GroupId} {use : Use} {name : String}
    (huse : p.use? ((groups.get g).members.headD 0) = some use)
    (hname : p.functions[use.function]? = some name) :
    misfit m p groups g = .doesNotFit name use.kind use.operation (m.className (groups.get g).classId)
      (groups.get g).registers (m.capacity (groups.get g).classId) := by
  simp only [misfit, Program.useOrFault, huse, bind, Except.bind, Program.nameOfFunction, hname]
  rfl

namespace Revision

theorem mem_cuts {d : Revision} {l : LinkageId} : l ∈ d.cuts ↔ ∃ r ∈ d.rescues, l ∈ r.way := by
  rw [cuts, mem_foldl_unionAscending]
  simp

/-- The linkages to cut are listed in ascending order. -/
theorem pairwise_cuts (d : Revision) : d.cuts.Pairwise (· < ·) :=
  List.foldlRecOn d.rescues _ List.Pairwise.nil fun _ h _ _ => pairwise_unionAscending h

/-- No linkage is cut twice. -/
theorem nodup_cuts (d : Revision) : d.cuts.Nodup :=
  d.pairwise_cuts.imp Nat.ne_of_lt

variable {m : Machine} {p : Program} {groups : Groups} {a : Assignment} {uncolored : List GroupId}
  {settings : Settings} {r : Revision}

/-- The needs of groups. -/
def needsOf (m : Machine) (groups : Groups) (graph : Interference) (a : Assignment)
    (uncolored : List GroupId) : List Need :=
  uncolored.map fun g => Need.mk g (waysOut m groups graph a g)

/-- The needs of groups are those of these groups. -/
theorem map_group_needsOf {graph : Interference} :
    (needsOf m groups graph a uncolored).map Need.group = uncolored := by
  rw [needsOf, List.map_map]
  exact List.map_id uncolored

/-- How a revision that can be chosen came about: nothing keeps a group from being helped or evicted, the
groups with ways out are helped, and those without are evicted. -/
theorem choose_eq_ok {graph : Interference} (h : choose m p groups graph a uncolored settings = .ok r) :
    let needs := needsOf m groups graph a uncolored
    (∀ n ∈ needs, n.group < groups.size ∧ (n.ways = [] → settings.spillUnallocatable = true)) ∧
      r.rescues = helpAll (needs.filter fun n => !n.ways.isEmpty).length
        (needs.filter fun n => !n.ways.isEmpty) [] ∧
      r.evicted = (needs.filter fun n => n.ways.isEmpty).map Need.group := by
  intro needs
  rw [choose] at h
  split at h
  · cases h
  · rename_i hnone
    cases h
    -- a need that could not be met would have been found as a refusal
    refine ⟨fun n hn => ?_, rfl, rfl⟩
    have hrefusal := List.findSome?_eq_none_iff.mp hnone n hn
    rw [refusal?] at hrefusal
    split at hrefusal
    · cases hrefusal
    · rename_i hsize
      refine ⟨Nat.lt_of_not_le hsize, fun hways => ?_⟩
      by_contra hspill
      rw [if_pos (by simp [hways, hspill])] at hrefusal
      cases hrefusal

/-- When no group goes without, there is nothing to change. -/
theorem choose_nil (graph : Interference) : choose m p groups graph a [] settings = .ok ⟨[], []⟩ := rfl

/-- A revision can be chosen when every group is there and has a way out or may go to memory. -/
theorem exists_choose {graph : Interference} (h : ∀ n ∈ needsOf m groups graph a uncolored,
    n.group < groups.size ∧ (n.ways = [] → settings.spillUnallocatable = true)) :
    ∃ r, choose m p groups graph a uncolored settings = .ok r := by
  have hnone : (needsOf m groups graph a uncolored).findSome? (refusal? m p groups settings) = none := by
    refine List.findSome?_eq_none_iff.mpr fun n hn => ?_
    obtain ⟨hgroup, hways⟩ := h n hn
    rw [refusal?, if_neg (Nat.not_le.mpr hgroup), if_neg]
    rw [Bool.and_eq_true, List.isEmpty_iff]
    rintro ⟨hnil, hspill⟩
    rw [hways hnil] at hspill
    cases hspill
  rw [choose]
  split
  · rename_i e hsome
    rw [needsOf] at hnone
    rw [hnone] at hsome
    cases hsome
  · exact ⟨_, rfl⟩

/-- A revision that cannot be chosen fails for a group that is not there, or for one that went without
registers, has no way out, may not go to memory and does not fit its class. -/
theorem choose_eq_error {graph : Interference} {e : AllocationError}
    (h : choose m p groups graph a uncolored settings = .error e) :
    (∃ g ∈ uncolored, groups.size ≤ g ∧ e = .fault (.missingGroup g)) ∨
      ∃ g ∈ uncolored, waysOut m groups graph a g = [] ∧ settings.spillUnallocatable = false ∧
        e = misfit m p groups g := by
  rw [choose] at h
  split at h
  · rename_i e' hsome
    cases h
    obtain ⟨n, hn, hrefusal⟩ := List.exists_of_findSome?_eq_some hsome
    obtain ⟨g, hg, rfl⟩ := List.mem_map.mp hn
    rw [refusal?] at hrefusal
    split at hrefusal
    · rename_i hsize
      cases hrefusal
      exact .inl ⟨g, hg, hsize, rfl⟩
    · split at hrefusal
      · rename_i hways
        cases hrefusal
        rw [Bool.and_eq_true, List.isEmpty_iff, Bool.not_eq_true'] at hways
        exact .inr ⟨g, hg, hways.1, hways.2, rfl⟩
      · cases hrefusal
  · cases h

/-- A revision helps groups by ways out, which are not empty and made of active linkages. -/
theorem active_of_mem_rescues
    (h : choose m p groups (.ofGroups p groups) a uncolored settings = .ok r) {rescue : Rescue}
    (hmem : rescue ∈ r.rescues) :
    rescue.way ≠ [] ∧ ∀ l ∈ rescue.way, ∃ k, (k, l) ∈ p.activeLinkages := by
  obtain ⟨-, hrescues, -⟩ := choose_eq_ok h
  rw [hrescues] at hmem
  obtain ⟨n, hn, hway⟩ := mem_ways_of_mem_helpAll
    (fun n hn => by simpa using (List.mem_filter.mp hn).2) hmem
  obtain ⟨g, -, rfl⟩ := List.mem_map.mp (List.mem_filter.mp hn).1
  exact active_of_mem_waysOut hway

/-- A revision cuts active linkages only. -/
theorem active_of_mem_cuts (h : choose m p groups (.ofGroups p groups) a uncolored settings = .ok r)
    {l : LinkageId} (hl : l ∈ r.cuts) : ∃ k, (k, l) ∈ p.activeLinkages := by
  obtain ⟨rescue, hmem, hway⟩ := mem_cuts.mp hl
  exact (active_of_mem_rescues h hmem).2 l hway

/-- A revision evicts groups that are there, and only where that is allowed. -/
theorem of_mem_evicted {graph : Interference} (h : choose m p groups graph a uncolored settings = .ok r)
    {g : GroupId} (hg : g ∈ r.evicted) : g < groups.size ∧ settings.spillUnallocatable = true := by
  obtain ⟨hneeds, -, hevicted⟩ := choose_eq_ok h
  rw [hevicted] at hg
  obtain ⟨n, hn, rfl⟩ := List.mem_map.mp hg
  obtain ⟨hmem, hempty⟩ := List.mem_filter.mp hn
  exact ⟨(hneeds n hmem).1, (hneeds n hmem).2 (List.isEmpty_iff.mp hempty)⟩

/-- A revision evicts groups that went without registers and have no way out. -/
theorem helpless_of_mem_evicted {graph : Interference}
    (h : choose m p groups graph a uncolored settings = .ok r) {g : GroupId} (hg : g ∈ r.evicted) :
    g ∈ uncolored ∧ waysOut m groups graph a g = [] := by
  obtain ⟨-, -, hevicted⟩ := choose_eq_ok h
  rw [hevicted] at hg
  obtain ⟨n, hn, rfl⟩ := List.mem_map.mp hg
  obtain ⟨hmem, hempty⟩ := List.mem_filter.mp hn
  obtain ⟨x, hx, rfl⟩ := List.mem_map.mp hmem
  exact ⟨hx, List.isEmpty_iff.mp hempty⟩

/-- A group that went without goes to memory, or one of its ways out is cut. -/
theorem evicted_or_cut {graph : Interference} (h : choose m p groups graph a uncolored settings = .ok r)
    {g : GroupId} (hg : g ∈ uncolored) :
    g ∈ r.evicted ∨ ∃ way ∈ waysOut m groups graph a g, ∀ l ∈ way, l ∈ r.cuts := by
  obtain ⟨-, hrescues, hevicted⟩ := choose_eq_ok h
  have hneed : Need.mk g (waysOut m groups graph a g) ∈ needsOf m groups graph a uncolored :=
    List.mem_map_of_mem hg
  by_cases hways : waysOut m groups graph a g = []
  · left
    rw [hevicted]
    exact List.mem_map.mpr ⟨_, List.mem_filter.mpr ⟨hneed, List.isEmpty_iff.mpr hways⟩, rfl⟩
  · right
    have helped : Need.mk g (waysOut m groups graph a g) ∈
        (needsOf m groups graph a uncolored).filter fun n => !n.ways.isEmpty := by
      rw [List.mem_filter]
      exact ⟨hneed, by simpa using hways⟩
    obtain ⟨rescue, hrescue, -, hway⟩ := exists_rescue []
      (fun n hn => by simpa using (List.mem_filter.mp hn).2) le_rfl helped
    rw [← hrescues] at hrescue
    exact ⟨rescue.way, hway, fun l hl => mem_cuts.mpr ⟨rescue, hrescue, hl⟩⟩

/-- A revision for groups that went without cuts a linkage or evicts a group. -/
theorem cuts_ne_nil_or (h : choose m p groups (.ofGroups p groups) a uncolored settings = .ok r)
    (hne : ¬uncolored.isEmpty = true) : r.cuts ≠ [] ∨ r.evicted ≠ [] := by
  obtain ⟨g, hg⟩ := List.exists_mem_of_ne_nil _ fun hnil => hne (List.isEmpty_iff.mpr hnil)
  rcases evicted_or_cut h hg with hevicted | ⟨way, hway, hcuts⟩
  · exact .inr (List.ne_nil_of_mem hevicted)
  · -- no way out is empty
    obtain ⟨l, hl⟩ := List.exists_mem_of_ne_nil way (active_of_mem_waysOut hway).1
    exact .inl (List.ne_nil_of_mem (hcuts l hl))

end Revision

end RegisterColoring
