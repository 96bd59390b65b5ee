import Mathlib.Algebra.Order.BigOperators.Group.List
import Mathlib.Algebra.Order.Group.Nat
import Mathlib.Data.List.Nodup
import RegisterColoring.Proofs.Machine
import RegisterColoring.Proofs.Program
import RegisterColoring.Proofs.Revision

/-! # The order in which groups are helped

Help goes to the group next whose cheapest way out breaks the fewest linkages anew, and to the lower one of two that
cost the same. No two groups tie, so the order in which they are listed does not count. What was broken for one
group need not be broken again for the next: the linkages that are broken in the end are no more than if every group
were helped for itself by its smallest way out.

* `helpAll_perm`: help does not depend on the order of needs.
* `Revision.choose_perm`: neither does the revision, but for the order in which groups go to memory.
* `length_unionAscending_le`, `cost_cheapest_le`: what one group adds to the linkages that are broken.
* `length_broken_helpAll_le`: what all groups add.
* `revision_in_any_order`: the choice of a revision for groups that are listed once. -/

namespace RegisterColoring

/-! ## Any order of needs -/

/-- Needs of different groups are met in the same order and in the same way, however they are listed. -/
theorem helpAll_perm {needs needs' : List Need} (h : needs'.Perm needs)
    (hgroups : (needs.map Need.group).Nodup) (steps : Nat) (broken : List LinkageId) :
    helpAll steps needs' broken = helpAll steps needs broken := by
  induction steps generalizing needs needs' broken with
  | zero => rfl
  | succ steps ih =>
    -- needs with the same price are told apart by their groups
    have distinct : ∀ n ∈ needs, ∀ n' ∈ needs,
        toLex (n.price broken, n.group) = toLex (n'.price broken, n'.group) → n = n' := by
      intro n hn n' hn' heq
      exact List.inj_on_of_nodup_map hgroups hn hn' (Prod.mk.inj (toLex.injective heq)).2
    have next : leastBy? (Need.before broken) needs' = leastBy? (Need.before broken) needs :=
      leastBy?_perm (f := fun n => toLex (n.price broken, n.group)) (fun _ _ => Need.before_iff) distinct h
    rw [helpAll, helpAll, next]
    split
    · rfl
    · rename_i n hn
      have fewer : ((needs.erase n).map Need.group).Nodup :=
        hgroups.sublist (List.erase_sublist.map Need.group)
      simp only [ih (h.erase n) fewer]

namespace Revision

variable {m : Machine} {p : Program} {groups : Groups} {graph : Interference} {a : Assignment}
  {uncolored uncolored' : List GroupId} {settings : Settings} {r : Revision}

/-- Groups that are listed once may be listed in any order: the same ones are helped in the same way, and the same
ones go to memory. -/
theorem choose_perm (hnodup : uncolored.Nodup) (h : choose m p groups graph a uncolored settings = .ok r)
    (hperm : uncolored'.Perm uncolored) :
    ∃ r', choose m p groups graph a uncolored' settings = .ok r' ∧ r'.rescues = r.rescues ∧
      r'.evicted.Perm r.evicted := by
  obtain ⟨possible, hrescues, hevicted⟩ := choose_eq_ok h
  have perm : (needsOf m groups graph a uncolored').Perm (needsOf m groups graph a uncolored) := hperm.map _
  obtain ⟨r', hr'⟩ : ∃ r', choose m p groups graph a uncolored' settings = .ok r' :=
    exists_choose fun n hn => possible n (perm.mem_iff.mp hn)
  obtain ⟨-, hrescues', hevicted'⟩ := choose_eq_ok hr'
  refine ⟨r', hr', ?_, ?_⟩
  · have helped := perm.filter fun n => !n.ways.isEmpty
    have distinct : (((needsOf m groups graph a uncolored).filter fun n => !n.ways.isEmpty).map
        Need.group).Nodup := by
      apply List.Nodup.sublist (List.filter_sublist.map Need.group)
      rwa [map_group_needsOf]
    rw [hrescues', hrescues, helped.length_eq, helpAll_perm helped distinct]
  · rw [hevicted', hevicted]
    exact (perm.filter _).map _

end Revision

/-! ## What help breaks -/

/-- The size of the smallest of some ways out, and 0 if there is none. -/
def smallestWay (ways : List (List LinkageId)) : Nat :=
  (ways.map List.length).min?.getD 0

/-- As long as there are ways out, one of them has the smallest size. -/
theorem exists_smallestWay {ways : List (List LinkageId)} (h : ways ≠ []) :
    ∃ way ∈ ways, way.length = smallestWay ways := by
  cases hmin : (ways.map List.length).min? with
  | none => exact absurd (List.map_eq_nil_iff.mp (List.min?_eq_none_iff.mp hmin)) h
  | some least =>
    obtain ⟨way, hway, hlength⟩ := List.mem_map.mp (List.min?_mem hmin)
    refine ⟨way, hway, ?_⟩
    rw [smallestWay, hmin, hlength, Option.getD_some]

/-- Breaking a way out adds what it costs at most. -/
theorem length_unionAscending_le {broken : List LinkageId} (h : broken.Pairwise (· < ·)) (way : List LinkageId) :
    (unionAscending way broken).length ≤ broken.length + cost broken way := by
  induction way with
  | nil => exact Nat.le_add_right _ _
  | cons l way ih =>
    show (insertAscending l (unionAscending way broken)).length ≤ _
    by_cases hl : l ∈ broken
    · rw [insertAscending_of_mem (pairwise_unionAscending h) (mem_unionAscending.mpr (.inr hl))]
      simpa [cost, hl] using ih
    · have added := length_insertAscending_le l (unionAscending way broken)
      have counted : cost broken (l :: way) = cost broken way + 1 := by simp [cost, hl]
      omega

/-- The cheapest way out costs no more than the smallest has linkages. -/
theorem cost_cheapest_le (broken : List LinkageId) (n : Need) :
    cost broken ((n.cheapest? broken).getD []) ≤ smallestWay n.ways := by
  by_cases hways : n.ways = []
  · rw [Need.cheapest?, hways]
    exact Nat.zero_le _
  · obtain ⟨way, -, hcheapest⟩ := Need.cheapest?_spec hways broken
    obtain ⟨small, hsmall, hlength⟩ := exists_smallestWay hways
    rw [hcheapest, Option.getD_some, ← hlength]
    calc cost broken way ≤ cost broken small :=
          key_le_of_leastBy? (f := cost broken) (fun _ _ => decide_eq_true_iff) hcheapest hsmall
      _ ≤ small.length := List.length_filter_le _ _

/-- Help for some groups adds no more linkages to those that are broken than the smallest ways out of the groups have
together. -/
theorem length_broken_helpAll_le (steps : Nat) (needs : List Need) {broken : List LinkageId}
    (h : broken.Pairwise (· < ·)) :
    ((helpAll steps needs broken).foldl (fun found r => unionAscending r.way found) broken).length ≤
      broken.length + (needs.map fun n => smallestWay n.ways).sum := by
  induction steps generalizing needs broken with
  | zero => exact Nat.le_add_right _ _
  | succ steps ih =>
    rw [helpAll]
    split
    · exact Nat.le_add_right _ _
    · rename_i n hn
      have later := ih (needs.erase n) (pairwise_unionAscending (l := (n.cheapest? broken).getD []) h)
      have now := length_unionAscending_le h ((n.cheapest? broken).getD [])
      have cheap := cost_cheapest_le broken n
      have whole := ((List.perm_cons_erase (leastBy?_mem hn)).map fun n => smallestWay n.ways).sum_eq
      rw [List.map_cons, List.sum_cons] at whole
      apply later.trans
      omega

/-- A revision cuts no more linkages than the smallest ways out of the groups that have any have together. -/
theorem Revision.length_cuts_le {m : Machine} {p : Program} {groups : Groups} {graph : Interference}
    {a : Assignment} {uncolored : List GroupId} {settings : Settings} {r : Revision}
    (h : choose m p groups graph a uncolored settings = .ok r) :
    r.cuts.length ≤ ((uncolored.filter fun g => !(waysOut m groups graph a g).isEmpty).map fun g =>
      smallestWay (waysOut m groups graph a g)).sum := by
  obtain ⟨-, hrescues, -⟩ := choose_eq_ok h
  have bound : r.cuts.length ≤ 0 + (((needsOf m groups graph a uncolored).filter fun n =>
      !n.ways.isEmpty).map fun n => smallestWay n.ways).sum := by
    rw [cuts, hrescues]
    exact length_broken_helpAll_le _ _ .nil
  rw [needsOf, List.filter_map, List.map_map, Nat.zero_add] at bound
  exact bound

/-- When a revision can be chosen for groups that are listed once, it does not depend on the order in which they are
listed: in any other order the same linkages are cut, for the same groups one after the other, and the same groups
go to memory. No more linkages are cut than the smallest ways out of the groups that have any have together. -/
theorem revision_in_any_order {m : Machine} {p : Program} {groups : Groups} {graph : Interference}
    {a : Assignment} {uncolored : List GroupId} {settings : Settings} {r : Revision}
    (hnodup : uncolored.Nodup) (h : Revision.choose m p groups graph a uncolored settings = .ok r) :
    (∀ uncolored' : List GroupId, uncolored'.Perm uncolored →
      ∃ r', Revision.choose m p groups graph a uncolored' settings = .ok r' ∧ r'.cuts = r.cuts ∧
        r'.rescues = r.rescues ∧ r'.evicted.Perm r.evicted) ∧
      r.cuts.length ≤ ((uncolored.filter fun g => !(waysOut m groups graph a g).isEmpty).map fun g =>
        smallestWay (waysOut m groups graph a g)).sum := by
  refine ⟨fun uncolored' hperm => ?_, Revision.length_cuts_le h⟩
  obtain ⟨r', hr', hrescues, hevicted⟩ := Revision.choose_perm hnodup h hperm
  refine ⟨r', hr', ?_, hrescues, hevicted⟩
  rw [Revision.cuts, Revision.cuts, hrescues]

/-- A word that lives across two bytes, and a use that needs two words. -/
def overshadowed : Program where
  functions := #["f"]
  uses := #[
    ⟨0, .tripleOutput, 0, some 1, 1, some ⟨0, 0⟩, false⟩,
    ⟨0, .operand, 1, some 1, 1, some ⟨0, 3⟩, false⟩,
    ⟨0, .operand, 2, some 0, 1, some ⟨0, 1⟩, false⟩,
    ⟨0, .operand, 3, some 0, 1, some ⟨0, 2⟩, false⟩,
    ⟨0, .temp, 4, some 1, 2, none, false⟩]
  linkages := #[⟨0, 1, .active⟩]

/-- The groups of the word, of the two bytes and of the use that needs two words. -/
def overshadowedGroups : Groups :=
  ⟨#[⟨[0, 1], 1, 1⟩, ⟨[2], 0, 1⟩, ⟨[3], 0, 1⟩, ⟨[4], 1, 2⟩], #[some 0, some 0, some 1, some 2, some 3]⟩

/-- When the word is coloured first, both bytes go without, and breaking its linkage helps both of them, in whatever
order they are listed. The use that needs two words goes to memory. -/
theorem revision_in_any_order_overshadowed :
    let graph := Interference.ofGroups overshadowed overshadowedGroups
    let a : Assignment := #[[2], [], [], []]
    let r : Revision := ⟨[⟨1, [0]⟩, ⟨2, [0]⟩], [3]⟩
    let settings : Settings := { spillUnallocatable := true }
    Groups.ofPartition bytePairMachine overshadowed overshadowed.joinedSets = .ok overshadowedGroups ∧
      (Coloring.ofRanks bytePairMachine overshadowedGroups graph [[1, 2], [3], [0]]
        (.none overshadowedGroups)).uncolored = [3, 1, 2] ∧
      Revision.choose bytePairMachine overshadowed overshadowedGroups graph a [3, 1, 2] settings = .ok r ∧
      (∃ r', Revision.choose bytePairMachine overshadowed overshadowedGroups graph a [2, 3, 1] settings =
        .ok r' ∧ r'.cuts = [0] ∧ r'.evicted.Perm [3]) ∧
      r.cuts.length ≤ (([3, 1, 2].filter fun g =>
        !(waysOut bytePairMachine overshadowedGroups graph a g).isEmpty).map fun g =>
          smallestWay (waysOut bytePairMachine overshadowedGroups graph a g)).sum := by
  have formed : Groups.ofPartition bytePairMachine overshadowed overshadowed.joinedSets =
      .ok overshadowedGroups := by
    rfl
  have without : (Coloring.ofRanks bytePairMachine overshadowedGroups
      (.ofGroups overshadowed overshadowedGroups) [[1, 2], [3], [0]] (.none overshadowedGroups)).uncolored =
        [3, 1, 2] := by
    decide +kernel
  have chosen : Revision.choose bytePairMachine overshadowed overshadowedGroups
      (.ofGroups overshadowed overshadowedGroups) #[[2], [], [], []] [3, 1, 2] { spillUnallocatable := true } =
        .ok ⟨[⟨1, [0]⟩, ⟨2, [0]⟩], [3]⟩ := by
    decide +kernel
  obtain ⟨anyOrder, bounded⟩ := revision_in_any_order (by decide) chosen
  obtain ⟨r', hr', hcuts, -, hevicted⟩ := anyOrder [2, 3, 1] (by decide)
  exact ⟨formed, without, chosen, ⟨r', hr', hcuts, hevicted⟩, bounded⟩

end RegisterColoring
