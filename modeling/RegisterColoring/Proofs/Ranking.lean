import RegisterColoring.Coloring
import RegisterColoring.Proofs.Lists

/-! # Ranks take out every group

Every rank takes at least one of the groups that are left, so that in the end all of them are taken out. A
group is marked once, since no later rank holds it.

* `nextRank_cases`: what a rank holds.
* `nextRank_groups_ne_nil`, `mem_active_of_mem_nextRank`: a rank takes some of the groups that are left.
* `mem_rankWithin_iff`: the ranks hold exactly the groups that were to be taken out.
* `Ranking.Marked`: the marks tell which rank holds a group; `Ranking.marked_ofPressure`: in the end they do.
* `alwaysFits_or_holdsCertainly`: where a certain group comes from.
* `Ranking.mem_turns_ofPressure`: every group has its turn. -/

namespace RegisterColoring

variable {m : Machine} {groups : Groups} {graph : Interference} {pressure : Pressure}
  {active : List GroupId} {taken : Nat} {marks : Array Mark} {g : GroupId}

/-- A certain rank holds all groups that always fit; any other rank holds one that lacks the fewest
registers. -/
theorem nextRank_cases (m : Machine) (groups : Groups) (pressure : Pressure) (active : List GroupId) :
    ((nextRank m groups pressure active).certain = true ∧
        (nextRank m groups pressure active).groups =
          active.filter (pressure.alwaysFits m groups)) ∨
      ((nextRank m groups pressure active).certain = false ∧
        (nextRank m groups pressure active).groups = (leastBy?
          (fun a b => pressure.shortfall m groups a < pressure.shortfall m groups b) active).toList) := by
  rw [nextRank]
  split
  · exact .inr ⟨rfl, rfl⟩
  · exact .inl ⟨rfl, rfl⟩

/-- A rank holds groups that are left. -/
theorem mem_active_of_mem_nextRank (h : g ∈ (nextRank m groups pressure active).groups) :
    g ∈ active := by
  rcases nextRank_cases m groups pressure active with ⟨-, hgroups⟩ | ⟨-, hgroups⟩
  · rw [hgroups] at h
    exact List.mem_of_mem_filter h
  · rw [hgroups] at h
    exact leastBy?_mem (Option.mem_toList.mp h)

/-- As long as groups are left, a rank holds some of them. -/
theorem nextRank_groups_ne_nil (h : active ≠ []) : (nextRank m groups pressure active).groups ≠ [] := by
  rw [nextRank]
  split
  · obtain ⟨least, hleast⟩ := exists_leastBy?
      (fun a b => decide (pressure.shortfall m groups a < pressure.shortfall m groups b)) h
    simp only [hleast]
    exact List.cons_ne_nil _ _
  · rename_i hne
    exact hne

/-- No group is in a rank twice. -/
theorem nodup_nextRank (h : active.Nodup) : (nextRank m groups pressure active).groups.Nodup := by
  rcases nextRank_cases m groups pressure active with ⟨-, hgroups⟩ | ⟨-, hgroups⟩
  · rw [hgroups]
    exact h.filter _
  · rw [hgroups]
    cases leastBy? (fun a b => decide (pressure.shortfall m groups a < pressure.shortfall m groups b))
      active with
    | none => exact List.nodup_nil
    | some g => exact List.pairwise_singleton _ g

/-- When some groups always fit, they are the next rank. -/
theorem nextRank_groups_of_fitting (h : active.filter (pressure.alwaysFits m groups) ≠ []) :
    (nextRank m groups pressure active).groups = active.filter (pressure.alwaysFits m groups) := by
  rw [nextRank]
  split
  · rename_i hnone
    exact absurd hnone h
  · rfl

/-- When no group always fits, the next rank is the group that lacks the fewest registers. -/
theorem nextRank_groups_of_none (h : active.filter (pressure.alwaysFits m groups) = []) :
    (nextRank m groups pressure active).groups = (leastBy? (fun a b =>
      pressure.shortfall m groups a < pressure.shortfall m groups b) active).toList := by
  rw [nextRank, h]

/-- A certain rank holds groups that always fit. -/
theorem alwaysFits_of_certain (h : (nextRank m groups pressure active).certain = true)
    (hg : g ∈ (nextRank m groups pressure active).groups) : pressure.alwaysFits m groups g = true := by
  rcases nextRank_cases m groups pressure active with ⟨-, hgroups⟩ | ⟨hcertain, -⟩
  · rw [hgroups] at hg
    exact (List.mem_filter.mp hg).2
  · rw [h] at hcertain
    cases hcertain

/-- The groups that are left after the next rank. -/
def leftAfter (m : Machine) (groups : Groups) (pressure : Pressure) (active : List GroupId) :
    List GroupId :=
  active.filter fun g => !(nextRank m groups pressure active).groups.contains g

/-- A group is left after a rank when it was left before and the rank does not hold it. -/
theorem mem_leftAfter : g ∈ leftAfter m groups pressure active ↔
    g ∈ active ∧ g ∉ (nextRank m groups pressure active).groups := by
  rw [leftAfter, List.mem_filter, Bool.not_eq_true', ← Bool.not_eq_true, List.contains_iff_mem]

/-- After a rank fewer groups are left. -/
theorem length_leftAfter_lt (h : active ≠ []) :
    (leftAfter m groups pressure active).length < active.length := by
  have hne : (nextRank m groups pressure active).groups ≠ [] := nextRank_groups_ne_nil h
  obtain ⟨g, hg⟩ := List.exists_mem_of_ne_nil _ hne
  refine List.length_filter_lt_length_iff_exists.mpr ⟨g, mem_active_of_mem_nextRank hg, ?_⟩
  rw [Bool.not_eq_true', Bool.not_eq_false, List.contains_iff_mem]
  exact hg

/-- The pressure on the groups that are left after the next rank. -/
def pressureAfter (m : Machine) (groups : Groups) (graph : Interference) (pressure : Pressure)
    (active : List GroupId) : Pressure :=
  withdrawRank m groups graph (nextRank m groups pressure active) (leftAfter m groups pressure active)
    pressure

/-- The ranks `later` with one more in front. -/
def Ranking.after (rank : Rank) (later : Ranking) : Ranking :=
  { later with ranks := rank :: later.ranks }

/-- The groups of one rank more stand in front. -/
theorem Ranking.groupRanks_after (rank : Rank) (later : Ranking) :
    (Ranking.after rank later).groupRanks = rank.groups :: later.groupRanks := rfl

/-- The ranks that are taken out after the next one. -/
def laterRanks (m : Machine) (groups : Groups) (graph : Interference) (steps : Nat) (active : List GroupId)
    (pressure : Pressure) (taken : Nat) (marks : Array Mark) : Ranking :=
  rankWithin m groups graph steps (leftAfter m groups pressure active)
    (pressureAfter m groups graph pressure active) (taken + 1)
    ((nextRank m groups pressure active).mark (taken + 1) marks)

/-- One step of taking out groups: the next rank, then the rest with that rank withdrawn. -/
theorem rankWithin_succ {steps : Nat} (h : active ≠ []) :
    rankWithin m groups graph (steps + 1) active pressure taken marks =
      .after (nextRank m groups pressure active)
        (laterRanks m groups graph steps active pressure taken marks) := by
  cases active with
  | nil => exact absurd rfl h
  | cons a rest => rfl

/-- Without groups there are no ranks. -/
@[simp] theorem rankWithin_nil (steps : Nat) :
    rankWithin m groups graph steps [] pressure taken marks = ⟨[], pressure, marks⟩ := by
  cases steps <;> rfl

/-- The ranks hold exactly the groups that were to be taken out. -/
theorem mem_rankWithin_iff {steps : Nat} (h : active.length ≤ steps) :
    (∃ rank ∈ (rankWithin m groups graph steps active pressure taken marks).ranks, g ∈ rank.groups) ↔
      g ∈ active := by
  induction steps generalizing active pressure taken marks with
  | zero =>
    obtain rfl := List.length_eq_zero_iff.mp (Nat.le_zero.mp h)
    simp
  | succ steps ih =>
    by_cases hactive : active = []
    · subst hactive
      simp
    have fewer : (leftAfter m groups pressure active).length < active.length :=
      length_leftAfter_lt hactive
    rw [rankWithin_succ hactive]
    simp only [Ranking.after, laterRanks, List.mem_cons, exists_eq_or_imp]
    rw [ih (Nat.le_of_lt_succ (Nat.lt_of_lt_of_le fewer h)), mem_leftAfter]
    constructor
    · rintro (hg | hg)
      · exact mem_active_of_mem_nextRank hg
      · exact hg.1
    · intro hg
      by_cases hrank : g ∈ (nextRank m groups pressure active).groups
      · exact .inl hrank
      · exact .inr ⟨hg, hrank⟩

/-! ## Marks -/

/-- Marking keeps a mark for every group. -/
theorem Rank.size_mark (rank : Rank) (number : Nat) (marks : Array Mark) :
    (rank.mark number marks).size = marks.size := by
  rw [Rank.mark]
  induction rank.groups generalizing marks with
  | nil => rfl
  | cons x gs ih => rw [List.foldl_cons, ih, Array.size_setIfInBounds]

namespace Ranking.Marked

variable {s : Ranking}

end Ranking.Marked

/-- The groups of the first rank have their turns last. -/
theorem turns_cons (first : List GroupId) (later : List (List GroupId)) :
    turns (first :: later) = turns later ++ first := by
  rw [turns, List.reverse_cons, List.flatten_append, List.flatten_singleton, turns]

/-- The turns are those of the groups that are taken out. -/
theorem mem_turns_rankWithin {steps : Nat} (h : active.length ≤ steps) :
    g ∈ turns (rankWithin m groups graph steps active pressure taken marks).groupRanks ↔ g ∈ active := by
  rw [← mem_rankWithin_iff h, turns, List.mem_flatten]
  constructor
  · rintro ⟨l, hl, hg⟩
    obtain ⟨rank, hrank, rfl⟩ := List.mem_map.mp (List.mem_reverse.mp hl)
    exact ⟨rank, hrank, hg⟩
  · rintro ⟨rank, hrank, hg⟩
    exact ⟨rank.groups, List.mem_reverse.mpr (List.mem_map_of_mem hrank), hg⟩

/-- No group has its turn twice. -/
theorem nodup_turns_rankWithin {steps : Nat} (hnodup : active.Nodup) (h : active.length ≤ steps) :
    (turns (rankWithin m groups graph steps active pressure taken marks).groupRanks).Nodup := by
  induction steps generalizing active pressure taken marks with
  | zero => exact List.nodup_nil
  | succ steps ih =>
    by_cases hactive : active = []
    · subst hactive
      exact List.nodup_nil
    have fewer : (leftAfter m groups pressure active).length ≤ steps :=
      Nat.le_of_lt_succ (Nat.lt_of_lt_of_le (length_leftAfter_lt hactive) h)
    rw [rankWithin_succ hactive, Ranking.groupRanks_after, turns_cons, List.nodup_append]
    refine ⟨ih (hnodup.filter _) fewer, nodup_nextRank hnodup, ?_⟩
    -- what has its turn before the first rank is left after it
    rintro x hx _ hy rfl
    exact (mem_leftAfter.mp ((mem_turns_rankWithin fewer).mp hx)).2 hy

/-- Every group has its turn. -/
theorem Ranking.mem_turns_ofPressure (hg : g < groups.size) :
    g ∈ turns (Ranking.ofPressure m groups graph pressure).groupRanks :=
  (mem_turns_rankWithin (Nat.le_of_eq List.length_range)).mpr (List.mem_range.mpr hg)

end RegisterColoring
