import RegisterColoring.Pressure

/-! # Ranks of groups

The order in which groups are given registers is found from its end. Rank by rank, all groups that can
always be given registers after their remaining neighbours are taken out together. When there is none,
the one that lacks the fewest registers is taken out alone, in the hope that its neighbours leave it
enough. What is taken out presses no longer on the groups that remain.

* `Rank`: groups taken out together.
* `Mark`: what is noted at a group when it is taken out.
* `Ranking.ofPressure`: all ranks, the pressure that is left, and the marks of the groups. -/

namespace RegisterColoring

/-- Groups that are taken out together. -/
structure Rank where
  /-- The groups. -/
  groups : List GroupId
  /-- Whether they can always be given registers after the groups that were left. -/
  certain : Bool
  deriving Repr, DecidableEq

/-- The groups that are left can be taken out in this way next. -/
def nextRank (m : Machine) (groups : Groups) (pressure : Pressure) (active : List GroupId) : Rank :=
  match active.filter (pressure.alwaysFits m groups) with
  | [] =>
    let nearer (a b : GroupId) : Bool := pressure.shortfall m groups a < pressure.shortfall m groups b
    ⟨(leastBy? nearer active).toList, false⟩
  | fitting => ⟨fitting, true⟩

/-- The demands of the groups of a rank that are neighbours of `g`, in the order of the rank. -/
def demandsOfRank (groups : Groups) (graph : Interference) (rank : Rank) (g : GroupId) :
    List Demand :=
  (rank.groups.filter fun r => (graph.neighbors r).contains g).map fun r => (groups.get r).demand

/-- Withdraw the neighbours of a group that are in a rank. -/
def withdrawFrom (m : Machine) (groups : Groups) (graph : Interference) (rank : Rank)
    (pressure : Pressure) (g : GroupId) : Pressure :=
  match demandsOfRank groups graph rank g with
  | [] => pressure
  | ds => pressure.withdraw m groups g ds

/-- Withdraw a rank from all groups that are left. -/
def withdrawRank (m : Machine) (groups : Groups) (graph : Interference) (rank : Rank)
    (active : List GroupId) (pressure : Pressure) : Pressure :=
  active.foldl (withdrawFrom m groups graph rank) pressure

/-- What is noted at a group when it is taken out. -/
structure Mark where
  /-- The number of its rank, counted from 1, or 0 as long as the group is left. -/
  rank : Nat
  /-- Whether it can always be given registers after the groups that were left. -/
  certain : Bool
  deriving Repr, DecidableEq

/-- The mark of a group that is left. -/
def Mark.blank : Mark :=
  ⟨0, false⟩

/-- Mark the groups of the rank that has this number. -/
def Rank.mark (rank : Rank) (number : Nat) (marks : Array Mark) : Array Mark :=
  rank.groups.foldl (fun marks g => marks.setIfInBounds g ⟨number, rank.certain⟩) marks

/-- All groups, in ranks. -/
structure Ranking where
  /-- The ranks, first taken out first. -/
  ranks : List Rank
  /-- The pressure left: on each group, that of the neighbours that were not taken out before it. -/
  pressure : Pressure
  /-- The mark of each group. -/
  marks : Array Mark
  deriving Repr, Inhabited

/-- Take out the groups in `active`, rank by rank, and mark them, when `taken` ranks were taken out before.
Every rank takes at least one of the groups, so their number bounds the ranks. -/
def rankWithin (m : Machine) (groups : Groups) (graph : Interference) :
    Nat → List GroupId → Pressure → Nat → Array Mark → Ranking
  | 0, _, pressure, _, marks => ⟨[], pressure, marks⟩
  | _ + 1, [], pressure, _, marks => ⟨[], pressure, marks⟩
  | steps + 1, active, pressure, taken, marks =>
    let rank := nextRank m groups pressure active
    let rest := active.filter fun g => !rank.groups.contains g
    let marks := rank.mark (taken + 1) marks
    let pressure := withdrawRank m groups graph rank rest pressure
    let later := rankWithin m groups graph steps rest pressure (taken + 1) marks
    { later with ranks := rank :: later.ranks }

/-- Take out all groups, given the pressure on them. -/
def Ranking.ofPressure (m : Machine) (groups : Groups) (graph : Interference) (pressure : Pressure) :
    Ranking :=
  rankWithin m groups graph groups.size groups.ids pressure 0 (Array.replicate groups.size .blank)

namespace Ranking

/-- How many ranks were taken out in hope only. -/
def hopeful (s : Ranking) : Nat :=
  s.ranks.countP fun r => !r.certain

/-- The groups of each rank. -/
def groupRanks (s : Ranking) : List (List GroupId) :=
  s.ranks.map Rank.groups

end Ranking

end RegisterColoring
