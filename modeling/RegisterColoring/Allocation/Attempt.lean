import RegisterColoring.Grouping.Separation
import RegisterColoring.Revision

/-! # Attempts

One attempt joins the uses, separates the conflicts, finds out which groups interfere, ranks the groups
and colours them with registers. It ends with registers for all groups or with a revision of the program
for the next attempt.

* `Attempt.ofProgram`: the groups of an attempt and their interference, and the program with its
  conflicts split.
* `Attempt.trial`: ranks and colouring.
* `Program.revise`: the program with a revision carried out. -/

namespace RegisterColoring

/-- The groups of one attempt and how they interfere. -/
structure Attempt where
  /-- The number of the attempt, from 1. -/
  number : Nat
  /-- The groups. -/
  groups : Groups
  /-- How they interfere. -/
  graph : Interference
  /-- How many sets of uses were divided because of conflicts. -/
  splits : Nat
  deriving Repr

namespace Attempt

/-- Join the uses anew, separate the conflicts, and find out which groups interfere. The program that is
left has its conflicts split, unless a fault comes before that. -/
def ofProgram (m : Machine) (p : Program) (number : Nat) : Program × Except AllocationError Attempt :=
  let p := p.resetSplits
  let s := p.separate m p.joinedSets
  match p.joinFault?.or (s.fault? p) with
  | some f => (p, .error (.fault f))
  | none =>
    match Groups.ofPartition m s.program s.partition with
    | .error cause => (s.program, .error (.defect cause))
    | .ok groups =>
      match s.program.missingEnd? with
      | some u => (s.program, .error (.fault (.missingUse u)))
      | none =>
        (s.program, .ok ⟨number, groups, .ofGroups s.program groups, s.splits.length⟩)

end Attempt

/-- An attempt with its groups ranked and coloured. -/
structure Trial where
  /-- The attempt. -/
  attempt : Attempt
  /-- The order in which the groups were taken out. -/
  ranking : Ranking
  /-- The registers they were given. -/
  coloring : Coloring
  deriving Repr

namespace Attempt

/-- Rank the groups of an attempt and colour them. -/
def trial (m : Machine) (a : Attempt) : Trial :=
  let ranking := Ranking.ofPressure m a.groups a.graph (.ofGroups m a.groups a.graph)
  ⟨a, ranking, .ofRanks m a.groups a.graph ranking.groupRanks (.none a.groups)⟩

end Attempt

namespace Trial

/-- The groups that went without registers. -/
def uncolored (t : Trial) : List GroupId :=
  t.coloring.uncolored

/-- The counters of an attempt in which every group was given registers. -/
def tally (t : Trial) : Tally where
  attempt := t.attempt.number
  groups := t.attempt.groups.size
  splits := t.attempt.splits
  edges := t.attempt.graph.edges.length
  ranks := t.ranking.ranks.length
  hopeful := t.ranking.hopeful

/-- The uses of the groups that a revision moves to memory. -/
def movedUses (t : Trial) (r : Revision) : List UseId :=
  r.evicted.flatMap fun g => (t.attempt.groups.get g).members

/-- The counters of an attempt that ended with a revision. -/
def revisedTally (t : Trial) (r : Revision) : Tally :=
  { t.tally with
    uncolored := t.uncolored.length
    broken := r.cuts.length
    moved := (t.movedUses r).length }

/-- What to change after groups went without registers. -/
def revision (m : Machine) (p : Program) (settings : Settings) (t : Trial) :
    Except AllocationError Revision :=
  Revision.choose m p t.attempt.groups t.attempt.graph t.coloring.assignment t.uncolored settings

end Trial

/-- Break the linkages and move the uses of a revision. -/
def Program.revise (p : Program) (t : Trial) (r : Revision) : Program :=
  (p.breakAll t.attempt.number r.cuts).moveToMemory t.attempt.number (t.movedUses r)

/-- The location of every use: the registers of its group, or memory when it is in no group. -/
def locations (p : Program) (groups : Groups) (a : Assignment) : Array Location :=
  (p.useIds.map fun u =>
    match groups.ofUse? u with
    | some g => if p.isInMemory u then Location.memory else .registers (a.heldBy g)
    | none => .memory).toArray

end RegisterColoring
