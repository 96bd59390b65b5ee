import RegisterColoring.Allocation.Run
import RegisterColoring.Log

/-! # The log of a run

What building a machine, loading a program and allocating registers have to log. The entries are read
off the results, in the order in which the work is done.

* `Machine.narrate`, `Program.narrate`: a machine that was built, a program that was loaded.
* `narrateGrouping`: joining and separating the uses of an attempt, and the groups they form.
* `Trial.narrate`: pressure, ranks and colouring.
* `Run.narrate`: all attempts of an allocation. -/

namespace RegisterColoring

namespace Narrative

/-! ## Where entries come from -/

/-- The part that builds machines. -/
def machineTarget : String := "gcra_lib::backend::machine"

/-- The part that allocates registers. -/
def allocationTarget : String := "gcra_lib::backend::register_allocation"

/-- A stage of an attempt. -/
def stageTarget (stage : String) : String :=
  allocationTarget ++ "::register_allocators::generalized::" ++ stage

/-- An entry of a stage of an attempt. -/
def entry (level : Level) (stage message : String) : LogEntry :=
  ⟨level, stageTarget stage, message⟩

/-- Sets of uses as text. -/
def usesText (us : List UseId) : String :=
  Text.tagged "UseId" us

/-- Groups as text. -/
def groupsText (gs : List GroupId) : String :=
  Text.tagged "GroupId" gs

/-- A set of linkages as text. -/
def linkagesText (ls : List LinkageId) : String :=
  "\x7b" ++ ", ".intercalate (ls.map (Text.tag "LinkageId")) ++ "\x7d"

end Narrative

open Narrative

/-! ## Machines and programs -/

/-- The entries of a machine that was built: its forest, where the search for worst coverage was cut
off, and the machine. -/
def Machine.narrate (m : Machine) : List LogEntry :=
  let vertices := m.forest.size
  let roots := m.forest.roots.length
  let cutoffs := m.classIds.flatMap fun n => m.classIds.filterMap fun c =>
    (m.coverageRow n c).cutoff.map fun picks =>
      (⟨.debug, machineTarget ++ "::tables",
        "worst(" ++ m.className n ++ ", " ++ m.className c ++ ") exceeds the search frontier at m = " ++
          toString picks ++ ", bounding greedily"⟩ : LogEntry)
  [⟨.debug, machineTarget ++ "::lattice", s!"class lattice: {vertices} vertices, {roots} roots"⟩] ++
    cutoffs ++
    [⟨.info, machineTarget, "machine " ++ m.name ++
      s!": {m.registerCount} registers, {m.classCount} classes"⟩]

/-- The entry of a program that was loaded. -/
def Program.narrate (p : Program) : List LogEntry :=
  [⟨.debug, allocationTarget ++ "::description",
    s!"program: {p.functions.size} functions, {p.uses.size} uses, {p.linkages.size} linkages"⟩]

/-! ## Grouping -/

/-- The entry of the sets that the uses were joined into. -/
def narrateSets (p : Program) (partition : Partition) : LogEntry :=
  entry .debug "group" s!"grouped {p.uses.size} uses into {partition.length} groups"

/-- The entry of a set that was divided. -/
def DividedSet.narrate (d : DividedSet) : LogEntry :=
  entry .debug "split"
    ("split " ++ usesText d.members ++ " into " ++ Text.bracketed (d.division.parts.map usesText))

/-- The entry of a group. -/
def Group.narrate (m : Machine) (id : GroupId) (g : Group) : LogEntry :=
  entry .trace "group" (s!"g{id}: " ++ usesText g.members ++ " class " ++ m.className g.classId)

/-- The entries of the groups of some sets, up to the first set that is no group. -/
def narrateGroups (m : Machine) (p : Program) : List (List UseId × GroupId) → List LogEntry
  | [] => []
  | (members, id) :: rest =>
    match Group.ofUses m p id members with
    | .ok g => g.narrate m id :: narrateGroups m p rest
    | .error _ => []

/-- The entry of the interference between groups. -/
def Interference.narrate (groups : Groups) (g : Interference) : LogEntry :=
  entry .debug "graph" s!"interference graph: {groups.size} groups, {g.edges.length} edges"

/-- The entries of joining and separating the uses of a program, and of the groups that they form, as far
as the sets are groups. -/
def narrateGrouping (m : Machine) (p : Program) : List LogEntry :=
  let p := p.resetSplits
  let joined := p.joinedSets
  let s := p.separate m joined
  let again := if s.splits.isEmpty then [] else [narrateSets s.program s.partition]
  narrateSets p joined :: s.splits.map DividedSet.narrate ++ again ++
    narrateGroups m s.program s.partition.sets.zipIdx

/-! ## Colouring -/

/-- The entries of the pressure on all groups. -/
def Pressure.narrate (groups : Groups) (p : Pressure) : List LogEntry :=
  groups.ids.map fun g =>
    entry .trace "pressure"
      (s!"g{g}: raw " ++ Text.bracketed ((p.loadsOn g).toList.map toString) ++ s!" z {p.totalOn g}")

/-- The entries of one rank; `order` is its number. From a group that was taken out in hope nothing more
is withdrawn, so the pressure that is left tells how many registers it lacked. -/
def Rank.narrate (m : Machine) (groups : Groups) (left : Pressure) (order : Nat) (r : Rank) :
    List LogEntry :=
  let hope := if r.certain then [] else r.groups.map fun g =>
    let lacking := left.shortfall m groups g
    entry .debug "stack"
      s!"rank {order}: nothing stackable, optimistically stacking g{g} (excess {lacking})"
  hope ++ [entry .trace "stack" (s!"rank {order}: " ++ groupsText r.groups)]

/-- The entries of all ranks, one by one and together. -/
def Ranking.narrate (m : Machine) (groups : Groups) (s : Ranking) : List LogEntry :=
  (s.ranks.zipIdx.flatMap fun (r, i) => r.narrate m groups s.pressure (i + 1)) ++
    [entry .trace "generalized"
      ("stack:Stack \x7b ranks: " ++ Text.bracketed (s.groupRanks.map groupsText) ++
        s!", inconclusive_ranks: {s.hopeful} " ++ "\x7d")]

/-- The entries of a colouring. -/
def Coloring.narrate (c : Coloring) : List LogEntry :=
  entry .debug "select" "Starting select phase" ::
    c.outcomes.map fun (g, chosen) =>
      match chosen with
      | some rs => entry .trace "select" (s!"g{g} => " ++ Text.tagged "RegisterId" rs)
      | none => entry .debug "select" s!"g{g} could not be assigned"

/-- The entries of ranking the groups of an attempt and colouring them. -/
def Trial.narrate (m : Machine) (t : Trial) : List LogEntry :=
  let groups := t.attempt.groups
  (Pressure.ofGroups m groups t.attempt.graph).narrate groups ++
    t.ranking.narrate m groups ++ t.coloring.narrate

/-! ## Revisions and rounds -/

/-- The entries of a revision: the groups that go to memory, then the groups that are helped. -/
def Revision.narrate (r : Revision) : List LogEntry :=
  (r.evicted.map fun g =>
    entry .info "spill" s!"g{g} has no breakable linkage, moving it to memory") ++
    r.rescues.map fun rescue =>
      entry .debug "spill" (s!"g{rescue.group}: breaking " ++ linkagesText rescue.way)

/-- The entries of how a round ended. -/
def Round.narrateEnding (r : Round) : List LogEntry :=
  let s := r.tally
  match r.ending with
  | .assigned =>
    [entry .info "generalized" s!"attempt {s.attempt}: assigned {s.groups} groups in {s.ranks} ranks"]
  | .revised revision =>
    revision.narrate ++
      [entry .info "generalized"
        (s!"attempt {s.attempt}: {s.uncolored} groups failed, breaking {s.broken} linkages, " ++
          s!"spilling {s.moved} uses")]
  | .stuck _ => []

/-- The entries of a round. -/
def Round.narrate (m : Machine) (r : Round) : List LogEntry :=
  narrateGrouping m r.start ++ [r.trial.attempt.graph.narrate r.trial.attempt.groups] ++
    r.trial.narrate m ++ r.narrateEnding

/-- The entries of a run. An attempt that came to no groups left the program as it was but for the
linkages that it split, so its grouping can be read off the program. -/
def Run.narrate (m : Machine) (run : Run) : List LogEntry :=
  run.rounds.flatMap (Round.narrate m) ++
    match run.result with
    | .error (.defect _) => narrateGrouping m run.program
    | _ => []

end RegisterColoring
