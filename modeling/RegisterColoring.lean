import RegisterColoring.Allocation.Run
import RegisterColoring.CommandLine.Report
import RegisterColoring.Legality
import RegisterColoring.Machine.Builtin
import RegisterColoring.Main
import RegisterColoring.Narrative
import RegisterColoring.Program.Description
import RegisterColoring.Proofs.Coloring
import RegisterColoring.Proofs.Grouping
import RegisterColoring.Proofs.Interference
import RegisterColoring.Proofs.Machine
import RegisterColoring.Proofs.Ranking
import RegisterColoring.Proofs.Attempt
import RegisterColoring.Proofs.Legality
import RegisterColoring.Proofs.Revision
import RegisterColoring.Proofs.Forest
import RegisterColoring.Proofs.Progress
import RegisterColoring.Proofs.Coverage
import RegisterColoring.Proofs.Pressure
import RegisterColoring.Proofs.Withdrawal
import RegisterColoring.Proofs.Certainty
import RegisterColoring.Proofs.Relief
import RegisterColoring.Proofs.Rules
import RegisterColoring.Proofs.Coexistence
import RegisterColoring.Proofs.Division
import RegisterColoring.Proofs.Separation
import RegisterColoring.Proofs.Singles
import RegisterColoring.Proofs.Parts.Shows
import RegisterColoring.Proofs.Parts.Division
import RegisterColoring.Proofs.Parts.Embedding
import RegisterColoring.Proofs.Parts.Groups
import RegisterColoring.Proofs.Parts.Coloring
import RegisterColoring.Proofs.Parts.Revision
import RegisterColoring.Proofs.Parts.Run
import RegisterColoring.Proofs.Independence
import RegisterColoring.Proofs.Frame
import RegisterColoring.Proofs.Repetition
import RegisterColoring.Proofs.Counters
import RegisterColoring.Proofs.Misfits
import RegisterColoring.Proofs.Conflicts
import RegisterColoring.Proofs.SharedClasses
import RegisterColoring.Proofs.RankOrder
import RegisterColoring.Proofs.Reversal
import RegisterColoring.Proofs.Validation
import RegisterColoring.Proofs.Checked.Basic
import RegisterColoring.Proofs.Checked.Coloring
import RegisterColoring.Proofs.Checked.Legality
import RegisterColoring.Proofs.Frontier
import RegisterColoring.Proofs.WorstCase
import RegisterColoring.Proofs.Narrowing
import RegisterColoring.Proofs.InterferenceViews
import RegisterColoring.Proofs.ProperDivision
import RegisterColoring.Proofs.Refinement
import RegisterColoring.Proofs.Anchoring
import RegisterColoring.Proofs.Components
import RegisterColoring.Proofs.TurnOrder
import RegisterColoring.Proofs.Unblocking
import RegisterColoring.Proofs.HelpOrder
import RegisterColoring.Proofs.SafeOrders
import RegisterColoring.Proofs.InclusionForest
import RegisterColoring.Proofs.Meets
import RegisterColoring.Proofs.ClassChains
import RegisterColoring.Proofs.PairMatrix
import RegisterColoring.Proofs.Loading
import RegisterColoring.Proofs.PressureBounds
import RegisterColoring.Proofs.UnionFindRuns
