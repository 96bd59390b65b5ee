import RegisterColoring.Arrange.Quick

/-! # Partitions of register uses

Uses are known by their position in the program. A `Partition` is a list of sets of uses in normal form:
no set is empty, each is ascending, and they are ordered by their first use. -/

namespace RegisterColoring

/-- A register use, by its position among the uses of its program. -/
abbrev UseId := Nat

/-- Sets of uses that are to share registers. -/
structure Partition where
  /-- The sets, each ascending, ordered by their first use. -/
  sets : List (List UseId)
  deriving Repr, DecidableEq

namespace Partition

/-- Whether one use comes before another. -/
def before (a b : UseId) : Bool :=
  a < b

/-- Whether the first use of one set comes before the first use of another. -/
def startsBefore (s t : List UseId) : Bool :=
  s.headD 0 < t.headD 0

/-- Bring sets into normal form: drop the empty ones, sort each, and order them by their first use. -/
def ofSets (sets : List (List UseId)) : Partition :=
  ⟨quickSortBy startsBefore ((sets.filter fun s => !s.isEmpty).map (sortBy before))⟩

/-- How many sets there are. -/
def length (p : Partition) : Nat :=
  p.sets.length

/-- The position of the set that holds a use. -/
def indexOf? (p : Partition) (u : UseId) : Option Nat :=
  p.sets.findIdx? fun s => s.contains u

end Partition

end RegisterColoring
