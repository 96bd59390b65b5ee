import RegisterColoring.Arrange
import RegisterColoring.Machine.RegisterSet
import Std.Data.TreeSet

/-! # Worst-case coverage

When a neighbour takes some registers of one class, it blocks the registers of another class that share
storage with them. How many it blocks at worst, for every number of registers taken, is found by
following the sets that can be blocked, pick by pick. When there are too many such sets, the largest
single shares are added up instead, which is an upper bound.

The numbers are natural numbers here, where an allocator has words of 32 bits. On a machine with fewer than
`2 ^ 16` registers every one of them fits its word while it is computed (`allocate_passes_checks`), so that the
words hold these values.

* `widen`: the sets that can be blocked with one more pick.
* `mostWith`: the size of the largest of them.
* `CoverageRow.ofShares`: the most registers blocked for 0, 1, 2, … picks, and where the search was cut off. -/

namespace RegisterColoring

/-- The sets of registers that can be blocked by a number of picks, each as its bits. -/
abbrev Frontier := Std.TreeSet Nat

/-- The most sets that the search follows exactly. -/
def exactLimit : Nat := 4096

/-- Add a set to a frontier that the search still follows exactly. -/
def Frontier.add (frontier : Frontier) (bits : Nat) : Frontier :=
  if exactLimit < frontier.size then frontier else frontier.insert bits

/-- The sets that can be blocked by one pick more: every set of the frontier joined with the share of
every register that can be picked. One set past the limit is enough to know that there are too many. -/
def widen (shares : List RegisterSet) (frontier : Frontier) : Frontier :=
  let shares := shares.map RegisterSet.bits
  frontier.foldl
    (fun next blocked => shares.foldl (fun next share => next.add (blocked ||| share)) next) ∅

/-- How many binary digits of a number below `width` digits are set. -/
def bitCount (width bits : Nat) : Nat :=
  (ones width bits).length

/-- The most registers, out of `width`, that can be blocked by one pick more than led to the frontier. A
set and a share that together have no more members than were found already are not joined. -/
def mostWith (width : Nat) (shares : List RegisterSet) (frontier : Frontier) : Nat :=
  let sized := shares.map fun share => (share.bits, share.card)
  frontier.foldl
    (fun most blocked =>
      let held := bitCount width blocked
      sized.foldl
        (fun most (bits, size) =>
          if held + size ≤ most then most else max most (bitCount width (blocked ||| bits)))
        most)
    0

/-- The sum of the `picks` largest sizes, but at most `reachable`. `sizes` is descending. -/
def greedyBound (sizes : List Nat) (reachable picks : Nat) : Nat :=
  min ((sizes.take picks).foldr (· + ·) 0) reachable

/-- The most registers blocked, by number of picks. -/
structure CoverageRow where
  /-- The most registers blocked by 0, 1, 2, … picks. -/
  values : List Nat
  /-- The number of picks at which the frontier grew past the limit, if it did. -/
  cutoff : Option Nat
  deriving Repr, DecidableEq, Inhabited

/-- The values for `picks`, `picks + 1`, … up to `remaining` of them, from the frontier of one pick
less. Once everything reachable is blocked, more picks block no more. -/
def followFrontier (width : Nat) (shares : List RegisterSet) (reachable : Nat) :
    (remaining picks : Nat) → Frontier → CoverageRow
  | 0, _, _ => ⟨[], none⟩
  | remaining + 1, picks, frontier =>
    let next := widen shares frontier
    let best := mostWith width shares frontier
    if best = reachable then ⟨List.replicate (remaining + 1) reachable, none⟩
    else if exactLimit < next.size then
      let sizes := sortBy (fun a b => b < a) (shares.map RegisterSet.card)
      let later := (List.range remaining).map fun k => greedyBound sizes reachable (picks + 1 + k)
      ⟨best :: later, some picks⟩
    else
      let row := followFrontier width shares reachable remaining (picks + 1) next
      ⟨best :: row.values, row.cutoff⟩

/-- The most registers that picks out of a class can block, when each of its registers blocks one of
`shares` and all of them together block `reachable` registers out of `width`. -/
def CoverageRow.ofShares (width : Nat) (shares : List RegisterSet) (reachable : Nat) : CoverageRow :=
  let row := followFrontier width shares reachable shares.length 1 (Std.TreeSet.insert ∅ 0)
  ⟨0 :: row.values, row.cutoff⟩

/-- The value for a number of picks; past the end of the row, its last value. -/
def CoverageRow.get (row : CoverageRow) (picks : Nat) : Nat :=
  row.values.getD (min picks (row.values.length - 1)) 0

end RegisterColoring
