import RegisterColoring.Grouping.UnionFind
import RegisterColoring.Program.Basic

/-! # Joined uses

Uses that are joined by a chain of active linkages are to hold the same registers.

* `Program.joins`: whether a linkage joins two uses that are not in memory.
* `Program.joinedSets`: the sets of uses that are joined with each other.
* `Program.joinFault?`: the linkage end that keeps the sets from being formed, if there is one. -/

namespace RegisterColoring

namespace Program

/-- Whether neither end of a linkage lives in memory. -/
def joins (p : Program) (l : Linkage) : Bool :=
  !p.isInMemory l.first && !p.isInMemory l.second

/-- The active linkages that join two uses which are not in memory. -/
def joiningLinkages (p : Program) : List Linkage :=
  (p.activeLinkages.map Prod.fst).filter p.joins

/-- The union of the ends of every given linkage. There are as many numbers as uses, however many these are. -/
def unite (count : Nat) (linkages : List Linkage) : UnionFind :=
  linkages.foldl (fun s l => (s.union l.first l.second).2) (.singles count)

/-- The given uses by their roots: one set for every root, in order of its first use. -/
def classesOf (s : UnionFind) (uses : List UseId) : List (List UseId) :=
  let rooted := uses.map fun u => (u, s.root u)
  ((rooted.map Prod.snd).eraseDups).map fun r =>
    (rooted.filter fun (_, root) => root == r).map Prod.fst

/-- The uses outside memory, in sets that are joined by active linkages. -/
def joinedSets (p : Program) : Partition :=
  .ofSets (classesOf (unite p.uses.size p.joiningLinkages) p.usesInPlay)

/-- The ends of a linkage that joining looks at: the second one only when the first does not live in
memory. -/
def endsToJoin (p : Program) (l : Linkage) : List UseId :=
  if p.isInMemory l.first then [l.first] else [l.first, l.second]

/-- The fault of an active linkage to a use that is not there, if joining comes upon one. -/
def joinFault? (p : Program) : Option Fault :=
  ((p.activeLinkages.flatMap fun (l, _) => p.endsToJoin l).find?
    fun u => (p.use? u).isNone).map .missingUse

end Program

end RegisterColoring
