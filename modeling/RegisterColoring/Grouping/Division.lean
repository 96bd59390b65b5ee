import RegisterColoring.Grouping.Partition

/-! # Dividing a set of uses along its conflicts

Some uses of a set must not share registers. `divide` colours the uses so that no conflicting pair has
one colour, and among the admissible colours prefers the one a use is most strongly linked to.

* `Division.eliminationOrder`: take out, again and again, the use with the fewest conflicts left.
* `Division.color`: colour in the reverse of that order, opening a colour only when none is admissible.
* `Division.place`: give the uses without conflicts, strongest link first, the colour they are linked to.
* `divide`: the parts in normal form, with the largest link strength that was weighed. -/

namespace RegisterColoring

namespace Division

/-! ## Order of elimination -/

/-- The uses in conflict with `u`, ascending. -/
def partners (conflicts : List (UseId × UseId)) (u : UseId) : List UseId :=
  conflicts.foldl
    (fun found (a, b) =>
      let found := if a = u then insertAscending b found else found
      if b = u then insertAscending a found else found)
    []

/-- The uses that are in some conflict, ascending. -/
def conflicted (conflicts : List (UseId × UseId)) : List UseId :=
  conflicts.foldl (fun found (a, b) => insertAscending b (insertAscending a found)) []

/-- A use with the uses it conflicts with. -/
structure Dispute where
  /-- The use. -/
  use : UseId
  /-- The uses it conflicts with, ascending. -/
  others : List UseId
  deriving Repr, DecidableEq

/-- Every use that is in some conflict with all its conflicts, ascending. -/
def disputes (conflicts : List (UseId × UseId)) : List Dispute :=
  (conflicted conflicts).map fun u => ⟨u, partners conflicts u⟩

/-- Some disputes without those of a use. -/
def settle (u : UseId) (pending : List Dispute) : List Dispute :=
  (pending.filter fun d => d.use != u).map fun d => { d with others := d.others.erase u }

/-- Take out the use with the fewest conflicts left, the first on ties, until none is left; the number
of uses bounds the steps. Each use comes with the uses it still conflicts with when it is taken out. -/
def eliminationOrder : Nat → List Dispute → List Dispute
  | 0, _ => []
  | steps + 1, pending =>
    match leastBy? (fun a b => a.others.length < b.others.length) pending with
    | none => []
    | some d => d :: eliminationOrder steps (settle d.use pending)

/-! ## Colours -/

/-- Parts in the making: one for every colour, in the order the colours were opened. -/
structure Draft where
  /-- The uses of each colour, in the order they were given it. -/
  parts : List (List UseId)
  /-- The largest link strength weighed so far. -/
  peak : Nat
  deriving Repr

/-- How strongly `u` is linked to a part: the weights of its links to the part's uses, added up. -/
def strength (weight : UseId → UseId → Nat) (u : UseId) (part : List UseId) : Nat :=
  (part.map (weight u)).foldr (· + ·) 0

/-- Every colour of `parts`, which come with their colours, with the strength of `u`'s links to it. -/
def offers (weight : UseId → UseId → Nat) (u : UseId) (parts : List (List UseId × Nat)) :
    List (Nat × Nat) :=
  parts.map fun (part, color) => (color, strength weight u part)

/-- Whether the first offer is the stronger one. -/
def stronger (a b : Nat × Nat) : Bool :=
  b.2 < a.2

/-- The largest strength among some offers. -/
def peakOf (offers : List (Nat × Nat)) : Nat :=
  offers.foldl (fun peak offer => max peak offer.2) 0

/-- Whether a part holds none of the uses that a use conflicts with. -/
def admits (others part : List UseId) : Bool :=
  !part.any others.contains

/-- Give a use the colour it is most strongly linked to among those that hold none of the uses it
conflicts with, the first opened on ties, or a new colour when there is none. -/
def colorOne (weight : UseId → UseId → Nat) (d : Dispute) (c : Draft) : Draft :=
  let admissible := offers weight d.use
    (c.parts.zipIdx.filter fun (part, _) => admits d.others part)
  let peak := max c.peak (peakOf admissible)
  match leastBy? stronger admissible with
  | some (color, _) => ⟨c.parts.modify color (· ++ [d.use]), peak⟩
  | none => ⟨c.parts ++ [[d.use]], peak⟩

/-- Colour the uses in the reverse of the order in which they were taken out. -/
def color (weight : UseId → UseId → Nat) (order : List Dispute) : Draft :=
  order.foldr (colorOne weight) ⟨[], 0⟩

/-! ## Uses without conflicts -/

/-- A use, the colour it is most strongly linked to, and how strongly. -/
structure Placement where
  /-- The use to be placed. -/
  use : UseId
  /-- The colour it goes to. -/
  color : Nat
  /-- The strength of its links to that colour. -/
  strength : Nat
  deriving Repr

/-- The colour that `u` is most strongly linked to, the first opened on ties. -/
def placement (weight : UseId → UseId → Nat) (parts : List (List UseId)) (u : UseId) : Placement :=
  match leastBy? stronger (offers weight u parts.zipIdx) with
  | some (color, strength) => ⟨u, color, strength⟩
  | none => ⟨u, 0, 0⟩

/-- Give each use of `waiting` a colour. The use with the strongest link to any colour goes first, the
lowest on ties. -/
def place (weight : UseId → UseId → Nat) : Nat → List UseId → Draft → Draft
  | 0, _, c => c
  | steps + 1, waiting, c =>
    let placements := waiting.map (placement weight c.parts)
    let first (a b : Placement) : Bool := b.strength < a.strength
    match leastBy? first placements with
    | none => c
    | some p =>
      let peak := placements.foldl (fun peak p => max peak p.strength) c.peak
      place weight steps (waiting.erase p.use) ⟨c.parts.modify p.color (· ++ [p.use]), peak⟩

/-- The uses of `members` that are not in `disputed`, ascending and each once. -/
def unconflicted (members disputed : List UseId) : List UseId :=
  unionAscending (members.filter fun u => !disputed.contains u) []

end Division

/-- A set of uses divided into parts. -/
structure Division where
  /-- The parts: each ascending, ordered by their first use. -/
  parts : List (List UseId)
  /-- The largest link strength that was weighed on the way. -/
  peak : Nat
  deriving Repr

open Division in
/-- Divide `members` so that no part holds both uses of a conflict, keeping strongly linked uses
together. -/
def divide (members : List UseId) (conflicts : List (UseId × UseId))
    (weight : UseId → UseId → Nat) : Division :=
  let pending := disputes conflicts
  let colored := color weight (eliminationOrder pending.length pending)
  let waiting := unconflicted members (pending.map Dispute.use)
  let opened :=
    if colored.parts.isEmpty && !waiting.isEmpty then { colored with parts := [[]] } else colored
  let placed := place weight waiting.length waiting opened
  ⟨(Partition.ofSets placed.parts).sets, placed.peak⟩

/-- Whether every link strength that was weighed fits in 32 bits; otherwise the division cannot be made. -/
def Division.inRange (d : Division) : Bool :=
  d.peak < 0x100000000

end RegisterColoring
