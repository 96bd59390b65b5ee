import RegisterColoring.Proofs.Checked.Basic
import RegisterColoring.Proofs.Program

/-! # Checked joining of uses

A walk towards a root never leaves the numbers that the structure ranges over and ends within its bound, and
the sizes of two sets that are merged add up to no more than there are numbers.

* `Checked.find_eq_some`, `Checked.merge_eq_some`: the steps of a union-find structure.
* `Checked.unite_eq_some`, `Checked.rootsOf_eq_some`: the two loops over it.
* `Checked.joinedSets_eq_some`: the sets of joined uses can be formed. -/

namespace RegisterColoring.Checked

/-! ## Union-find -/

/-- The parent of `x`. -/
def parentOf (s : UnionFind) (x : Nat) : Option Nat :=
  if x < s.length then some (s.parentOf x) else none

/-- The size recorded at `x`. -/
def sizeOf (s : UnionFind) (x : Nat) : Option Nat :=
  if x < s.length then some (s.sizeOf x) else none

/-- Walk towards the root of `x`, which has to be reached in fewer than the given number of steps. -/
def findWithin : Nat → UnionFind → Nat → Option (Nat × UnionFind)
  | 0, _, _ => none
  | steps + 1, s, x => do
    let parent ← parentOf s x
    if parent = x then
      return (x, s)
    else
      let grandparent ← parentOf s parent
      findWithin steps { s with parent := s.parent.insert x grandparent } grandparent

/-- The root of `x`, and the structure with the path to it shortened. -/
def find (s : UnionFind) (x : Nat) : Option (Nat × UnionFind) :=
  findWithin s.length s x

/-- Hang the root `small` under the root `large`. -/
def attach (s : UnionFind) (large small : Nat) : Option UnionFind := do
  let size ← word32 ((← sizeOf s large) + (← sizeOf s small))
  return { s with parent := s.parent.insert small large, size := s.size.insert large size }

/-- Merge the sets of `x` and `y`. -/
def merge (s : UnionFind) (x y : Nat) : Option (Bool × UnionFind) := do
  let (a, s) ← find s x
  let (b, s) ← find s y
  if a = b then
    return (false, s)
  else
    let (large, small) := s.ordered a b
    return (true, ← attach s large small)

section

variable {s : UnionFind} {rep rank : Nat → Nat} {x y : Nat}

/-- A walk stays in range and ends while there are steps left. -/
theorem findWithin_eq_some (h : s.Ranked rep rank) {steps : Nat} (hx : x < s.length)
    (hsteps : rank (rep x) < rank x + steps) :
    findWithin steps s x = some (UnionFind.findWithin steps s x) := by
  induction steps generalizing s x with
  | zero => exact absurd (h.rank_le_rep x) (by omega)
  | succ steps ih =>
    have hparent : parentOf s x = some (s.parentOf x) := if_pos hx
    have hgrandparent : parentOf s (s.parentOf x) = some (s.parentOf (s.parentOf x)) :=
      if_pos (h.parent_lt x hx)
    rw [findWithin, UnionFind.findWithin, hparent, Option.bind_eq_bind, Option.bind_some, hgrandparent]
    by_cases hroot : s.parentOf x = x
    · rw [if_pos hroot, if_pos hroot]
      rfl
    · rw [if_neg hroot, if_neg hroot]
      -- the rank rises with every step, and that of the root is its bound
      have up := h.rank_lt_grandparent hroot
      have same : rep (s.parentOf (s.parentOf x)) = rep x := by rw [h.rep_parent, h.rep_parent]
      exact ih (h.halve hx hroot) (h.parent_lt _ (h.parent_lt x hx)) (by rw [same]; omega)

/-- The root of a number in range is found. -/
theorem find_eq_some (h : s.Ranked rep rank) (hx : x < s.length) : find s x = some (s.find x) := by
  have := h.rank_lt_length (h.rep_lt x hx) (h.rep_rep x)
  exact findWithin_eq_some h hx (by omega)

/-- Two different sets together have no more numbers than there are, so their sizes can be added. -/
theorem attach_eq_some (h : s.Ranked rep rank) (hlength : s.length < 2 ^ 32) (hx : x < s.length)
    (hy : y < s.length) (hrootx : rep x = x) (hrooty : rep y = y) (hne : x ≠ y) :
    attach s x y = some (s.attach x y) := by
  -- the sizes count the numbers of two sets that have none in common
  have hsizes : s.sizeOf x + s.sizeOf y ≤ s.length := by
    rw [h.size_eq x hx hrootx, h.size_eq y hy hrooty, ← UnionFind.card_hung hne]
    exact (Finset.card_filter_le _ _).trans (Finset.card_range _).le
  rw [attach, sizeOf, if_pos hx, sizeOf, if_pos hy]
  simp only [Option.bind_eq_bind, Option.bind_some]
  rw [word32_eq_some (hsizes.trans_lt hlength)]
  rfl

/-- Two sets of numbers in range can be merged. -/
theorem merge_eq_some (h : s.Represents rep) (hlength : s.length < 2 ^ 32) (hx : x < s.length)
    (hy : y < s.length) : merge s x y = some (s.union x y) := by
  obtain ⟨rank, h⟩ := h
  obtain ⟨foundX, hX, lengthX⟩ := h.find hx
  have hy' : y < (s.find x).2.length := lengthX ▸ hy
  obtain ⟨foundY, hY, lengthY⟩ := hX.find hy'
  rw [merge, UnionFind.union, find_eq_some h hx, Option.bind_eq_bind, Option.bind_some]
  simp only [find_eq_some hX hy', Option.bind_eq_bind, Option.bind_some, foundX, foundY]
  by_cases same : rep x = rep y
  · rw [if_pos same, if_pos same]
    rfl
  · rw [if_neg same, if_neg same]
    have hlength : ((s.find x).2.find y).2.length < 2 ^ 32 := lengthY ▸ lengthX ▸ hlength
    have hrepX := (lengthY.trans lengthX).symm ▸ h.rep_lt x hx
    have hrepY := (lengthY.trans lengthX).symm ▸ h.rep_lt y hy
    -- whichever of the two roots is hung under the other
    generalize ((s.find x).2.find y).2 = t at hY hlength hrepX hrepY
    rcases t.ordered_cases (rep x) (rep y) with ⟨horder, -⟩ | ⟨horder, -⟩
    · rw [horder]
      simp only [attach_eq_some hY hlength hrepX hrepY (h.rep_rep x) (h.rep_rep y) same]
      rfl
    · rw [horder]
      simp only [attach_eq_some hY hlength hrepY hrepX (h.rep_rep y) (h.rep_rep x) (Ne.symm same)]
      rfl

end

/-! ## Loops over a union-find structure -/

/-- Merge the ends of every linkage. -/
def unite (count : Nat) (linkages : List Linkage) : Option UnionFind :=
  linkages.foldlM (fun s l => do return (← merge s l.first l.second).2) (.ofLength count)

/-- The given uses with their roots, each looked up after the paths to the earlier ones were shortened. -/
def rootsOf : UnionFind → List UseId → Option (List (UseId × Nat))
  | _, [] => some []
  | s, u :: uses => do
    let (root, s) ← find s u
    return (u, root) :: (← rootsOf s uses)

/-- Linkages between numbers in range can be united. -/
theorem unite_eq_some {count : Nat} {linkages : List Linkage} (h : Program.EndsBelow count linkages)
    (hcount : count < 2 ^ 32) : unite count linkages = some (Program.unite count linkages) := by
  rw [unite, UnionFind.ofLength_eq_singles hcount]
  refine (foldlM_eq_some (fun s => s.length = count ∧ ∃ rep, s.Represents rep)
    ⟨rfl, id, UnionFind.represents_singles count⟩ ?_).1
  rintro s ⟨rfl, rep, hrep⟩ l hl
  obtain ⟨hfirst, hsecond⟩ := h l hl
  rw [merge_eq_some hrep hcount hfirst hsecond]
  obtain ⟨-, hlength, hrep'⟩ := hrep.union hfirst hsecond
  exact ⟨rfl, hlength, _, hrep'⟩

/-- The roots of numbers in range are found, and shortening paths does not change them. -/
theorem rootsOf_eq_some {s : UnionFind} {rep rank : Nat → Nat} (h : s.Ranked rep rank) {uses : List UseId}
    (huses : ∀ u ∈ uses, u < s.length) : rootsOf s uses = some (uses.map fun u => (u, rep u)) := by
  induction uses generalizing s with
  | nil => rfl
  | cons u uses ih =>
    have hu := huses u List.mem_cons_self
    obtain ⟨hroot, hs, hlength⟩ := h.find hu
    rw [rootsOf, find_eq_some h hu, Option.bind_eq_bind, Option.bind_some]
    simp only
    rw [ih hs fun v hv => hlength ▸ huses v (List.mem_cons_of_mem u hv), hroot]
    rfl

/-! ## Joined uses -/

/-- Bring sets into normal form; those that are left have a first use to be ordered by. -/
def ofSets (sets : List (List UseId)) : Option Partition := do
  let _ ← ((sets.filter fun s => !s.isEmpty).map (sortBy Partition.before)).mapM List.head?
  return .ofSets sets

/-- Whether neither end of a linkage lives in memory. -/
def joins (p : Program) (l : Linkage) : Option Bool := do
  if (← p.use? l.first).inMemory then
    return false
  else
    return !(← p.use? l.second).inMemory

/-- The uses outside memory, in sets that are joined by active linkages. -/
def joinedSets (p : Program) : Option Partition := do
  let joining ← filterM (joins p) (p.activeLinkages.map Prod.fst)
  let rooted ← rootsOf (← unite p.uses.size joining) p.usesInPlay
  ofSets (((rooted.map Prod.snd).eraseDups).map fun r =>
    (rooted.filter fun (_, root) => root == r).map Prod.fst)

/-- A set that is not empty has a first use, also when it is sorted. -/
theorem ofSets_eq_some (sets : List (List UseId)) : ofSets sets = some (.ofSets sets) := by
  have heads : ((sets.filter fun s => !s.isEmpty).map (sortBy Partition.before)).mapM List.head? =
      some (((sets.filter fun s => !s.isEmpty).map (sortBy Partition.before)).map (·.headD 0)) := by
    refine mapM_eq_some fun s hs => ?_
    obtain ⟨t, ht, rfl⟩ := List.mem_map.mp hs
    refine head?_eq_some_headD (fun hnil => ?_) 0
    have hlength := length_sortBy Partition.before t
    rw [hnil, List.length_nil, eq_comm, List.length_eq_zero_iff] at hlength
    simp [hlength] at ht
  rw [ofSets, heads]
  rfl

section

variable {p : Program}

/-- Whether a linkage joins can be told when its ends are there. -/
theorem joins_eq_some {l : Linkage} (hfirst : l.first < p.uses.size) (hsecond : l.second < p.uses.size) :
    joins p l = some (p.joins l) := by
  rw [joins, Program.joins, Program.isInMemory, Program.isInMemory, Program.use?, Program.use?,
    Array.getElem?_eq_getElem hfirst, Array.getElem?_eq_getElem hsecond]
  simp only [Option.bind_eq_bind, Option.bind_some, Option.any_some]
  cases p.uses[l.first].inMemory <;> rfl

/-- The sets of joined uses can be formed. -/
theorem joinedSets_eq_some (hends : p.EndsInRange) (huses : p.uses.size < 2 ^ 32) :
    joinedSets p = some p.joinedSets := by
  have hmissing := Program.missingEnd?_eq_none hends
  have hjoining : filterM (joins p) (p.activeLinkages.map Prod.fst) = some p.joiningLinkages := by
    refine filterM_eq_some fun l hl => ?_
    obtain ⟨⟨l, id⟩, hactive, rfl⟩ := List.mem_map.mp hl
    obtain ⟨hfirst, hsecond⟩ := Program.ends_lt_of_missingEnd? hmissing hactive
    exact joins_eq_some hfirst hsecond
  have hbelow := Program.endsBelow_joiningLinkages hmissing
  obtain ⟨hlength, rep, ⟨rank, hrep⟩, -⟩ := Program.represents_unite hbelow
  -- the roots are those before any path was shortened
  have hroots : rootsOf (Program.unite p.uses.size p.joiningLinkages) p.usesInPlay =
      some (p.usesInPlay.map fun u => (u, (Program.unite p.uses.size p.joiningLinkages).root u)) := by
    have hplay : ∀ u ∈ p.usesInPlay, u < (Program.unite p.uses.size p.joiningLinkages).length := by
      intro u hu
      rw [hlength]
      exact (Program.mem_usesInPlay.mp hu).1
    rw [rootsOf_eq_some hrep hplay]
    refine congrArg some (List.map_congr_left fun u hu => ?_)
    rw [UnionFind.Represents.root_eq ⟨rank, hrep⟩ (hplay u hu)]
  rw [joinedSets, hjoining, Option.bind_eq_bind, Option.bind_some, unite_eq_some hbelow huses,
    Option.bind_eq_bind, Option.bind_some, hroots, Option.bind_eq_bind, Option.bind_some, ofSets_eq_some]
  rfl

end

end RegisterColoring.Checked
