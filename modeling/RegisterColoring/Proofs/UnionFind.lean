import Mathlib.Algebra.Order.Group.Nat
import Mathlib.Data.Finset.Card
import Mathlib.Logic.Relation
import Mathlib.Tactic.Ring
import RegisterColoring.Grouping.Joining

/-! # What a union-find structure stands for

A structure over the numbers below its length stands for a division of these numbers into sets, given
by a function that names the root of every number. Two facts keep walks short: along a parent a rank
grows, and a root of rank `k` has a set of at least `2 ^ k` numbers.

* `UnionFind.Ranked s rep rank`: `s` stands for the sets named by `rep`, with these ranks.
* `UnionFind.Represents s rep`: the same for some ranks.
* `UnionFind.Walks`: the walk to a root with no bound on its steps, which is how finding walks.
* `UnionFind.Represents.root_eq`: the root that is found is the one named by `rep`.
* `UnionFind.merged`, `UnionFind.Represents.union`: a union merges two sets and leaves the others alone.
* `eqvGen_or_iff`: what one link more joins.
* `Program.root_unite_eq_iff`: after uniting the ends of some linkages, two numbers have one root if
  and only if a chain of these linkages joins them. -/

namespace RegisterColoring

namespace UnionFind

/-- `s` stands for the sets in which `rep x` is the root of `x`. The rank grows from a number to its
parent and is at most the binary logarithm of the size recorded at a root. -/
structure Ranked (s : UnionFind) (rep rank : Nat → Nat) : Prop where
  /-- Parents are in range. -/
  parent_lt : ∀ x, x < s.length → s.parentOf x < s.length
  /-- Roots are in range. -/
  rep_lt : ∀ x, x < s.length → rep x < s.length
  /-- A number and its parent have one root. -/
  rep_parent : ∀ x, rep (s.parentOf x) = rep x
  /-- A number is its own parent exactly when it is its own root. -/
  root_iff : ∀ x, s.parentOf x = x ↔ rep x = x
  /-- Roots are their own roots. -/
  rep_rep : ∀ x, rep (rep x) = rep x
  /-- The rank grows along a parent. -/
  rank_lt_parent : ∀ x, s.parentOf x ≠ x → rank x < rank (s.parentOf x)
  /-- No number of a set has a larger rank than its root. -/
  rank_le_rep : ∀ x, rank x ≤ rank (rep x)
  /-- A root of rank `k` has a recorded size of at least `2 ^ k`. -/
  pow_rank_le : ∀ r, r < s.length → rep r = r → 2 ^ rank r ≤ s.sizeOf r
  /-- The size recorded at a root is the number of numbers in its set. -/
  size_eq : ∀ r, r < s.length → rep r = r →
    s.sizeOf r = ((Finset.range s.length).filter fun x => rep x = r).card

/-- `s` stands for the sets in which `rep x` is the root of `x`. -/
def Represents (s : UnionFind) (rep : Nat → Nat) : Prop :=
  ∃ rank, s.Ranked rep rank

variable {s : UnionFind} {rep rank : Nat → Nat}

/-- A length that a number can hold is not cut off. -/
theorem ofLength_eq_singles {length : Nat} (h : length < 2 ^ 32) : ofLength length = singles length := by
  rw [ofLength, show (0x100000000 : Nat) = 2 ^ 32 from rfl, Nat.mod_eq_of_lt h]

/-- At first every number is a set of its own. -/
theorem represents_singles (length : Nat) : (singles length).Represents id := by
  refine ⟨fun _ => 0, ?_⟩
  exact
    { parent_lt := fun x hx => hx
      rep_lt := fun x hx => hx
      rep_parent := fun x => rfl
      root_iff := fun x => Iff.rfl
      rep_rep := fun x => rfl
      rank_lt_parent := fun x h => absurd rfl h
      rank_le_rep := fun x => Nat.le_refl 0
      pow_rank_le := fun x _ _ => Nat.le_refl 1
      size_eq := fun x hx _ => by
        have h : (Finset.range length).filter (fun y => id y = x) = {x} := by
          ext y
          simp only [id_eq, Finset.mem_filter, Finset.mem_range, Finset.mem_singleton]
          exact ⟨And.right, fun h => ⟨h ▸ hx, h⟩⟩
        exact (congrArg Finset.card h).symm }

/-! ## Finding -/

/-- The parents after one of them was changed. -/
theorem parentOf_insert (s : UnionFind) (x y z : Nat) :
    parentOf { s with parent := s.parent.insert x y } z = if x = z then y else s.parentOf z := by
  rw [parentOf, Std.TreeMap.getD_insert, parentOf]
  simp only [Nat.compare_eq_eq]

/-- The rank of a number that is no root is below that of its grandparent. -/
theorem Ranked.rank_lt_grandparent (h : s.Ranked rep rank) {x : Nat} (hroot : s.parentOf x ≠ x) :
    rank x < rank (s.parentOf (s.parentOf x)) := by
  refine (h.rank_lt_parent x hroot).trans_le ?_
  -- the parent may be a root, which is its own parent
  by_cases htop : s.parentOf (s.parentOf x) = s.parentOf x
  · rw [htop]
  · exact (h.rank_lt_parent _ htop).le

/-- Pointing a number that is no root at its grandparent changes no set. -/
theorem Ranked.halve (h : s.Ranked rep rank) {x : Nat} (hx : x < s.length) (hroot : s.parentOf x ≠ x) :
    Ranked { s with parent := s.parent.insert x (s.parentOf (s.parentOf x)) } rep rank where
  parent_lt y hy := by
    rw [parentOf_insert]
    split
    · exact h.parent_lt _ (h.parent_lt x hx)
    · exact h.parent_lt y hy
  rep_lt := h.rep_lt
  rep_parent y := by
    rw [parentOf_insert]
    split
    · rename_i hxy
      rw [h.rep_parent, h.rep_parent, hxy]
    · exact h.rep_parent y
  root_iff y := by
    rw [parentOf_insert]
    split
    · rename_i hxy
      subst hxy
      refine ⟨fun e => ?_, fun e => absurd ((h.root_iff x).mpr e) hroot⟩
      have higher := h.rank_lt_grandparent hroot
      rw [e] at higher
      exact absurd higher (lt_irrefl _)
    · exact h.root_iff y
  rep_rep := h.rep_rep
  rank_lt_parent y := by
    rw [parentOf_insert]
    split
    · rename_i hxy
      subst hxy
      exact fun _ => h.rank_lt_grandparent hroot
    · exact h.rank_lt_parent y
  rank_le_rep := h.rank_le_rep
  pow_rank_le := h.pow_rank_le
  size_eq := h.size_eq

/-- How the root of a number is walked to, with no bound on the steps: a number that is no root is pointed at
its grandparent, and the walk goes on from there. -/
inductive Walks : UnionFind → Nat → Nat → UnionFind → Prop
  /-- A walk ends at a root. -/
  | stop {s : UnionFind} {x : Nat} (hroot : s.parentOf x = x) : Walks s x x s
  /-- Elsewhere it goes on from the grandparent. -/
  | climb {s t : UnionFind} {x r : Nat} (hroot : s.parentOf x ≠ x)
    (later : Walks { s with parent := s.parent.insert x (s.parentOf (s.parentOf x)) }
      (s.parentOf (s.parentOf x)) r t) : Walks s x r t

/-- A walk ends at the root that names the set, and changes no set. -/
theorem Ranked.of_walks (h : s.Ranked rep rank) {t : UnionFind} {x r : Nat} (hx : x < s.length)
    (hwalk : Walks s x r t) : r = rep x ∧ t.Ranked rep rank ∧ t.length = s.length := by
  induction hwalk with
  | stop hroot => exact ⟨((h.root_iff _).mp hroot).symm, h, rfl⟩
  | climb hroot _ ih =>
    obtain ⟨hr, ht, hlength⟩ := ih (h.halve hx hroot) (h.parent_lt _ (h.parent_lt _ hx))
    rw [h.rep_parent, h.rep_parent] at hr
    exact ⟨hr, ht, hlength⟩

/-- A number with the rank of its root is a root. -/
theorem Ranked.parentOf_eq (h : s.Ranked rep rank) {x : Nat} (hrank : rank (rep x) ≤ rank x) :
    s.parentOf x = x := by
  by_contra hroot
  have up := h.rank_lt_parent x hroot
  have top := h.rank_le_rep (s.parentOf x)
  rw [h.rep_parent] at top
  omega

/-- As many steps as the rank can still grow are enough for a walk. -/
theorem Ranked.walks_findWithin (h : s.Ranked rep rank) {x steps : Nat} (hx : x < s.length)
    (hsteps : rank (rep x) ≤ rank x + steps) :
    Walks s x (findWithin steps s x).1 (findWithin steps s x).2 := by
  induction steps generalizing s x with
  | zero => exact .stop (h.parentOf_eq hsteps)
  | succ steps ih =>
    rw [findWithin]
    by_cases hroot : s.parentOf x = x
    · rw [if_pos hroot]
      exact .stop hroot
    · rw [if_neg hroot]
      have up := h.rank_lt_grandparent hroot
      have same : rep (s.parentOf (s.parentOf x)) = rep x := by rw [h.rep_parent, h.rep_parent]
      exact .climb hroot
        (ih (h.halve hx hroot) (h.parent_lt _ (h.parent_lt x hx)) (by rw [same]; omega))

/-- The rank of a root is below the length. -/
theorem Ranked.rank_lt_length (h : s.Ranked rep rank) {r : Nat} (hr : r < s.length) (hroot : rep r = r) :
    rank r < s.length :=
  calc rank r < 2 ^ rank r := Nat.lt_two_pow_self
    _ ≤ s.sizeOf r := h.pow_rank_le r hr hroot
    _ = _ := h.size_eq r hr hroot
    _ ≤ (Finset.range s.length).card := Finset.card_filter_le _ _
    _ = s.length := Finset.card_range _

/-- Finding walks to the root: its bound is never reached before. -/
theorem Ranked.walks_find (h : s.Ranked rep rank) {x : Nat} (hx : x < s.length) :
    Walks s x (s.find x).1 (s.find x).2 := by
  refine h.walks_findWithin hx ?_
  have := h.rank_lt_length (h.rep_lt x hx) (h.rep_rep x)
  omega

/-- Finding gives the root and changes no set. -/
theorem Ranked.find (h : s.Ranked rep rank) {x : Nat} (hx : x < s.length) :
    (s.find x).1 = rep x ∧ Ranked (s.find x).2 rep rank ∧ (s.find x).2.length = s.length :=
  h.of_walks hx (h.walks_find hx)

/-- The root of a number is the one that names its set. -/
theorem Represents.root_eq (h : s.Represents rep) {x : Nat} (hx : x < s.length) : s.root x = rep x := by
  obtain ⟨rank, h⟩ := h
  exact (h.find hx).1

/-! ## Merging -/

/-- The roots after the set of `small` went under `large`. -/
def hung (rep : Nat → Nat) (large small x : Nat) : Nat :=
  if rep x = small then large else rep x

/-- The ranks after `small` went under `large`. -/
def raised (rank : Nat → Nat) (large small x : Nat) : Nat :=
  if x = large then max (rank large) (rank small + 1) else rank x

/-- The sizes after `small` went under `large`. -/
theorem sizeOf_attach (s : UnionFind) (large small r : Nat) :
    (s.attach large small).sizeOf r =
      if large = r then s.sizeOf large + s.sizeOf small else s.sizeOf r := by
  rw [sizeOf, attach, Std.TreeMap.getD_insert]
  simp only [Nat.compare_eq_eq]
  rfl

/-- The parents after `small` went under `large`. -/
theorem parentOf_attach (s : UnionFind) (large small x : Nat) :
    (s.attach large small).parentOf x = if small = x then large else s.parentOf x :=
  parentOf_insert s small large x

/-- The set of `large` after `small` went under it has the numbers of both sets. -/
theorem card_hung {large small : Nat} (hne : large ≠ small) (length : Nat) :
    ((Finset.range length).filter fun x => hung rep large small x = large).card =
      ((Finset.range length).filter fun x => rep x = large).card +
        ((Finset.range length).filter fun x => rep x = small).card := by
  have parts : ∀ x, hung rep large small x = large ↔ rep x = large ∨ rep x = small := by
    intro x
    rw [hung]
    by_cases hx : rep x = small <;> simp [hx]
  rw [Finset.filter_congr fun x _ => parts x, Finset.filter_or]
  refine Finset.card_union_of_disjoint (Finset.disjoint_filter.mpr fun x _ hx hx' => ?_)
  exact hne (hx.symm.trans hx')

/-- A rank is never lowered. -/
theorem le_raised (large small x : Nat) : rank x ≤ raised rank large small x := by
  rw [raised]
  split
  · rename_i hx
    rw [hx]
    exact le_max_left _ _
  · exact le_rfl

/-- Only the rank of `large` is raised. -/
theorem raised_of_ne {large small x : Nat} (hx : x ≠ large) : raised rank large small x = rank x :=
  if_neg hx

/-- The rank of `large` is raised above that of `small`. -/
theorem lt_raised_self (large small : Nat) : rank small < raised rank large small large := by
  rw [raised, if_pos rfl]
  exact lt_max_of_lt_right (Nat.lt_succ_self _)

section

variable {large small : Nat}

/-- `large` stays a root. -/
theorem hung_large (hlarge : rep large = large) (hne : large ≠ small) :
    hung rep large small large = large := by
  rw [hung, hlarge, if_neg hne]

/-- What hangs under `small` is not `large`. -/
theorem ne_large_of_rep_eq (hlarge : rep large = large) (hne : large ≠ small) {x : Nat}
    (hx : rep x = small) : x ≠ large := by
  rintro rfl
  exact hne (hlarge.symm.trans hx)

/-- A root after the merge was one before, and is not `small`. -/
theorem rep_eq_of_hung_eq (hlarge : rep large = large) (hsmall : rep small = small)
    (hne : large ≠ small) {r : Nat} (hr : hung rep large small r = r) : rep r = r ∧ r ≠ small := by
  rw [hung] at hr
  split at hr
  · rename_i hrs
    exact absurd hr.symm (ne_large_of_rep_eq hlarge hne hrs)
  · rename_i hrs
    exact ⟨hr, fun e => hrs (by rw [e, hsmall])⟩

/-- A number is its own parent after the merge exactly when it is its own root. -/
theorem Ranked.root_iff_attach (h : s.Ranked rep rank) (hlarge : rep large = large)
    (hsmall : rep small = small) (hne : large ≠ small) (x : Nat) :
    (s.attach large small).parentOf x = x ↔ hung rep large small x = x := by
  rw [parentOf_attach]
  split
  · rename_i hx
    subst hx
    rw [hung, hsmall, if_pos rfl]
  · rename_i hx
    rw [h.root_iff, hung]
    split
    · rename_i hrs
      rw [hrs]
      exact ⟨fun e => absurd e hx, fun e => absurd e.symm (ne_large_of_rep_eq hlarge hne hrs)⟩
    · exact Iff.rfl

/-- The rank grows along a parent after the merge: `small` got one of higher rank, and only `large`, a
root, was raised. -/
theorem Ranked.raised_lt_parent (h : s.Ranked rep rank) (hlarge : rep large = large)
    (hne : large ≠ small) {x : Nat} (hx : (s.attach large small).parentOf x ≠ x) :
    raised rank large small x < raised rank large small ((s.attach large small).parentOf x) := by
  rw [parentOf_attach] at hx ⊢
  split
  · rename_i hxs
    subst hxs
    rw [raised_of_ne hne.symm]
    exact lt_raised_self large small
  · rename_i hxs
    rw [if_neg hxs] at hx
    have notLarge : x ≠ large := by
      rintro rfl
      exact hx ((h.root_iff x).mpr hlarge)
    rw [raised_of_ne notLarge]
    exact (h.rank_lt_parent x hx).trans_le (le_raised _ _ _)

/-- No number has a larger rank than its root after the merge. -/
theorem Ranked.raised_le_hung (h : s.Ranked rep rank) (hlarge : rep large = large)
    (hne : large ≠ small) (x : Nat) :
    raised rank large small x ≤ raised rank large small (hung rep large small x) := by
  rw [hung]
  split
  · rename_i hx
    have low := h.rank_le_rep x
    rw [hx] at low
    rw [raised_of_ne (ne_large_of_rep_eq hlarge hne hx)]
    exact low.trans (lt_raised_self large small).le
  · by_cases hxl : x = large
    · rw [hxl, hlarge]
    · rw [raised_of_ne hxl]
      exact (h.rank_le_rep x).trans (le_raised _ _ _)

/-- A root of rank `k` still has a size of at least `2 ^ k`: where `large` gets a new rank, both sets had
at least half of that. -/
theorem Ranked.pow_raised_le (h : s.Ranked rep rank) (hlarge : rep large = large)
    (hsmall : rep small = small) (hne : large ≠ small) (hl : large < s.length) (hs : small < s.length)
    (hle : s.sizeOf small ≤ s.sizeOf large) {r : Nat} (hr : r < s.length)
    (hroot : hung rep large small r = r) :
    2 ^ raised rank large small r ≤ (s.attach large small).sizeOf r := by
  rw [sizeOf_attach]
  split
  · rename_i hlr
    subst hlr
    have lowLarge := h.pow_rank_le large hl hlarge
    have lowSmall := h.pow_rank_le small hs hsmall
    rw [raised, if_pos rfl]
    rcases le_total (rank large) (rank small + 1) with hmax | hmax
    · rw [max_eq_right hmax, pow_succ]
      omega
    · rw [max_eq_left hmax]
      omega
  · rename_i hlr
    rw [raised_of_ne (Ne.symm hlr)]
    exact h.pow_rank_le r hr (rep_eq_of_hung_eq hlarge hsmall hne hroot).1

/-- The size recorded at a root is still the number of numbers in its set. -/
theorem Ranked.size_eq_attach (h : s.Ranked rep rank) (hlarge : rep large = large)
    (hsmall : rep small = small) (hne : large ≠ small) (hl : large < s.length) (hs : small < s.length)
    {r : Nat} (hr : r < s.length) (hroot : hung rep large small r = r) :
    (s.attach large small).sizeOf r =
      ((Finset.range s.length).filter fun x => hung rep large small x = r).card := by
  obtain ⟨hold, hrs⟩ := rep_eq_of_hung_eq hlarge hsmall hne hroot
  rw [sizeOf_attach]
  split
  · rename_i hlr
    subst hlr
    rw [h.size_eq large hl hlarge, h.size_eq small hs hsmall]
    exact (card_hung hne s.length).symm
  · rename_i hlr
    rw [h.size_eq r hr hold]
    refine congrArg Finset.card (Finset.filter_congr fun x _ => ?_)
    rw [hung]
    split
    · rename_i hx
      rw [hx]
      exact ⟨fun e => absurd e.symm hrs, fun e => absurd e hlr⟩
    · exact Iff.rfl

/-- Hanging the smaller of two sets under the larger merges them. -/
theorem Ranked.attach (h : s.Ranked rep rank) (hlarge : rep large = large)
    (hsmall : rep small = small) (hne : large ≠ small) (hl : large < s.length) (hs : small < s.length)
    (hle : s.sizeOf small ≤ s.sizeOf large) :
    Ranked (s.attach large small) (hung rep large small) (raised rank large small) where
  parent_lt x hx := by
    rw [parentOf_attach]
    split
    · exact hl
    · exact h.parent_lt x hx
  rep_lt x hx := by
    rw [hung]
    split
    · exact hl
    · exact h.rep_lt x hx
  rep_parent x := by
    rw [parentOf_attach]
    split
    · rename_i hx
      rw [hung_large hlarge hne, ← hx, hung, hsmall, if_pos rfl]
    · rw [hung, hung, h.rep_parent]
  root_iff := h.root_iff_attach hlarge hsmall hne
  rep_rep x := by
    by_cases hx : rep x = small
    · have e : hung rep large small x = large := if_pos hx
      rw [e, hung_large hlarge hne]
    · have e : hung rep large small x = rep x := if_neg hx
      rw [e, hung, h.rep_rep, if_neg hx]
  rank_lt_parent _ hx := h.raised_lt_parent hlarge hne hx
  rank_le_rep := h.raised_le_hung hlarge hne
  pow_rank_le _ hr hroot := h.pow_raised_le hlarge hsmall hne hl hs hle hr hroot
  size_eq _ hr hroot := h.size_eq_attach hlarge hsmall hne hl hs hr hroot

end

/-- Numbers have one root after a merge if they had one before, or if their roots were merged. -/
theorem hung_eq_iff {large small : Nat} (x y : Nat) :
    hung rep large small x = hung rep large small y ↔
      rep x = rep y ∨ (rep x = large ∧ rep y = small) ∨ (rep x = small ∧ rep y = large) := by
  rw [hung, hung]
  grind

/-- Of two roots the one with the larger set stays. -/
theorem ordered_cases (s : UnionFind) (a b : Nat) :
    (s.ordered a b = (a, b) ∧ s.sizeOf b ≤ s.sizeOf a) ∨
      (s.ordered a b = (b, a) ∧ s.sizeOf a ≤ s.sizeOf b) := by
  rw [ordered]
  split
  · rename_i hlt
    exact .inr ⟨rfl, hlt.le⟩
  · split
    · rename_i hlt
      exact .inl ⟨rfl, hlt.le⟩
    · rename_i hab hba
      rcases le_total a b with hle | hle
      · rw [min_eq_left hle, max_eq_right hle]
        exact .inl ⟨rfl, Nat.le_of_not_lt hab⟩
      · rw [min_eq_right hle, max_eq_left hle]
        exact .inr ⟨rfl, Nat.le_of_not_lt hba⟩

/-- How many of the numbers below `length` have the root `r`. -/
def weight (length : Nat) (rep : Nat → Nat) (r : Nat) : Nat :=
  ((Finset.range length).filter fun x => rep x = r).card

/-- The roots after the sets of `x` and `y` were merged: the larger set keeps its root, and of two equally large
ones the lower root stays. -/
def merged (length : Nat) (rep : Nat → Nat) (x y : Nat) : Nat → Nat :=
  if rep x = rep y then rep
  else if weight length rep (rep x) < weight length rep (rep y) then hung rep (rep y) (rep x)
  else if weight length rep (rep y) < weight length rep (rep x) then hung rep (rep x) (rep y)
  else hung rep (min (rep x) (rep y)) (max (rep x) (rep y))

/-- Numbers have one root after a merge if they had one before, or if their sets were merged. -/
theorem merged_eq_iff (length : Nat) (rep : Nat → Nat) (x y z w : Nat) :
    merged length rep x y z = merged length rep x y w ↔
      rep z = rep w ∨ (rep z = rep x ∧ rep w = rep y) ∨ (rep z = rep y ∧ rep w = rep x) := by
  rw [merged]
  split_ifs with same
  · rw [same]
    grind
  · rw [hung_eq_iff, or_comm (a := rep z = rep y ∧ rep w = rep x)]
  · rw [hung_eq_iff]
  · rcases le_total (rep x) (rep y) with hle | hle
    · rw [min_eq_left hle, max_eq_right hle, hung_eq_iff]
    · rw [min_eq_right hle, max_eq_left hle, hung_eq_iff, or_comm (a := rep z = rep y ∧ rep w = rep x)]

/-- Where the recorded sizes are right, the root that goes under the other is the one that they say. -/
theorem merged_eq_hung {length : Nat} {x y : Nat} (hne : rep x ≠ rep y)
    (hx : s.sizeOf (rep x) = weight length rep (rep x)) (hy : s.sizeOf (rep y) = weight length rep (rep y)) :
    merged length rep x y =
      hung rep (s.ordered (rep x) (rep y)).1 (s.ordered (rep x) (rep y)).2 := by
  rw [merged, if_neg hne, ordered, hx, hy]
  split_ifs <;> rfl

/-- A union merges the sets of its two numbers, and tells whether they were different sets. -/
theorem Represents.union (h : s.Represents rep) {x y : Nat} (hx : x < s.length) (hy : y < s.length) :
    (s.union x y).1 = decide (rep x ≠ rep y) ∧ (s.union x y).2.length = s.length ∧
      (s.union x y).2.Represents (merged s.length rep x y) := by
  obtain ⟨rank, h⟩ := h
  obtain ⟨foundX, hX, lengthX⟩ := h.find hx
  obtain ⟨foundY, hY, lengthY⟩ := hX.find (x := y) (by rw [lengthX]; exact hy)
  rw [UnionFind.union]
  simp only [foundX, foundY]
  by_cases same : rep x = rep y
  · rw [if_pos same, merged, if_pos same]
    exact ⟨by simp [same], by rw [lengthY, lengthX], rank, hY⟩
  · rw [if_neg same]
    refine ⟨by simp [same], by rw [← lengthX, ← lengthY]; rfl, ?_⟩
    rw [← lengthX, ← lengthY] at hx hy ⊢
    generalize ((s.find x).2.find y).2 = t at hY hx hy ⊢
    have sizes {z : Nat} (hz : z < t.length) : t.sizeOf (rep z) = weight t.length rep (rep z) :=
      hY.size_eq (rep z) (hY.rep_lt z hz) (h.rep_rep z)
    rw [merged_eq_hung same (sizes hx) (sizes hy)]
    rcases t.ordered_cases (rep x) (rep y) with ⟨horder, hle⟩ | ⟨horder, hle⟩
    · rw [horder]
      exact ⟨_, hY.attach (h.rep_rep x) (h.rep_rep y) same (hY.rep_lt x hx) (hY.rep_lt y hy) hle⟩
    · rw [horder]
      exact ⟨_, hY.attach (h.rep_rep y) (h.rep_rep x) (Ne.symm same) (hY.rep_lt y hy) (hY.rep_lt x hx) hle⟩

end UnionFind

/-! ## Chains of links -/

section

variable {α : Type} {R : α → α → Prop} {x y a b : α}

/-- A function that does not tell apart what is linked tells nothing apart that a chain of links joins. -/
theorem eq_of_eqvGen {β : Type} {f : α → β} (hf : ∀ x y, R x y → f x = f y) (h : Relation.EqvGen R x y) :
    f x = f y := by
  induction h with
  | rel x y h => exact hf x y h
  | refl x => rfl
  | symm x y _ ih => exact ih.symm
  | trans x y z _ _ ih ih' => exact ih.trans ih'

/-- With one link more, chains join what they joined before, and what was joined with one end of the link to
what was joined with the other. -/
theorem eqvGen_or_iff : Relation.EqvGen (fun x y => R x y ∨ (x = a ∧ y = b)) x y ↔
    Relation.EqvGen R x y ∨ (Relation.EqvGen R x a ∧ Relation.EqvGen R y b) ∨
      (Relation.EqvGen R x b ∧ Relation.EqvGen R y a) := by
  classical
  constructor
  · intro h
    -- the classes of chains, with that of `b` merged into that of `a`
    have same := eq_of_eqvGen (f := fun z => if Quot.mk R z = Quot.mk R b then Quot.mk R a else Quot.mk R z)
      (fun x y hxy => by
        rcases hxy with hxy | ⟨rfl, rfl⟩
        · rw [Quot.sound hxy]
        · simp) h
    simp only [← Quot.eq]
    grind
  · have old {x y : α} (h : Relation.EqvGen R x y) :
        Relation.EqvGen (fun x y => R x y ∨ (x = a ∧ y = b)) x y :=
      Relation.EqvGen.mono (fun _ _ => Or.inl) _ _ h
    have new : Relation.EqvGen (fun x y => R x y ∨ (x = a ∧ y = b)) a b := .rel _ _ (.inr ⟨rfl, rfl⟩)
    rintro (h | ⟨hx, hy⟩ | ⟨hx, hy⟩)
    · exact old h
    · exact ((old hx).trans _ _ _ new).trans _ _ _ ((old hy).symm _ _)
    · exact ((old hx).trans _ _ _ (new.symm _ _)).trans _ _ _ ((old hy).symm _ _)

end

/-! ## Uniting the ends of linkages -/

namespace Program

/-- Whether one of the linkages goes from `x` to `y`. -/
def Linked (linkages : List Linkage) (x y : UseId) : Prop :=
  ∃ l ∈ linkages, l.first = x ∧ l.second = y

/-- Whether both ends of every linkage are below `count`. -/
def EndsBelow (count : Nat) (linkages : List Linkage) : Prop :=
  ∀ l ∈ linkages, l.first < count ∧ l.second < count

/-- A function that does not tell the ends of any linkage apart tells nothing apart that linkages join. -/
theorem eq_of_eqvGen_linked {α : Type} {linkages : List Linkage} {f : Nat → α}
    (hf : ∀ l ∈ linkages, f l.first = f l.second) {x y : Nat}
    (h : Relation.EqvGen (Linked linkages) x y) : f x = f y := by
  refine eq_of_eqvGen ?_ h
  rintro _ _ ⟨l, hl, rfl, rfl⟩
  exact hf l hl

/-- With one linkage more, its ends are linked as well. -/
theorem linked_append_singleton (linkages : List Linkage) (l : Linkage) :
    Linked (linkages ++ [l]) = fun x y => Linked linkages x y ∨ (x = l.first ∧ y = l.second) := by
  funext x y
  simp only [Linked, List.mem_append, List.mem_singleton, or_and_right, exists_or, exists_eq_left]
  rw [eq_comm (a := l.first), eq_comm (a := l.second)]

/-- Uniting the ends of one linkage more. -/
theorem unite_append_singleton (count : Nat) (linkages : List Linkage) (l : Linkage) :
    unite count (linkages ++ [l]) = ((unite count linkages).union l.first l.second).2 := by
  rw [unite, List.foldl_append]
  rfl

/-- Uniting the ends of some linkages stands for the sets that they connect. -/
theorem represents_unite {count : Nat} {linkages : List Linkage} (h : EndsBelow count linkages) :
    (unite count linkages).length = count ∧ ∃ rep, (unite count linkages).Represents rep ∧
      ∀ x y, rep x = rep y ↔ Relation.EqvGen (Linked linkages) x y := by
  -- from the last linkage, since that is the one united last
  induction linkages using List.reverseRecOn with
  | nil =>
    refine ⟨rfl, id, UnionFind.represents_singles count, fun x y => ⟨fun e => ?_, fun e => ?_⟩⟩
    · rw [show x = y from e]
      exact .refl y
    · exact eq_of_eqvGen_linked (fun l hl => absurd hl List.not_mem_nil) e
  | append_singleton linkages l ih =>
    obtain ⟨hlength, rep, hrep, hiff⟩ := ih fun k hk => h k (List.mem_append_left _ hk)
    obtain ⟨hfirst, hsecond⟩ := h l (by simp)
    obtain ⟨-, hlength', hrep'⟩ :=
      hrep.union (x := l.first) (y := l.second) (by rw [hlength]; exact hfirst)
        (by rw [hlength]; exact hsecond)
    rw [unite_append_singleton]
    refine ⟨hlength'.trans hlength, _, hrep', fun x y => ?_⟩
    rw [linked_append_singleton, eqvGen_or_iff, UnionFind.merged_eq_iff]
    simp only [hiff]

/-- Two numbers have one root after uniting the ends of some linkages if and only if a chain of these
linkages joins them. -/
theorem root_unite_eq_iff {count : Nat} {linkages : List Linkage} (h : EndsBelow count linkages)
    {x y : UseId} (hx : x < count) (hy : y < count) :
    (unite count linkages).root x = (unite count linkages).root y ↔
      Relation.EqvGen (Linked linkages) x y := by
  obtain ⟨hlength, rep, hrep, hiff⟩ := represents_unite h
  rw [hrep.root_eq (by rw [hlength]; exact hx), hrep.root_eq (by rw [hlength]; exact hy)]
  exact hiff x y

end Program

end RegisterColoring
