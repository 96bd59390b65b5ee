import Mathlib.Data.Nat.Log
import Mathlib.Data.Set.Card
import RegisterColoring.Proofs.UnionFind

/-! # Runs of a union-find structure

Unions, finds and questions whether two numbers are in one set, made one after another in any order from the
structure in which every number is a set of its own. Finds and questions change the structure as well, since
they shorten paths, but not what it stands for: the roots after a run follow from its unions alone.

* `UnionFind.run`: the calls of a run with their answers, and the structure they leave.
* `UnionFind.Represents.make`, `UnionFind.Represents.run`: what one call and what a run answers and leaves.
* `UnionFind.rootsAfter_eq_iff`: two numbers have one root exactly when unions of the run connect them.
* `UnionFind.transcript_of_sublist`: finds and questions can be left out of a run.
* `UnionFind.tracks_run`: every run is answered, and answered from the unions made before. -/

namespace RegisterColoring

namespace UnionFind

variable {n : Nat} {s : UnionFind} {rep rank : Nat → Nat}

/-! ## Calls -/

/-- A call on a structure over the numbers below `n`. -/
inductive Call (n : Nat) where
  /-- Merge the sets of two numbers. -/
  | union (x y : Fin n)
  /-- Find the root of a number. -/
  | find (x : Fin n)
  /-- Ask whether two numbers are in one set. -/
  | same (x y : Fin n)
  deriving DecidableEq, Repr

/-- What a call answers. -/
inductive Answer where
  /-- The root that was found. -/
  | root (r : Nat)
  /-- Whether two sets were merged, or whether two numbers are in one set. -/
  | verdict (b : Bool)
  deriving DecidableEq, Repr

/-- Whether a call is a union. -/
def Call.isUnion : Call n → Bool
  | .union _ _ => true
  | .find _ => false
  | .same _ _ => false

/-- Make a call: its answer, and the structure after it. -/
def Call.make (s : UnionFind) : Call n → Option (Answer × UnionFind)
  | .union x y => (s.union? x y).map fun made => (.verdict made.1, made.2)
  | .find x => (s.find? x).map fun made => (.root made.1, made.2)
  | .same x y => (s.same? x y).map fun made => (.verdict made.1, made.2)

/-- Make calls one after another: every call with its answer, and the structure after all of them. -/
def run (s : UnionFind) : List (Call n) → Option (List (Call n × Answer) × UnionFind)
  | [] => some ([], s)
  | call :: calls => do
    let made ← call.make s
    let later ← run made.2 calls
    return ((call, made.1) :: later.1, later.2)

/-! ## What calls do to the roots -/

/-- What a call answers where `rep` names the roots. -/
def Call.answer (rep : Nat → Nat) : Call n → Answer
  | .union x y => .verdict (decide (rep x ≠ rep y))
  | .find x => .root (rep x)
  | .same x y => .verdict (decide (rep x = rep y))

/-- The roots after a call where `rep` names the roots before: only a union changes them. -/
def Call.roots (rep : Nat → Nat) : Call n → Nat → Nat
  | .union x y => merged n rep x y
  | .find _ => rep
  | .same _ _ => rep

/-- The roots after some calls. -/
def rootsAfter (rep : Nat → Nat) (calls : List (Call n)) : Nat → Nat :=
  calls.foldl Call.roots rep

/-- Calls with the answers that the roots of their time give. -/
def transcript (rep : Nat → Nat) : List (Call n) → List (Call n × Answer)
  | [] => []
  | call :: calls => (call, call.answer rep) :: transcript (call.roots rep) calls

/-- Finds and questions leave the roots as they are. -/
theorem Call.roots_of_not_isUnion {call : Call n} (h : ¬ call.isUnion) : call.roots rep = rep := by
  cases call with
  | union x y => exact absurd rfl h
  | find x => rfl
  | same x y => rfl

/-- The numbers below `n` are those that a structure of this length ranges over. -/
theorem val_lt_length (hlength : s.length = n) (x : Fin n) : x.val < s.length :=
  hlength ▸ x.isLt

/-- A call is answered from the roots, and the structure after it stands for the roots after it. -/
theorem Represents.make (h : s.Represents rep) (hlength : s.length = n) (call : Call n) :
    ∃ t, call.make s = some (call.answer rep, t) ∧ t.length = n ∧ t.Represents (call.roots rep) := by
  have below := val_lt_length hlength
  cases call with
  | union x y =>
    obtain ⟨hanswer, hlength', hrep'⟩ := h.union (below x) (below y)
    rw [hlength] at hlength' hrep'
    refine ⟨(s.union x y).2, ?_, hlength', hrep'⟩
    rw [Call.make, union?, if_pos ⟨below x, below y⟩, Option.map_some, hanswer]
    rfl
  | find x =>
    obtain ⟨rank, h⟩ := h
    obtain ⟨hanswer, hrep', hlength'⟩ := h.find (below x)
    refine ⟨(s.find x).2, ?_, hlength'.trans hlength, rank, hrep'⟩
    rw [Call.make, find?, if_pos (below x), Option.map_some, hanswer]
    rfl
  | same x y =>
    obtain ⟨rank, h⟩ := h
    obtain ⟨foundX, hX, lengthX⟩ := h.find (below x)
    obtain ⟨foundY, hY, lengthY⟩ := hX.find (x := y) (by rw [lengthX]; exact below y)
    refine ⟨((s.find x).2.find y).2, ?_, (lengthY.trans lengthX).trans hlength, rank, hY⟩
    rw [Call.make, same?, if_pos ⟨below x, below y⟩]
    simp only [foundX, foundY, Option.map_some]
    rfl

/-- A run is answered from the roots of its time, and leaves a structure that stands for the roots after it. -/
theorem Represents.run (h : s.Represents rep) (hlength : s.length = n) (calls : List (Call n)) :
    ∃ t, s.run calls = some (transcript rep calls, t) ∧ t.length = n ∧
      t.Represents (rootsAfter rep calls) := by
  induction calls generalizing s rep with
  | nil => exact ⟨s, rfl, hlength, h⟩
  | cons call calls ih =>
    obtain ⟨made, hmade, hlength', h'⟩ := h.make hlength call
    obtain ⟨t, ht, htlength, hafter⟩ := ih h' hlength'
    refine ⟨t, ?_, htlength, hafter⟩
    simp only [UnionFind.run, hmade, Option.bind_eq_bind, Option.bind_some, ht]
    rfl

example : ((singles 4).run (n := 4) [.union 1 2, .union 3 2, .find 3, .same 0 3, .union 1 3]).map Prod.fst =
    some [(.union 1 2, .verdict true), (.union 3 2, .verdict true), (.find 3, .root 1),
      (.same 0 3, .verdict false), (.union 1 3, .verdict false)] := by
  decide +kernel

/-- A transcript is one of its calls. -/
theorem map_fst_transcript (rep : Nat → Nat) (calls : List (Call n)) :
    (transcript rep calls).map Prod.fst = calls := by
  induction calls generalizing rep with
  | nil => rfl
  | cons call calls ih => rw [transcript, List.map_cons, ih]

/-- Every answer comes from the roots that the calls before it left. -/
theorem answer_of_transcript {calls : List (Call n)} {before after : List (Call n × Answer)} {call : Call n}
    {answer : Answer} (h : transcript rep calls = before ++ (call, answer) :: after) :
    answer = call.answer (rootsAfter rep (before.map Prod.fst)) := by
  induction before generalizing rep calls with
  | nil =>
    cases calls with
    | nil => exact absurd h (List.cons_ne_nil _ _).symm
    | cons first calls =>
      obtain ⟨hfirst, -⟩ := List.cons_eq_cons.mp h
      obtain ⟨rfl, rfl⟩ := Prod.mk.inj hfirst
      rfl
  | cons made before ih =>
    cases calls with
    | nil => exact absurd h (List.cons_ne_nil _ _).symm
    | cons first calls =>
      obtain ⟨rfl, hlater⟩ := List.cons_eq_cons.mp h
      exact ih hlater

/-- Part of a transcript that has all its unions is itself the transcript of its calls, and leaves the same
roots. -/
theorem transcript_of_sublist {calls : List (Call n)} {fewer : List (Call n × Answer)}
    (hsub : fewer.Sublist (transcript rep calls))
    (hunions : fewer.filter (·.1.isUnion) = (transcript rep calls).filter (·.1.isUnion)) :
    transcript rep (fewer.map Prod.fst) = fewer ∧
      rootsAfter rep (fewer.map Prod.fst) = rootsAfter rep calls := by
  induction calls generalizing rep fewer with
  | nil =>
    obtain rfl := List.sublist_nil.mp hsub
    exact ⟨rfl, rfl⟩
  | cons call calls ih =>
    rw [transcript] at hsub hunions
    by_cases hcall : call.isUnion
    · rw [List.filter_cons, if_pos hcall] at hunions
      rcases List.sublist_cons_iff.mp hsub with hdropped | ⟨kept, rfl, hkept⟩
      · -- leaving out a union leaves fewer unions
        have short := (hdropped.filter (·.1.isUnion)).length_le
        rw [hunions, List.length_cons] at short
        omega
      · rw [List.filter_cons, if_pos hcall] at hunions
        obtain ⟨hanswers, hroots⟩ := ih hkept (List.tail_eq_of_cons_eq hunions)
        refine ⟨?_, hroots⟩
        rw [List.map_cons, transcript, hanswers]
    · rw [List.filter_cons, if_neg hcall] at hunions
      rw [Call.roots_of_not_isUnion hcall] at hsub hunions
      have hafter : rootsAfter rep (call :: calls) = rootsAfter rep calls := by
        rw [rootsAfter, List.foldl_cons, Call.roots_of_not_isUnion hcall]
        rfl
      rw [hafter]
      rcases List.sublist_cons_iff.mp hsub with hdropped | ⟨kept, rfl, hkept⟩
      · exact ih hdropped hunions
      · rw [List.filter_cons, if_neg hcall] at hunions
        obtain ⟨hanswers, hroots⟩ := ih hkept hunions
        rw [List.map_cons, transcript, rootsAfter, List.foldl_cons, Call.roots_of_not_isUnion hcall]
        exact ⟨by rw [hanswers], hroots⟩

/-! ## What unions connect -/

/-- A chain of unions among the calls joins the two numbers. -/
def Connected (calls : List (Call n)) : Fin n → Fin n → Prop :=
  Relation.EqvGen fun x y => Call.union x y ∈ calls

/-- The numbers that unions connect with `x`. -/
def connectedSet (calls : List (Call n)) (x : Fin n) : Set (Fin n) :=
  { y | Connected calls y x }

/-- Finds and questions connect nothing. -/
theorem connected_append_of_not_isUnion (calls : List (Call n)) (call : Call n) (h : ¬ call.isUnion) :
    Connected (calls ++ [call]) = Connected calls := by
  have old (x y : Fin n) : Call.union x y ∈ calls ++ [call] ↔ Call.union x y ∈ calls := by
    rw [List.mem_append, List.mem_singleton, or_iff_left_iff_imp]
    rintro rfl
    exact absurd rfl h
  simp only [Connected, old]

/-- After a run, two numbers have one root exactly when its unions connect them. -/
theorem rootsAfter_eq_iff (calls : List (Call n)) (x y : Fin n) :
    rootsAfter id calls x = rootsAfter id calls y ↔ Connected calls x y := by
  -- from the last call, the one that changes the roots last
  induction calls using List.reverseRecOn generalizing x y with
  | nil =>
    refine ⟨fun e => ?_, fun e => eq_of_eqvGen (f := Fin.val) (fun _ _ h => absurd h List.not_mem_nil) e⟩
    rw [Fin.ext (show x.val = y.val from e)]
    exact .refl y
  | append_singleton calls call ih =>
    have step : rootsAfter id (calls ++ [call]) = call.roots (rootsAfter id calls) := by
      rw [rootsAfter, List.foldl_append]
      rfl
    rw [step]
    cases call with
    | union a b =>
      have links (x y : Fin n) : Call.union x y ∈ calls ++ [.union a b] ↔
          Call.union x y ∈ calls ∨ (x = a ∧ y = b) := by
        rw [List.mem_append, List.mem_singleton, Call.union.injEq]
      rw [Call.roots, merged_eq_iff]
      simp only [Connected, links, eqvGen_or_iff, ih]
    | find a =>
      rw [connected_append_of_not_isUnion calls (.find a) Bool.false_ne_true]
      exact ih x y
    | same a b =>
      rw [connected_append_of_not_isUnion calls (.same a b) Bool.false_ne_true]
      exact ih x y

/-! ## Depth -/

/-- The root is reached in no more steps to a parent than the rank can grow. -/
theorem Ranked.exists_iterate_parentOf (h : s.Ranked rep rank) (x : Nat) :
    ∃ k, rank x + k ≤ rank (rep x) ∧ s.parentOf^[k] x = rep x := by
  -- on what is left for the rank to grow, since every step raises it
  induction hleft : rank (rep x) - rank x using Nat.strongRecOn generalizing x with
  | ind left ih =>
    by_cases hroot : s.parentOf x = x
    · exact ⟨0, h.rank_le_rep x, ((h.root_iff x).mp hroot).symm⟩
    · have up := h.rank_lt_parent x hroot
      have top := h.rank_le_rep (s.parentOf x)
      have same := h.rep_parent x
      rw [same] at top
      obtain ⟨k, hk, hend⟩ := ih (rank (rep x) - rank (s.parentOf x)) (by omega) (s.parentOf x) (by rw [same])
      rw [same] at hk hend
      exact ⟨k + 1, by omega, hend⟩

/-- Every number is at most as many steps below its root as the binary logarithm of the size recorded there. -/
theorem Represents.exists_iterate_parentOf (h : s.Represents rep) {x : Nat} (hx : x < s.length) :
    ∃ k, k ≤ Nat.log 2 (s.sizeOf (rep x)) ∧ s.parentOf^[k] x = rep x := by
  obtain ⟨rank, h⟩ := h
  obtain ⟨k, hk, hend⟩ := h.exists_iterate_parentOf x
  have hrank : rank (rep x) ≤ Nat.log 2 (s.sizeOf (rep x)) :=
    Nat.le_log_of_pow_le Nat.one_lt_two (h.pow_rank_le _ (h.rep_lt x hx) (h.rep_rep x))
  exact ⟨k, by omega, hend⟩

/-! ## Runs -/

/-- The answer that a call has to get after some calls on a structure of single numbers: a union tells whether its numbers were not connected
yet, a question whether they are, and a find gives the root in the structure of that time. -/
def Call.RightAfter (start : UnionFind) (before : List (Call n)) : Call n → Answer → Prop
  | .union x y, answer => ∃ b, answer = .verdict b ∧ (b = true ↔ ¬ Connected before x y)
  | .same x y, answer => ∃ b, answer = .verdict b ∧ (b = true ↔ Connected before x y)
  | .find x, answer =>
    ∃ earlier s, start.run before = some (earlier, s) ∧ answer = .root (s.root x)

/-- What the answers of a run from a structure of single numbers say, and what holds of the structure after it. -/
structure Tracks (start : UnionFind) (calls : List (Call n)) (answered : List (Call n × Answer)) (s : UnionFind) : Prop where
  /-- Every call is answered. -/
  map_fst : answered.map Prod.fst = calls
  /-- Every answer is the one that the calls before it make right. -/
  rightAfter : ∀ before call answer after, answered = before ++ (call, answer) :: after →
    call.RightAfter start (before.map Prod.fst) answer
  /-- Every walk to a root ends, with what finding gives. -/
  walks : ∀ x : Fin n, Walks s x (s.find x).1 (s.find x).2
  /-- The root of a number is a number connected with it that is its own parent. -/
  root_mem : ∀ x : Fin n, ∃ r : Fin n, s.root x = r ∧ s.parentOf r = r ∧ r ∈ connectedSet calls x
  /-- Two numbers have one root exactly when unions connect them. -/
  root_eq_iff : ∀ x y : Fin n, s.root x = s.root y ↔ Connected calls x y
  /-- The size recorded at a root is the number of numbers in its set. -/
  sizeOf_root : ∀ x : Fin n, s.sizeOf (s.root x) = (connectedSet calls x).ncard
  /-- A number is at most as many steps below its root as the binary logarithm of the size of its set. -/
  depth_le : ∀ x : Fin n, ∃ k, k ≤ Nat.log 2 (connectedSet calls x).ncard ∧ s.parentOf^[k] x = s.root x
  /-- Leaving finds and questions out of the run changes no other answer and no root. -/
  run_of_sublist : ∀ fewer : List (Call n × Answer), fewer.Sublist answered →
    fewer.filter (·.1.isUnion) = answered.filter (·.1.isUnion) →
      ∃ t, start.run (fewer.map Prod.fst) = some (fewer, t) ∧ ∀ x : Fin n, t.root x = s.root x

/-- The size recorded at a root after a run. -/
theorem Represents.sizeOf_rep {calls : List (Call n)} (h : s.Represents (rootsAfter id calls))
    (hlength : s.length = n) (x : Fin n) :
    s.sizeOf (rootsAfter id calls x) = (connectedSet calls x).ncard := by
  obtain ⟨rank, h⟩ := h
  have members : Fin.val '' connectedSet calls x =
      ((Finset.range n).filter fun y => rootsAfter id calls y = rootsAfter id calls x : Finset Nat) := by
    ext y
    simp only [Set.mem_image, connectedSet, Set.mem_ofPred_eq, ← rootsAfter_eq_iff, Finset.coe_filter,
      Finset.mem_range]
    exact ⟨fun ⟨z, hz, e⟩ => e ▸ ⟨z.isLt, hz⟩, fun ⟨hy, e⟩ => ⟨⟨y, hy⟩, e, rfl⟩⟩
  rw [h.size_eq _ (h.rep_lt x (val_lt_length hlength x)) (h.rep_rep x), hlength, ← Set.ncard_coe_finset, ← members,
    Set.ncard_image_of_injective _ Fin.val_injective]

/-- A run from single numbers has the answers and leaves the roots that its calls say. -/
theorem exists_run_singles (calls : List (Call n)) :
    ∃ s, (singles n).run calls = some (transcript id calls, s) ∧ s.length = n ∧
      s.Represents (rootsAfter id calls) :=
  (represents_singles n).run rfl calls

/-- The answers that the roots after some calls give are right after these calls. -/
theorem Call.rightAfter_answer (before : List (Call n)) (call : Call n) :
    call.RightAfter (singles n) before (call.answer (rootsAfter id before)) := by
  cases call with
  | union x y => exact ⟨_, rfl, by rw [decide_eq_true_iff, ne_eq, rootsAfter_eq_iff]⟩
  | same x y => exact ⟨_, rfl, by rw [decide_eq_true_iff, rootsAfter_eq_iff]⟩
  | find x =>
    obtain ⟨s, hrun, hlength, hrep⟩ := exists_run_singles before
    refine ⟨_, s, hrun, ?_⟩
    rw [hrep.root_eq (val_lt_length hlength x)]
    rfl

/-- What a run from single numbers answers and leaves. -/
theorem exists_tracks (calls : List (Call n)) :
    ∃ answered s, (singles n).run calls = some (answered, s) ∧ Tracks (singles n) calls answered s := by
  obtain ⟨s, hrun, hlength, hrep⟩ := exists_run_singles calls
  have below := val_lt_length hlength
  have hroot (x : Fin n) : s.root x = rootsAfter id calls x := hrep.root_eq (below x)
  refine ⟨_, s, hrun, ?_⟩
  exact
    { map_fst := map_fst_transcript id calls
      rightAfter := fun before call answer after h => by
        rw [answer_of_transcript h]
        exact call.rightAfter_answer _
      walks := fun x => by
        obtain ⟨rank, h⟩ := hrep
        exact h.walks_find (below x)
      root_mem := fun x => by
        obtain ⟨rank, h⟩ := hrep
        refine ⟨⟨rootsAfter id calls x, hlength ▸ h.rep_lt x (below x)⟩, hroot x, ?_, ?_⟩
        · exact (h.root_iff _).mpr (h.rep_rep x)
        · exact (rootsAfter_eq_iff calls _ _).mp (h.rep_rep x)
      root_eq_iff := fun x y => by rw [hroot, hroot, rootsAfter_eq_iff]
      sizeOf_root := fun x => by rw [hroot, hrep.sizeOf_rep hlength]
      depth_le := fun x => by
        rw [hroot, ← hrep.sizeOf_rep hlength]
        exact hrep.exists_iterate_parentOf (below x)
      run_of_sublist := fun fewer hsub hunions => by
        obtain ⟨hanswers, hroots⟩ := transcript_of_sublist hsub hunions
        obtain ⟨t, ht, htlength, htrep⟩ := exists_run_singles (fewer.map Prod.fst)
        rw [hanswers] at ht
        rw [hroots] at htrep
        refine ⟨t, ht, fun x => ?_⟩
        rw [hroot, htrep.root_eq (val_lt_length htlength x)] }

/-- A structure ranges over as many numbers as were asked for, unless these are more than a number can hold. Every
run of calls on numbers that it ranges over is answered. Each answer is right for the unions made before it, every
find ends at the root of its set, sizes at roots are exact, paths are logarithmic, and finds and questions
have no influence on anything else. -/
theorem tracks_run (length : Nat) :
    (length < 2 ^ 32 → (ofLength length).length = length) ∧
      ∀ calls : List (Call (ofLength length).length), ∃ answered s,
        (ofLength length).run calls = some (answered, s) ∧ Tracks (ofLength length) calls answered s := by
  refine ⟨fun h => ?_, exists_tracks⟩
  rw [ofLength_eq_singles h]
  rfl

end UnionFind

end RegisterColoring
