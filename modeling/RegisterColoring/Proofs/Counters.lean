import RegisterColoring.Proofs.Frame
import RegisterColoring.Proofs.Parts.Groups

/-! # What the counters of an allocation count

Each attempt counts the linkages that it cut and the uses that it moved. The program that is left has the
number of the attempt at every linkage that was broken, and its uses in memory. The two agree.

* `Program.brokenIn`: the linkages that an attempt broke.
* `Program.brokenIn_ofProgram`, `Program.brokenIn_revise`, `Program.mem_brokenIn_revise`: how they change.
* `Program.perm_usesInMemory_revise`: how the uses in memory change.
* `Run.Accounts`: what the rounds of a run say of the program that it leaves.
* `Run.Accounts.after`, `accounts_allocateFrom`: one round, and all of them.
* `allocate_accounts`: what allocation keeps of a program, and what the counters say of the rest. -/

namespace RegisterColoring

/-! ## Broken linkages -/

namespace Program

/-- The linkages that were broken in the attempt of that number. -/
def brokenIn (p : Program) (n : Nat) : List LinkageId :=
  (List.range p.linkages.size).filter fun l => p.linkages[l]?.any fun k => k.state == .broken n

variable {m : Machine} {p q : Program} {number n : Nat} {l : LinkageId}

/-- The linkages broken in an attempt are those whose state says so. -/
theorem mem_brokenIn : l ∈ p.brokenIn n ↔ ∃ k, p.linkages[l]? = some k ∧ k.state = .broken n := by
  rw [brokenIn, List.mem_filter, List.mem_range]
  constructor
  · rintro ⟨-, h⟩
    simpa [Option.any_eq_true] using h
  · rintro ⟨k, hk, hstate⟩
    refine ⟨(Array.getElem?_eq_some_iff.mp hk).1, ?_⟩
    simp [hk, hstate]

/-- They are listed in ascending order. -/
theorem pairwise_brokenIn (p : Program) (n : Nat) : (p.brokenIn n).Pairwise (· < ·) :=
  List.pairwise_lt_range.filter _

/-- None of them is listed twice. -/
theorem nodup_brokenIn (p : Program) (n : Nat) : (p.brokenIn n).Nodup :=
  (p.pairwise_brokenIn n).imp Nat.ne_of_lt

/-- A change of states that breaks and mends nothing leaves the broken linkages as they are. -/
theorem brokenIn_mapStates {f : Linkage → LinkageId → LinkState}
    (h : ∀ l k, p.linkages[l]? = some k → (f k l = .broken n ↔ k.state = .broken n)) :
    (p.mapStates f).brokenIn n = p.brokenIn n := by
  refine (pairwise_brokenIn _ n).eq_of_mem_iff (p.pairwise_brokenIn n) fun l => ?_
  rw [mem_brokenIn, mem_brokenIn, getElem?_mapStates]
  cases hk : p.linkages[l]? with
  | none => simp
  | some k => simp [h l k hk]

/-- The start of an attempt breaks and mends nothing. -/
theorem brokenIn_ofProgram {result : Except AllocationError Attempt}
    (h : Attempt.ofProgram m p number = (q, result)) (n : Nat) : q.brokenIn n = p.brokenIn n := by
  have reset : p.resetSplits.brokenIn n = p.brokenIn n :=
    brokenIn_mapStates fun _ _ _ => LinkState.reset_eq_broken
  rcases Attempt.program_of_ofProgram h with hq | hq <;> rw [hq]
  · exact reset
  · rw [← reset, separate]
    split
    · rfl
    · exact brokenIn_mapStates fun _ _ hk => splitAll_crossing_eq_broken _ hk

section

variable {a : Attempt} {settings : Settings} {r : Revision}

/-- A revision breaks nothing in the name of another attempt. -/
theorem brokenIn_revise (hsound : a.Sound m q) (hr : (a.trial m).revision m q settings = .ok r)
    (hn : n ≠ a.number) : (q.revise (a.trial m) r).brokenIn n = q.brokenIn n := by
  refine (pairwise_brokenIn _ n).eq_of_mem_iff (q.pairwise_brokenIn n) fun l => ?_
  rw [mem_brokenIn, mem_brokenIn]
  constructor
  · rintro ⟨k', hk', hstate⟩
    rw [getElem?_linkages_revise] at hk'
    obtain ⟨k, hk, rfl⟩ := Option.map_eq_some_iff.mp hk'
    simp only at hstate
    split at hstate
    · exact absurd (LinkState.broken.inj hstate).symm hn
    · exact ⟨k, hk, hstate⟩
  · rintro ⟨k, hk, hstate⟩
    exact ⟨k, (keeps_revise hsound hr).broken l k n hk hstate, hstate⟩

/-- What a revision breaks: the linkages that it cuts, and those at the uses that it moves. -/
theorem mem_brokenIn_revise : l ∈ (q.revise (a.trial m) r).brokenIn a.number ↔
    ∃ k, q.linkages[l]? = some k ∧ (k.state = .broken a.number ∨ l ∈ r.cuts ∨
      k.state.isBroken = false ∧ ∃ u ∈ (a.trial m).movedUses r, k.endsAt u = true) := by
  rw [mem_brokenIn, getElem?_linkages_revise]
  cases q.linkages[l]? with
  | none => simp
  | some k =>
    simp only [Option.map_some, Option.some.injEq, exists_eq_left']
    split
    · rename_i hbroken
      exact iff_of_true rfl (.inr hbroken)
    · rename_i hbroken
      exact (or_iff_left hbroken).symm

/-- The linkages that a revision cuts are broken after it. -/
theorem length_cuts_le (hsound : a.Sound m q) (hr : (a.trial m).revision m q settings = .ok r) :
    r.cuts.length ≤ ((q.revise (a.trial m) r).brokenIn a.number).length := by
  refine (r.nodup_cuts.subperm fun l hl => ?_).length_le
  obtain ⟨k, hk⟩ := active_of_mem_cuts hsound hr hl
  exact mem_brokenIn_revise.mpr ⟨k, (mem_activeLinkages.mp hk).1, .inr (.inl hl)⟩

/-- A revision that moves nothing breaks what it cuts and no more. -/
theorem length_cuts_eq (hsound : a.Sound m q) (hr : (a.trial m).revision m q settings = .ok r)
    (hnone : q.brokenIn a.number = []) (hmoved : (a.trial m).movedUses r = []) :
    r.cuts.length = ((q.revise (a.trial m) r).brokenIn a.number).length := by
  refine Nat.le_antisymm (length_cuts_le hsound hr) ((nodup_brokenIn _ _).subperm fun l hl => ?_).length_le
  obtain ⟨k, hk, hstate | hl | ⟨-, u, hu, -⟩⟩ := mem_brokenIn_revise.mp hl
  · exact absurd (hnone ▸ mem_brokenIn.mpr ⟨k, hk, hstate⟩) List.not_mem_nil
  · exact hl
  · exact absurd (hmoved ▸ hu) List.not_mem_nil

end

/-! ## Uses in memory -/

/-- The uses in memory are those of the program that are marked so. -/
theorem mem_usesInMemory {u : UseId} : u ∈ p.usesInMemory ↔ u < p.uses.size ∧ p.isInMemory u = true := by
  rw [usesInMemory, useIds, List.mem_filter, List.mem_range]

/-- Which uses are in memory depends on the uses only. -/
theorem usesInMemory_congr (h : q.uses = p.uses) : q.usesInMemory = p.usesInMemory := by
  rw [usesInMemory, usesInMemory, useIds, useIds, h]
  exact List.filter_congr fun u _ => by rw [isInMemory, isInMemory, use?, use?, h]

/-- The start of an attempt moves nothing. -/
theorem usesInMemory_ofProgram {result : Except AllocationError Attempt}
    (h : Attempt.ofProgram m p number = (q, result)) : q.usesInMemory = p.usesInMemory := by
  apply usesInMemory_congr
  rcases Attempt.program_of_ofProgram h with hq | hq <;> rw [hq]
  · rfl
  · exact uses_separate m _

/-- A revision adds the uses that it moves to those in memory. -/
theorem perm_usesInMemory_revise {t : Trial} {r : Revision} (hnodup : (t.movedUses r).Nodup)
    (hplay : ∀ u ∈ t.movedUses r, u ∈ q.usesInPlay) :
    (q.revise t r).usesInMemory.Perm (q.usesInMemory ++ t.movedUses r) := by
  have nodup : ∀ p : Program, p.usesInMemory.Nodup := fun p => List.nodup_range.filter _
  have apart : ∀ u ∈ q.usesInMemory, u ∉ t.movedUses r := by
    intro u hu hmoved
    have := (mem_usesInPlay.mp (hplay u hmoved)).2
    rw [(mem_usesInMemory.mp hu).2] at this
    cases this
  refine (List.perm_ext_iff_of_nodup (nodup _) ?_).mpr fun u => ?_
  · exact List.nodup_append.mpr ⟨nodup q, hnodup, fun u hu v hv huv => apart u hu (huv ▸ hv)⟩
  · rw [mem_usesInMemory, List.mem_append, mem_usesInMemory, size_uses_revise]
    by_cases hmoved : u ∈ t.movedUses r
    · obtain ⟨hlt, -⟩ := mem_usesInPlay.mp (hplay u hmoved)
      refine iff_of_true ⟨hlt, ?_⟩ (.inr hmoved)
      rw [isInMemory, use?, getElem?_uses_revise, Array.getElem?_eq_getElem hlt]
      simp [hmoved]
    · rw [isInMemory_revise hmoved, or_iff_left hmoved]

end Program

/-! ## Uses that are moved -/

namespace Attempt

variable {m : Machine} {p q : Program} {number : Nat} {a : Attempt} {settings : Settings} {r : Revision}

/-- No group goes without registers twice. -/
theorem nodup_uncolored (a : Attempt) : (a.trial m).uncolored.Nodup :=
  (uncolored_sublist ..).nodup (a.nodup_turns m)

/-- A revision evicts groups that went without registers, each once. -/
theorem nodup_evicted (hr : (a.trial m).revision m q settings = .ok r) : r.evicted.Nodup := by
  obtain ⟨-, -, hevicted⟩ := Revision.choose_eq_ok hr
  rw [hevicted]
  exact (Revision.map_group_needsOf ▸ List.filter_sublist.map Need.group).nodup a.nodup_uncolored

/-- The uses that a revision moves are in play. -/
theorem mem_usesInPlay_of_mem_movedUses (hsound : a.Sound m q)
    (hr : (a.trial m).revision m q settings = .ok r) {u : UseId} (hu : u ∈ (a.trial m).movedUses r) :
    u ∈ q.usesInPlay := by
  obtain ⟨g, hg, hu⟩ := List.mem_flatMap.mp hu
  exact hsound.formed.members_subset g (Revision.of_mem_evicted hr hg).1 u hu

/-- A revision moves each of its uses once. -/
theorem nodup_movedUses (h : ofProgram m p number = (q, .ok a))
    (hr : (a.trial m).revision m q settings = .ok r) : ((a.trial m).movedUses r).Nodup := by
  have joins := p.resetSplits.joins_separate m
  have formed := ofPartition_of_ofProgram h
  obtain ⟨hsize, hsuits⟩ := Groups.suits_of_ofPartition formed
  refine List.nodup_flatMap.mpr ⟨fun g hg => ?_, ?_⟩
  · have hlt : g < a.groups.size := (Revision.of_mem_evicted hr hg).1
    have hset := List.getElem?_eq_getElem (hsize ▸ hlt)
    rw [show (a.trial m).attempt.groups = a.groups from rfl, (hsuits g _ hset).members_eq]
    exact (joins.normal.ascending _ (List.mem_of_getElem? hset)).imp Nat.ne_of_lt
  · refine (nodup_evicted hr).imp_of_mem fun {g g'} hg hg' hne u hu hu' => hne ?_
    -- a use is in one group only
    have inGroup := (Groups.ofUse?_eq_some_iff joins formed).mpr ⟨(Revision.of_mem_evicted hr hg).1, hu⟩
    have inOther := (Groups.ofUse?_eq_some_iff joins formed).mpr ⟨(Revision.of_mem_evicted hr hg').1, hu'⟩
    exact Option.some.inj (inGroup.symm.trans inOther)

end Attempt

/-! ## Rounds and runs -/

/-- What the rounds of a run, numbered from `number` on, say of the program that the run leaves of `p`. -/
structure Run.Accounts (number : Nat) (p : Program) (run : Run) : Prop where
  /-- Attempts are numbered one after the other. -/
  numbers : run.rounds.map (fun r => r.tally.attempt) = List.range' number run.rounds.length
  /-- Linkages are broken in attempts that led to another. -/
  unbroken : ∀ n, (∀ r ∈ run.rounds, r.ending.isRevised = true → r.tally.attempt ≠ n) →
    run.program.brokenIn n = p.brokenIn n
  /-- What an attempt cut is broken, and nothing else is unless the attempt moved uses. -/
  broken : ∀ r ∈ run.rounds, p.brokenIn r.tally.attempt = [] →
    r.tally.broken ≤ (run.program.brokenIn r.tally.attempt).length ∧
      (r.tally.moved = 0 → r.tally.broken = (run.program.brokenIn r.tally.attempt).length)
  /-- What was moved is in memory. -/
  moved : p.usesInMemory.length + (run.rounds.map fun r => r.tally.moved).sum =
    run.program.usesInMemory.length
  /-- An attempt that led to another left groups without registers and gave something up. -/
  failed : ∀ r ∈ run.rounds, r.ending.isRevised = true →
    0 < r.tally.uncolored ∧ 0 < r.tally.broken + r.tally.moved

/-- A round without a revision counts neither groups without registers nor anything given up. -/
theorem Round.tally_of_not_isRevised {r : Round} (h : r.ending.isRevised = false) :
    r.tally = r.trial.tally := by
  obtain ⟨start, trial, ending⟩ := r
  cases ending with
  | revised revision => cases h
  | assigned => rfl
  | stuck cause => rfl

namespace Run.Accounts

variable {m : Machine} {settings : Settings} {number : Nat} {p q : Program} {a : Attempt} {r : Revision}
  {result : Except AllocationError (Array Location)}

/-- A run without rounds that breaks and moves nothing. -/
theorem nil (hbroken : ∀ n, q.brokenIn n = p.brokenIn n) (hmemory : q.usesInMemory = p.usesInMemory) :
    Accounts number p ⟨[], q, result⟩ where
  numbers := rfl
  unbroken n _ := hbroken n
  broken := by simp
  moved := by rw [hmemory]; rfl
  failed := by simp

/-- A run of one round that leads to no other. -/
theorem single {ending : Ending} (h : Attempt.ofProgram m p number = (q, .ok a))
    (hending : ending.isRevised = false) :
    Accounts number p ⟨[⟨p, a.trial m, ending⟩], q, result⟩ := by
  have tally : Round.tally ⟨p, a.trial m, ending⟩ = (a.trial m).tally :=
    Round.tally_of_not_isRevised hending
  have hbroken := Program.brokenIn_ofProgram h
  constructor
  · show [(Round.tally _).attempt] = [number]
    rw [tally, ← (Attempt.sound_of_ofProgram h).2.1]
    rfl
  · exact fun n _ => hbroken n
  · intro r hr hnone
    obtain rfl := List.mem_singleton.mp hr
    rw [hbroken, hnone, tally]
    exact ⟨Nat.le_refl 0, fun _ => rfl⟩
  · rw [Program.usesInMemory_ofProgram h, List.map_singleton, tally]
    rfl
  · intro r hr hrevised
    obtain rfl := List.mem_singleton.mp hr
    rw [hending] at hrevised
    cases hrevised

/-- Attempts of a run come after those before it. -/
theorem le_attempt {run : Run} (h : run.Accounts number p) {r : Round} (hr : r ∈ run.rounds) :
    number ≤ r.tally.attempt := by
  have hmem := h.numbers ▸ List.mem_map_of_mem (f := fun r : Round => r.tally.attempt) hr
  exact (List.mem_range'_1.mp hmem).1

/-- A round that leads to others, in front of their run. -/
theorem after {run : Run} (h : Attempt.ofProgram m p number = (q, .ok a))
    (hne : ¬(a.trial m).uncolored.isEmpty = true) (hr : (a.trial m).revision m q settings = .ok r)
    (hrun : run.Accounts (number + 1) (q.revise (a.trial m) r)) :
    (run.after ⟨p, a.trial m, .revised r⟩).Accounts number p := by
  obtain ⟨hsound, rfl, -⟩ := Attempt.sound_of_ofProgram h
  have hbroken := Program.brokenIn_ofProgram h
  have others : ∀ n, n ≠ a.number → (q.revise (a.trial m) r).brokenIn n = p.brokenIn n := fun n hn => by
    rw [Program.brokenIn_revise hsound hr hn, hbroken]
  -- later attempts have other numbers, so that they add nothing to what this one broke
  have later : ∀ r ∈ run.rounds, r.tally.attempt ≠ a.number := fun r hr =>
    (Nat.lt_of_lt_of_le (Nat.lt_succ_self _) (hrun.le_attempt hr)).ne'
  have left : run.program.brokenIn a.number = (q.revise (a.trial m) r).brokenIn a.number :=
    hrun.unbroken a.number fun r hr _ => later r hr
  constructor
  · show a.number :: run.rounds.map _ = List.range' a.number (run.rounds.length + 1)
    rw [hrun.numbers, List.range'_succ]
  · intro n hn
    have hne : a.number ≠ n := hn _ List.mem_cons_self rfl
    rw [← others n hne.symm]
    exact hrun.unbroken n fun r hr => hn r (List.mem_cons_of_mem _ hr)
  · intro round hround hnone
    rcases List.mem_cons.mp hround with rfl | hround
    · show r.cuts.length ≤ (run.program.brokenIn a.number).length ∧ (((a.trial m).movedUses r).length = 0 →
        r.cuts.length = (run.program.brokenIn a.number).length)
      rw [left]
      refine ⟨Program.length_cuts_le hsound hr, fun hmoved => ?_⟩
      exact Program.length_cuts_eq hsound hr ((hbroken _).trans hnone) (List.length_eq_zero_iff.mp hmoved)
    · exact hrun.broken round hround ((others _ (later round hround)).trans hnone)
  · show p.usesInMemory.length + (((a.trial m).movedUses r).length + (run.rounds.map _).sum) = _
    have moved := (Program.perm_usesInMemory_revise (Attempt.nodup_movedUses h hr) fun u =>
      Attempt.mem_usesInPlay_of_mem_movedUses hsound hr).length_eq
    rw [List.length_append, Program.usesInMemory_ofProgram h] at moved
    rw [← Nat.add_assoc, ← moved]
    exact hrun.moved
  · intro round hround hrevised
    rcases List.mem_cons.mp hround with rfl | hround
    · show 0 < (a.trial m).uncolored.length ∧ 0 < r.cuts.length + ((a.trial m).movedUses r).length
      refine ⟨List.length_pos_iff.mpr fun hnil => hne (List.isEmpty_iff.mpr hnil), ?_⟩
      rcases Program.cuts_or_moves hsound hr hne with ⟨-, l, hl, -⟩ | ⟨-, u, -, hu⟩
      · exact Nat.add_pos_left (List.length_pos_of_mem hl) _
      · exact Nat.add_pos_right _ (List.length_pos_of_mem hu)
    · exact hrun.failed round hround hrevised

end Run.Accounts

section

variable {m : Machine} {settings : Settings} {limit remaining number : Nat} {p : Program}

/-- Every run accounts for what it leaves. -/
theorem accounts_allocateFrom :
    (allocateFrom m settings limit remaining number p).Accounts number p := by
  fun_induction allocateFrom m settings limit remaining number p with
  | case1 number p => exact .nil (fun _ => rfl) rfl
  | case2 remaining number p q e hattempt =>
    exact .nil (Program.brokenIn_ofProgram hattempt) (Program.usesInMemory_ofProgram hattempt)
  | case3 remaining number p q a hattempt t hcolored => exact .single hattempt rfl
  | case4 remaining number p q a hattempt t hcolored e hrevision => exact .single hattempt rfl
  | case5 remaining number p q a hattempt t hcolored r hrevision hempty => exact .single hattempt rfl
  | case6 remaining number p q a hattempt t hcolored r hrevision hempty ih =>
    exact .after hattempt hcolored hrevision ih

end

/-! ## Allocations of fresh programs -/

/-- Whether all linkages of a program are active and none of its uses is in memory. -/
def Program.Fresh (p : Program) : Prop :=
  (∀ k ∈ p.linkages, k.state = .active) ∧ ∀ use ∈ p.uses, use.inMemory = false

instance (p : Program) : Decidable p.Fresh :=
  inferInstanceAs (Decidable (_ ∧ _))

namespace Program.Fresh

variable {p : Program}

/-- At first no linkage is broken. -/
theorem brokenIn_eq_nil (h : p.Fresh) (n : Nat) : p.brokenIn n = [] := by
  refine List.eq_nil_iff_forall_not_mem.mpr fun l hl => ?_
  obtain ⟨k, hk, hstate⟩ := mem_brokenIn.mp hl
  rw [h.1 k (Array.mem_of_getElem? hk)] at hstate
  cases hstate

/-- At first no use is in memory. -/
theorem usesInMemory_eq_nil (h : p.Fresh) : p.usesInMemory = [] := by
  refine List.eq_nil_iff_forall_not_mem.mpr fun u hu => ?_
  obtain ⟨hlt, hmemory⟩ := mem_usesInMemory.mp hu
  rw [isInMemory, use?, Array.getElem?_eq_getElem hlt, Option.any_some, h.2 _ (Array.getElem_mem hlt)]
    at hmemory
  cases hmemory

end Program.Fresh

/-- What the counters of an allocation say of the program `q` that is left of a fresh one. -/
structure Allocation.Accounts (found : Allocation) (q : Program) : Prop where
  /-- Attempts are numbered from one on. -/
  numbers : found.attempts.map Tally.attempt = List.range' 1 found.attempts.length
  /-- Linkages are broken in attempts before the last. -/
  before_last : ∀ k ∈ q.linkages, ∀ n, k.state = .broken n → 1 ≤ n ∧ n < found.attempts.length
  /-- An attempt broke at least what it cut, and no more unless it moved uses. -/
  broken : ∀ t ∈ found.attempts, t.broken ≤ (q.brokenIn t.attempt).length ∧
    (t.moved = 0 → t.broken = (q.brokenIn t.attempt).length)
  /-- All that was moved is in memory, and nothing else is. -/
  moved : (found.attempts.map Tally.moved).sum = q.usesInMemory.length
  /-- The last attempt gives registers to all groups; every other one leaves groups without, and gives
  something up. -/
  last : ∃ earlier last, found.attempts = earlier ++ [last] ∧
    (last.uncolored = 0 ∧ last.broken = 0 ∧ last.moved = 0) ∧
    ∀ t ∈ earlier, 0 < t.uncolored ∧ 0 < t.broken + t.moved

/-- Whatever comes of an allocation, nothing changes but the states of linkages that were not broken and
the uses that went to memory. When it succeeds on a fresh program, its counters account for all that it
broke and moved. -/
theorem allocate_accounts (m : Machine) (settings : Settings) (p : Program) :
    p.Keeps (allocate m settings p).program ∧
      (p.Fresh → ∀ found, (allocate m settings p).allocation = .ok found →
        found.Accounts (allocate m settings p).program) := by
  refine ⟨keeps_allocateFrom, fun hfresh found h => ?_⟩
  obtain ⟨hresult, hattempts⟩ := Run.allocation_eq_ok_iff.mp h
  have accounts : (allocate m settings p).Accounts 1 p := accounts_allocateFrom
  obtain ⟨earlier, p', number', q, a, -, -, hearlier, hrun⟩ := exists_last_round hresult
  have rounds : (allocate m settings p).rounds = earlier ++ [⟨p', a.trial m, .assigned⟩] :=
    congrArg Run.rounds hrun
  have numbers := accounts.numbers
  have attempts : found.attempts = earlier.map Round.tally ++ [(a.trial m).tally] := by
    rw [hattempts, rounds, List.map_append]
    rfl
  refine ⟨?_, fun k hk n hstate => ?_, fun t ht => ?_, ?_, _, _, attempts, ⟨rfl, rfl, rfl⟩, fun t ht => ?_⟩
  · rw [hattempts, List.map_map, List.length_map]
    exact numbers
  · -- an attempt that broke a linkage led to another, so that it is one of the earlier ones
    rw [rounds, List.map_append, List.length_append, List.length_singleton, List.range'_1_concat] at numbers
    obtain ⟨l, hl⟩ := Array.mem_iff_getElem?.mp hk
    have hmem := Program.mem_brokenIn.mpr ⟨k, hl, hstate⟩
    by_contra hrange
    rw [accounts.unbroken n, hfresh.brokenIn_eq_nil] at hmem
    · cases hmem
    · rintro r hr hrevised rfl
      rw [rounds, List.mem_append, List.mem_singleton] at hr
      rcases hr with hr | rfl
      · have hnumber := List.mem_map_of_mem (f := fun r : Round => r.tally.attempt) hr
        rw [(List.append_inj' numbers rfl).1, List.mem_range'_1] at hnumber
        rw [attempts, List.length_append, List.length_map, List.length_singleton] at hrange
        omega
      · cases hrevised
  · rw [hattempts] at ht
    obtain ⟨r, hr, rfl⟩ := List.mem_map.mp ht
    exact accounts.broken r hr (hfresh.brokenIn_eq_nil _)
  · rw [← accounts.moved, hfresh.usesInMemory_eq_nil, hattempts, List.map_map, List.length_nil, Nat.zero_add]
    rfl
  · obtain ⟨r, hr, rfl⟩ := List.mem_map.mp ht
    obtain ⟨revision, hending⟩ := hearlier r hr
    exact accounts.failed r (rounds ▸ List.mem_append_left _ hr) (by rw [hending]; rfl)

/-- The first attempt on `contended` cuts one linkage and moves one use, which breaks no other. -/
theorem allocate_accounts_contended :
    contended.Fresh ∧
      ∃ found, (allocate bytePairMachine { spillUnallocatable := true } contended).allocation = .ok found ∧
        found.attempts.map Tally.moved = [1, 0] ∧
        ((allocate bytePairMachine { spillUnallocatable := true } contended).program.brokenIn 1).length = 1 ∧
        found.Accounts (allocate bytePairMachine { spillUnallocatable := true } contended).program := by
  have computed : ((allocate bytePairMachine { spillUnallocatable := true }
      contended).allocation.map fun found => found.attempts.map Tally.moved) = .ok [1, 0] := by
    decide +kernel
  cases h : (allocate bytePairMachine { spillUnallocatable := true } contended).allocation with
  | error e =>
    rw [h] at computed
    cases computed
  | ok found =>
    rw [h] at computed
    exact ⟨by decide, found, rfl, Except.ok.inj computed, by decide +kernel,
      (allocate_accounts _ _ contended).2 (by decide) found h⟩

end RegisterColoring
