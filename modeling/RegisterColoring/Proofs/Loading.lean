import Mathlib.Algebra.Order.Group.Nat
import RegisterColoring.Program.Description
import RegisterColoring.Proofs.Machine

/-! # Which programs are accepted

What a program description has to satisfy on a machine, and what is reported of one that does not: of all its
defects the one that comes first, uses before linkages, and within a use or a linkage check by check.

* `UseDecl.Sound`, `UseDecl.Fails`: a use has no defect, or this is its first one.
* `UseDecl.Resolves`: a use has what its declaration names, for a way to number places.
* `Settles`: a check of one element accepts exactly the sound ones and names the defect of the others; so does
  the check of a list of them, with the first defect.
* `Program.realizes_numberAt_iff`: as long as numbers are not too short for them, places are known by themselves.
* `ofDescription_exact`: a description is accepted if and only if it has no defect, the program is then the one
  it describes, and otherwise its first defect is reported. -/

namespace RegisterColoring

/-! ## Checks of all elements -/

section

variable {ε γ δ : Type}

/-- Whether a defect is the one of the first element that is not sound. -/
def FirstFailure (sound : γ → Prop) (fails : Nat → γ → ε → Prop) (l : List γ) (e : ε) : Prop :=
  ∃ i a, l[i]? = some a ∧ fails i a e ∧ ∀ j b, j < i → l[j]? = some b → sound b

/-- A check that is given an element and its position settles what becomes of it: it makes something of every
sound element, and it names the defect of every other one. -/
structure Settles (check : Nat → γ → Except ε δ) (sound : γ → Prop) (makes : γ → δ → Prop)
    (fails : Nat → γ → ε → Prop) : Prop where
  /-- Either the element is sound and something is made of it, or its defect is named. -/
  cases : ∀ i a, (sound a ∧ ∃ b, check i a = .ok b ∧ makes a b) ∨ ∃ e, check i a = .error e ∧ fails i a e
  /-- Only one thing can be made of an element. -/
  makes_unique : ∀ a b b', makes a b → makes a b' → b = b'
  /-- Only one defect can be named. -/
  fails_unique : ∀ i a e e', fails i a e → fails i a e' → e = e'
  /-- What has a defect is not sound. -/
  not_sound : ∀ i a e, fails i a e → ¬ sound a

namespace Settles

variable {check : Nat → γ → Except ε δ} {sound : γ → Prop} {makes : γ → δ → Prop}
  {fails : Nat → γ → ε → Prop} {l : List γ}

/-- What is made of an element that passes. -/
theorem eq_ok_iff (h : Settles check sound makes fails) {i : Nat} {a : γ} {b : δ} :
    check i a = .ok b ↔ sound a ∧ makes a b := by
  rcases h.cases i a with ⟨hsound, b', hcheck, hmakes⟩ | ⟨e, hcheck, hfails⟩
  · rw [hcheck, Except.ok.injEq]
    exact ⟨fun hb => ⟨hsound, hb ▸ hmakes⟩, fun hb => h.makes_unique a b' b hmakes hb.2⟩
  · rw [hcheck]
    exact iff_of_false (fun hb => by cases hb) fun hb => h.not_sound i a e hfails hb.1

/-- Which defect is named. -/
theorem eq_error_iff (h : Settles check sound makes fails) {i : Nat} {a : γ} {e : ε} :
    check i a = .error e ↔ fails i a e := by
  rcases h.cases i a with ⟨hsound, b, hcheck, -⟩ | ⟨e', hcheck, hfails⟩
  · rw [hcheck]
    exact iff_of_false (fun he => by cases he) fun he => h.not_sound i a e he hsound
  · rw [hcheck, Except.error.injEq]
    exact ⟨fun he => he ▸ hfails, fun he => h.fails_unique i a e' e hfails he⟩

/-- An element passes if it is sound. -/
theorem exists_ok_iff (h : Settles check sound makes fails) {i : Nat} {a : γ} :
    (∃ b, check i a = .ok b) ↔ sound a := by
  constructor
  · rintro ⟨b, hb⟩
    exact (h.eq_ok_iff.mp hb).1
  · intro hsound
    rcases h.cases i a with ⟨-, b, hcheck, -⟩ | ⟨e, -, hfails⟩
    · exact ⟨b, hcheck⟩
    · exact absurd hsound (h.not_sound i a e hfails)

/-- A list passes if all its elements are sound, and what is made of them stands in their order. -/
theorem mapM_eq_ok_iff (h : Settles check sound makes fails) {bs : List δ} :
    (l.zipIdx.mapM fun x => check x.2 x.1) = .ok bs ↔
      (∀ a ∈ l, sound a) ∧ List.Forall₂ makes l bs := by
  have plain := List.forall₂_map_left_iff (R := fun a b => sound a ∧ makes a b) (f := Prod.fst)
    (l := l.zipIdx) (u := bs)
  rw [List.zipIdx_map_fst] at plain
  rw [RegisterColoring.mapM_eq_ok_iff, ← List.forall₂_and_left, plain]
  simp only [h.eq_ok_iff]

/-- A list fails with the defect of its first element that is not sound. -/
theorem mapM_eq_error_iff (h : Settles check sound makes fails) {e : ε} :
    (l.zipIdx.mapM fun x => check x.2 x.1) = .error e ↔ FirstFailure sound fails l e := by
  rw [RegisterColoring.mapM_eq_error_iff, FirstFailure]
  simp only [List.getElem?_zipIdx, Nat.zero_add, Option.map_eq_some_iff]
  constructor
  · rintro ⟨i, _, ⟨a, ha, rfl⟩, hcheck, hbefore⟩
    refine ⟨i, a, ha, h.eq_error_iff.mp hcheck, fun j b hj hb => ?_⟩
    exact h.exists_ok_iff.mp (hbefore j (b, j) hj ⟨b, hb, rfl⟩)
  · rintro ⟨i, a, ha, hfails, hbefore⟩
    refine ⟨i, (a, i), ⟨a, ha, rfl⟩, h.eq_error_iff.mpr hfails, ?_⟩
    rintro j _ hj ⟨b, hb, rfl⟩
    exact h.exists_ok_iff.mpr (hbefore j b hj hb)

/-- In a list of sound elements nothing fails. -/
theorem not_firstFailure (h : Settles check sound makes fails) (hsound : ∀ a ∈ l, sound a) (e : ε) :
    ¬ FirstFailure sound fails l e := by
  rintro ⟨i, a, ha, hfails, -⟩
  exact h.not_sound i a e hfails (hsound a (List.mem_of_getElem? ha))

end Settles

end

/-! ## Uses -/

/-- The names of the classes of a machine, in declaration order. -/
def Machine.classNames (m : Machine) : List String :=
  m.classes.toList.map (·.name)

namespace UseDecl

/-- Whether a use has no defect. -/
structure Sound (m : Machine) (functions : List String) (d : UseDecl) : Prop where
  /-- It names a declared function. -/
  function_mem : d.function ∈ functions
  /-- It needs a register. -/
  registers_pos : 1 ≤ d.registers
  /-- If it names a class, the machine has it. -/
  class_mem : ∀ name, d.class? = some name → name ∈ m.classNames

/-- The defect of a use at a position: the first of three checks that it fails. -/
inductive Fails (m : Machine) (functions : List String) (index : Nat) (d : UseDecl) : ProgramDefect → Prop
  /-- The function is looked at first. -/
  | function (hfunction : d.function ∉ functions) :
    Fails m functions index d (.undeclaredFunction index d.function)
  /-- Then the number of registers. -/
  | registers (hfunction : d.function ∈ functions) (hregisters : d.registers = 0) :
    Fails m functions index d (.needsNoRegisters index)
  /-- Then the class, if it names one. -/
  | className (hfunction : d.function ∈ functions) (hregisters : 1 ≤ d.registers) (name : String)
    (hclass : d.class? = some name) (hunknown : name ∉ m.classNames) :
    Fails m functions index d (.undeclaredClass index name)

/-- Whether a use of a program is what its declaration says, every name resolved, if what stands at a place is known
by its number. -/
structure Resolves (number : Nat → Nat) (m : Machine) (functions : List String) (d : UseDecl) (use : Use) :
    Prop where
  /-- It is in the first function of the name. -/
  function_eq : ∃ place, functions[place]? = some d.function ∧
    (∀ f, f < place → functions[f]? ≠ some d.function) ∧ use.function = number place
  /-- It stands for the same. -/
  kind_eq : use.kind = d.kind
  /-- It belongs to the same. -/
  operation_eq : use.operation = d.operation
  /-- It asks for the class of the name, or for none if there is no name. -/
  class_eq : (∀ c, use.class? = some c → c < m.classCount) ∧ use.class?.map m.className = d.class?
  /-- It needs as many registers. -/
  registers_eq : use.registers = d.registers
  /-- It has a position exactly if both the block and the place in it are given. -/
  position_iff : ∀ position, use.position = some position ↔
    d.block = some position.block ∧ d.offset = some position.offset
  /-- It does not live in memory. -/
  inMemory_eq : use.inMemory = false

variable {m : Machine} {functions : List String} {number : Nat → Nat}

/-- The place of a name is its first place among the names. -/
theorem findIdx?_eq_some_iff {name : String} {f : FunctionId} :
    functions.findIdx? (· == name) = some f ↔
      functions[f]? = some name ∧ ∀ g, g < f → functions[g]? ≠ some name := by
  rw [List.findIdx?_eq_some_iff_getElem]
  constructor
  · rintro ⟨hf, hname, hbefore⟩
    refine ⟨by rw [List.getElem?_eq_getElem hf, beq_iff_eq.mp hname], fun g hg hname => ?_⟩
    obtain ⟨hlt, rfl⟩ := List.getElem?_eq_some_iff.mp hname
    exact hbefore g hg (beq_self_eq_true _)
  · rintro ⟨hname, hbefore⟩
    obtain ⟨hf, rfl⟩ := List.getElem?_eq_some_iff.mp hname
    refine ⟨hf, beq_self_eq_true _, fun g hg hsame => hbefore g hg ?_⟩
    rw [List.getElem?_eq_getElem (hg.trans hf), beq_iff_eq.mp hsame]

/-- A machine has a class of a name exactly if it is one of the names of its classes. -/
theorem classNamed?_eq_none_iff {name : String} : m.classNamed? name = none ↔ name ∉ m.classNames := by
  rw [Machine.classNamed?, Array.findIdx?_eq_none_iff, Machine.classNames, List.mem_map]
  simp

/-- The class of a name is there and has the name. -/
theorem className_of_classNamed? {name : String} {c : ClassId} (h : m.classNamed? name = some c) :
    c < m.classCount ∧ m.className c = name := by
  obtain ⟨hc, hname, -⟩ := Array.findIdx?_eq_some_iff_getElem.mp h
  refine ⟨hc, ?_⟩
  rw [Machine.className, Machine.classAt, Array.getD_eq_getD_getElem?, Array.getElem?_eq_getElem hc,
    Option.getD_some, beq_iff_eq.mp hname]

/-- The position is given by the block and the place in it. -/
theorem position?_eq_some_iff {d : UseDecl} {position : Position} :
    d.position? = some position ↔ d.block = some position.block ∧ d.offset = some position.offset := by
  rw [position?]
  cases d.block with
  | none => simp
  | some block =>
    cases d.offset with
    | none => simp
    | some offset =>
      cases position
      simp

/-- The function of a use is found exactly if its name is declared. -/
theorem findIdx?_eq_none_iff {name : String} :
    functions.findIdx? (· == name) = none ↔ name ∉ functions := by
  rw [List.findIdx?_eq_none_iff]
  constructor
  · intro h hmem
    simpa using h name hmem
  · intro h f hf
    simpa using fun hname : f = name => h (hname ▸ hf)

/-- The checks of a use, one after the other. -/
theorem toUse_cases (m : Machine) (functions : List String) (index : Nat) (d : UseDecl) :
    (d.Sound m functions ∧ ∃ use, d.toUse m functions index = .ok use ∧ d.Resolves numberAt m functions use) ∨
      ∃ e, d.toUse m functions index = .error e ∧ d.Fails m functions index e := by
  cases hfunction : functions.findIdx? (· == d.function) with
  | none =>
    refine .inr ⟨_, ?_, .function (findIdx?_eq_none_iff.mp hfunction)⟩
    simp only [toUse, hfunction]
    rfl
  | some f =>
    have hfirst := findIdx?_eq_some_iff.mp hfunction
    have hmem := List.mem_of_getElem? hfirst.1
    by_cases hregisters : d.registers = 0
    · refine .inr ⟨_, ?_, .registers hmem hregisters⟩
      simp only [toUse, hfunction, if_pos hregisters]
      rfl
    have hpos : 1 ≤ d.registers := Nat.one_le_iff_ne_zero.mpr hregisters
    cases hclass : d.class? with
    | none =>
      refine .inl ⟨⟨hmem, hpos, by simp [hclass]⟩,
        ⟨numberAt f, d.kind, d.operation, none, d.registers, d.position?, false⟩, ?_, ?_⟩
      · simp only [toUse, hfunction, if_neg hregisters, hclass]
        rfl
      · exact ⟨⟨f, hfirst.1, hfirst.2, rfl⟩, rfl, rfl, ⟨by simp, hclass.symm⟩, rfl, fun _ => position?_eq_some_iff, rfl⟩
    | some name =>
      cases hnamed : m.classNamed? name with
      | none =>
        refine .inr ⟨_, ?_, .className hmem hpos name hclass (classNamed?_eq_none_iff.mp hnamed)⟩
        simp only [toUse, hfunction, if_neg hregisters, hclass, hnamed]
        rfl
      | some c =>
        obtain ⟨hc, hname⟩ := className_of_classNamed? hnamed
        have hknown : name ∈ m.classNames := by
          by_contra hunknown
          rw [classNamed?_eq_none_iff.mpr hunknown] at hnamed
          cases hnamed
        refine .inl ⟨⟨hmem, hpos, by simpa [hclass] using hknown⟩,
          ⟨numberAt f, d.kind, d.operation, some c, d.registers, d.position?, false⟩, ?_, ?_⟩
        · simp only [toUse, hfunction, if_neg hregisters, hclass, hnamed]
          rfl
        · exact ⟨⟨f, hfirst.1, hfirst.2, rfl⟩, rfl, rfl, ⟨by simpa using hc, by rw [hclass, ← hname]; rfl⟩,
            rfl, fun _ => position?_eq_some_iff, rfl⟩

/-- A use that is accepted is what its declaration says. -/
theorem resolves_of_toUse {index : Nat} {d : UseDecl} {use : Use} (h : d.toUse m functions index = .ok use) :
    d.Resolves numberAt m functions use := by
  rcases toUse_cases m functions index d with ⟨-, use', hcheck, hresolves⟩ | ⟨e, hcheck, -⟩
  · cases hcheck.symm.trans h
    exact hresolves
  · cases hcheck.symm.trans h

/-- It does not matter how places are numbered where there is no function. -/
theorem Resolves.renumber {d : UseDecl} {use : Use} (h : d.Resolves number m functions use)
    {number' : Nat → Nat} (hsame : ∀ place < functions.length, number place = number' place) :
    d.Resolves number' m functions use := by
  obtain ⟨place, hplace, hbefore, hnumber⟩ := h.function_eq
  refine { h with function_eq := ⟨place, hplace, hbefore, hnumber.trans ?_⟩ }
  exact hsame place (List.getElem?_eq_some_iff.mp hplace).1

/-- On an accepted machine a declaration describes one use only: classes have different names. -/
theorem Resolves.unique {description : MachineDescription} (hm : Machine.ofDescription description = .ok m)
    {d : UseDecl} {use use' : Use} (h : d.Resolves number m functions use)
    (h' : d.Resolves number m functions use') : use = use' := by
  have hfunction : use.function = use'.function := by
    obtain ⟨place, hplace, hbefore, hnumber⟩ := h.function_eq
    obtain ⟨place', hplace', hbefore', hnumber'⟩ := h'.function_eq
    have found := findIdx?_eq_some_iff.mpr ⟨hplace, hbefore⟩
    rw [findIdx?_eq_some_iff.mpr ⟨hplace', hbefore'⟩, Option.some.injEq] at found
    rw [hnumber, hnumber', found]
  have hposition : use.position = use'.position := Option.ext fun position => by
    rw [h.position_iff, h'.position_iff]
  have hclass : use.class? = use'.class? := by
    have found : ∀ {use : Use}, d.Resolves number m functions use →
        use.class? = d.class?.bind m.classNamed? := by
      intro use h
      rw [← h.class_eq.2]
      cases hclass : use.class? with
      | none => rfl
      | some c => exact (Machine.classNamed?_className hm (h.class_eq.1 c hclass)).symm
    rw [found h, found h']
  cases use
  cases use'
  simp only [Use.mk.injEq]
  exact ⟨hfunction, h.kind_eq.trans h'.kind_eq.symm, h.operation_eq.trans h'.operation_eq.symm, hclass,
    h.registers_eq.trans h'.registers_eq.symm, hposition, h.inMemory_eq.trans h'.inMemory_eq.symm⟩

/-- Resolving a use settles what becomes of it. -/
theorem settles_toUse {description : MachineDescription} (hm : Machine.ofDescription description = .ok m)
    (functions : List String) : Settles (fun index d => UseDecl.toUse m functions index d) (Sound m functions)
      (Resolves numberAt m functions) fun index d => Fails m functions index d where
  cases := toUse_cases m functions
  makes_unique _ _ _ h h' := h.unique hm h'
  fails_unique index d e e' h h' := by
    cases h <;> cases h' <;> simp_all
  not_sound index d e h hsound := by
    cases h with
    | function hfunction => exact hfunction hsound.function_mem
    | registers _ hregisters => exact absurd hsound.registers_pos (by omega)
    | className _ _ name hclass hunknown => exact hunknown (hsound.class_mem name hclass)

end UseDecl

/-! ## Linkages -/

/-- Whether a linkage joins two different uses out of `count`. -/
def EndsSound (count : Nat) (ends : Nat × Nat) : Prop :=
  ends.1 < count ∧ ends.2 < count ∧ ends.1 ≠ ends.2

/-- The defect of a linkage at a position: the first of three checks that it fails. -/
inductive EndsFail (count index : Nat) (ends : Nat × Nat) : ProgramDefect → Prop
  /-- The first end is looked at first. -/
  | first (hfirst : count ≤ ends.1) : EndsFail count index ends (.absentUse index ends.1)
  /-- Then the second. -/
  | second (hfirst : ends.1 < count) (hsecond : count ≤ ends.2) :
    EndsFail count index ends (.absentUse index ends.2)
  /-- Then whether they differ. -/
  | same (hfirst : ends.1 < count) (hsecond : ends.2 < count) (hsame : ends.1 = ends.2) :
    EndsFail count index ends (.joinsItself index)

/-- The linkage between two uses that are known by their numbers. -/
def activeLinkage (number : Nat → Nat) (ends : Nat × Nat) : Linkage :=
  { first := number ends.1, second := number ends.2, state := .active }

/-- Checking a linkage settles what becomes of it. -/
theorem settles_linkageOf (count : Nat) : Settles (linkageOf count) (EndsSound count)
    (fun ends l => activeLinkage numberAt ends = l) fun index ends => EndsFail count index ends where
  cases index ends := by
    rw [linkageOf]
    by_cases hfirst : count ≤ ends.1
    · rw [if_pos hfirst]
      exact .inr ⟨_, rfl, .first hfirst⟩
    rw [if_neg hfirst]
    have hfirst := Nat.lt_of_not_le hfirst
    by_cases hsecond : count ≤ ends.2
    · rw [if_pos hsecond]
      exact .inr ⟨_, rfl, .second hfirst hsecond⟩
    rw [if_neg hsecond]
    have hsecond := Nat.lt_of_not_le hsecond
    by_cases hsame : ends.1 = ends.2
    · rw [if_pos hsame]
      exact .inr ⟨_, rfl, .same hfirst hsecond hsame⟩
    · rw [if_neg hsame]
      exact .inl ⟨⟨hfirst, hsecond, hsame⟩, _, rfl, rfl⟩
  makes_unique _ _ _ h h' := h.symm.trans h'
  fails_unique index ends e e' h h' := by
    cases h <;> cases h' <;> first | rfl | omega
  not_sound index ends e h hsound := by
    obtain ⟨hfirst, hsecond, hne⟩ := hsound
    cases h with
    | first h => omega
    | second _ h => omega
    | same _ _ h => exact hne h

/-! ## Programs -/

namespace ProgramDescription

/-- Whether a description has no defect on a machine. -/
structure Valid (m : Machine) (d : ProgramDescription) : Prop where
  /-- No use has one. -/
  uses_sound : ∀ decl ∈ d.uses, decl.Sound m d.functions
  /-- No linkage has one. -/
  linkages_sound : ∀ ends ∈ d.linkages, EndsSound d.uses.length ends

/-- Whether a defect is the first one of a description: that of the first use that has one, or, if no use
does, that of the first linkage. -/
def FirstDefect (m : Machine) (d : ProgramDescription) (e : ProgramDefect) : Prop :=
  FirstFailure (UseDecl.Sound m d.functions) (fun index decl => decl.Fails m d.functions index) d.uses e ∨
    (∀ decl ∈ d.uses, decl.Sound m d.functions) ∧
      FirstFailure (EndsSound d.uses.length) (fun index ends => EndsFail d.uses.length index ends) d.linkages e

end ProgramDescription

/-- Whether a program is what a description says, if what stands at a place is known by its number. -/
structure Program.Realizes (number : Nat → Nat) (p : Program) (m : Machine) (d : ProgramDescription) : Prop where
  /-- It has the functions of the description. -/
  functions_eq : p.functions.toList = d.functions
  /-- Its uses are those of the description, in their order. -/
  uses_resolved : List.Forall₂ (UseDecl.Resolves number m d.functions) d.uses p.uses.toList
  /-- So are its linkages, and all of them are active. -/
  linkages_eq : p.linkages.toList = d.linkages.map (activeLinkage number)

namespace Program

variable {description : MachineDescription} {m : Machine} {d : ProgramDescription}

/-- The linkages of a description that has no defect in them. -/
theorem forall₂_activeLinkage_iff {ends : List (Nat × Nat)} {linkages : List Linkage} :
    List.Forall₂ (fun ends l => activeLinkage numberAt ends = l) ends linkages ↔
      linkages = ends.map (activeLinkage numberAt) := by
  have plain := List.forall₂_map_left_iff (R := Eq) (f := activeLinkage numberAt) (l := ends) (u := linkages)
  rw [← plain, List.forall₂_eq_eq_eq, eq_comm]

/-- A place that a number can hold is known by itself. -/
theorem numberAt_eq_self {place count : Nat} (h : place < count) (hcount : count ≤ 2 ^ 32) :
    numberAt place = place :=
  Nat.mod_eq_of_lt (h.trans_le hcount)

/-- As long as there are no more functions and uses than numbers, places are known by themselves. -/
theorem realizes_numberAt_iff (hfunctions : d.functions.length ≤ 2 ^ 32) (huses : d.uses.length ≤ 2 ^ 32)
    (hvalid : d.Valid m) {p : Program} : p.Realizes numberAt m d ↔ p.Realizes id m d := by
  have known : ∀ place < d.functions.length, numberAt place = id place := fun place hplace =>
    numberAt_eq_self hplace hfunctions
  have linkages : d.linkages.map (activeLinkage numberAt) = d.linkages.map (activeLinkage id) := by
    refine List.map_congr_left fun ends hends => ?_
    obtain ⟨hfirst, hsecond, -⟩ := hvalid.linkages_sound ends hends
    rw [activeLinkage, numberAt_eq_self hfirst huses, numberAt_eq_self hsecond huses]
    rfl
  constructor <;> rintro ⟨hnames, hresolved, hactive⟩
  · exact ⟨hnames, hresolved.imp fun _ _ h => h.renumber known, hactive.trans linkages⟩
  · refine ⟨hnames, hresolved.imp fun _ _ h => h.renumber fun place hplace => ?_, hactive.trans linkages.symm⟩
    exact (known place hplace).symm

/-- The program of a description without defects is the one that it describes. -/
theorem ofDescription_eq_ok_iff (hm : Machine.ofDescription description = .ok m) {p : Program} :
    ofDescription m d = .ok p ↔ d.Valid m ∧ p.Realizes numberAt m d := by
  have huses := UseDecl.settles_toUse hm d.functions
  have hlinkages := settles_linkageOf d.uses.length
  constructor
  · intro h
    obtain ⟨uses, hmapped, h⟩ := bind_eq_ok.mp h
    obtain ⟨linkages, hjoined, h⟩ := bind_eq_ok.mp h
    obtain ⟨hsound, hresolved⟩ := huses.mapM_eq_ok_iff.mp hmapped
    obtain ⟨hsound', hactive⟩ := hlinkages.mapM_eq_ok_iff.mp hjoined
    cases h
    exact ⟨⟨hsound, hsound'⟩, rfl, hresolved, forall₂_activeLinkage_iff.mp hactive⟩
  · rintro ⟨⟨hsound, hsound'⟩, hfunctions, hresolved, hactive⟩
    refine bind_eq_ok.mpr ⟨p.uses.toList, huses.mapM_eq_ok_iff.mpr ⟨hsound, hresolved⟩, ?_⟩
    refine bind_eq_ok.mpr ⟨p.linkages.toList,
      hlinkages.mapM_eq_ok_iff.mpr ⟨hsound', forall₂_activeLinkage_iff.mpr hactive⟩, ?_⟩
    rw [← hfunctions]
    rfl

/-- The defect of a description that is refused is its first one. -/
theorem ofDescription_eq_error_iff (hm : Machine.ofDescription description = .ok m) {e : ProgramDefect} :
    ofDescription m d = .error e ↔ d.FirstDefect m e := by
  have huses := UseDecl.settles_toUse hm d.functions
  have hlinkages := settles_linkageOf d.uses.length
  constructor
  · intro h
    rcases bind_eq_error.mp h with hfails | ⟨uses, hmapped, h⟩
    · exact .inl (huses.mapM_eq_error_iff.mp hfails)
    · have hsound := (huses.mapM_eq_ok_iff.mp hmapped).1
      rcases bind_eq_error.mp h with hfails | ⟨linkages, -, h⟩
      · exact .inr ⟨hsound, hlinkages.mapM_eq_error_iff.mp hfails⟩
      · cases h
  · rintro (hfails | ⟨hsound, hfails⟩)
    · exact bind_eq_error.mpr (.inl (huses.mapM_eq_error_iff.mpr hfails))
    · -- uses that are all sound are all resolved
      obtain ⟨uses, hmapped⟩ := exists_mapM_ok_iff.mpr fun (x : UseDecl × Nat) hx =>
        (huses.exists_ok_iff (i := x.2)).mpr (hsound x.1 (List.fst_mem_of_mem_zipIdx hx))
      exact bind_eq_error.mpr (.inr ⟨uses, hmapped,
        bind_eq_error.mpr (.inl (hlinkages.mapM_eq_error_iff.mpr hfails))⟩)

end Program

/-- A description without defects has no first one. -/
theorem ProgramDescription.Valid.not_firstDefect {description : MachineDescription} {m : Machine}
    {d : ProgramDescription} (hm : Machine.ofDescription description = .ok m) (h : d.Valid m) (e : ProgramDefect) :
    ¬ d.FirstDefect m e := by
  rintro (hfails | ⟨-, hfails⟩)
  · exact (UseDecl.settles_toUse hm d.functions).not_firstFailure h.uses_sound e hfails
  · exact (settles_linkageOf d.uses.length).not_firstFailure h.linkages_sound e hfails

/-- A program description is accepted on an accepted machine if and only if it has no defect: every use names a
declared function, needs a register and names a class of the machine if any, and every linkage joins two
different uses. The program is then the one that it describes, use by use and linkage by linkage, where functions
and uses are known by the numbers of their places. As long as there are no more of them than numbers, these are the
places themselves. If the description has defects, the first is reported, with the position of the first use that
has one or else of the first linkage. -/
theorem ofDescription_exact {description : MachineDescription} {m : Machine}
    (hm : Machine.ofDescription description = .ok m) (d : ProgramDescription) :
    ((∃ p, Program.ofDescription m d = .ok p) ↔ d.Valid m) ∧
      (∀ p, Program.ofDescription m d = .ok p ↔ d.Valid m ∧ p.Realizes numberAt m d) ∧
      (d.functions.length ≤ 2 ^ 32 → d.uses.length ≤ 2 ^ 32 →
        ∀ p, Program.ofDescription m d = .ok p ↔ d.Valid m ∧ p.Realizes id m d) ∧
      ∀ e, Program.ofDescription m d = .error e ↔ d.FirstDefect m e := by
  refine ⟨⟨?_, fun hvalid => ?_⟩, fun p => Program.ofDescription_eq_ok_iff hm,
    fun hfunctions huses p => ?_, fun e => Program.ofDescription_eq_error_iff hm⟩
  · rintro ⟨p, h⟩
    exact ((Program.ofDescription_eq_ok_iff hm).mp h).1
  · cases h : Program.ofDescription m d with
    | ok p => exact ⟨p, rfl⟩
    | error e => exact absurd ((Program.ofDescription_eq_error_iff hm).mp h) (hvalid.not_firstDefect hm e)
  · rw [Program.ofDescription_eq_ok_iff hm]
    exact and_congr_right fun hvalid => Program.realizes_numberAt_iff hfunctions huses hvalid

/-- Two functions of one name, a use of a byte whose place in its block is not given, and a use of a word. -/
def twoOfOneName : ProgramDescription where
  functions := ["main", "main"]
  uses := [{ function := "main", kind := .operand, operation := 0, class? := some "byte", block := some 4 },
    { function := "main", kind := .temp, operation := 1, class? := some "word" }]
  linkages := [(1, 0)]

/-- The program that it describes: both uses are in the first of the functions, and have no position. -/
def inTheFirst : Program where
  functions := #["main", "main"]
  uses := #[⟨0, .operand, 0, some 0, 1, none, false⟩, ⟨0, .temp, 1, some 1, 1, none, false⟩]
  linkages := #[⟨1, 0, .active⟩]

/-- The same description with a use more that needs no register of a class that is not there, one in a function
that is not declared, and linkages to a use that is not there and from a use to itself. -/
def manyDefects : ProgramDescription where
  functions := twoOfOneName.functions
  uses := twoOfOneName.uses ++
    [{ function := "main", kind := .temp, operation := 2, class? := some "dword", registers := 0 },
      { function := "aux", kind := .temp, operation := 3 }]
  linkages := twoOfOneName.linkages ++ [(0, 4), (1, 1)]

/-- The first description has no defect and is realized. Of the defects of the second one the first is reported:
that of the use before the other, and that of its registers before that of its class. -/
theorem ofDescription_exact_manyDefects :
    twoOfOneName.Valid bytePairMachine ∧
      inTheFirst.Realizes id bytePairMachine twoOfOneName ∧
      Program.ofDescription bytePairMachine manyDefects = .error (.needsNoRegisters 2) := by
  obtain ⟨-, -, accepted, -⟩ := ofDescription_exact ofDescription_bytePair twoOfOneName
  obtain ⟨-, -, -, refused⟩ := ofDescription_exact ofDescription_bytePair manyDefects
  have built : Program.ofDescription bytePairMachine twoOfOneName = .ok inTheFirst := by
    decide +kernel
  obtain ⟨hvalid, hrealizes⟩ := (accepted (by decide) (by decide) _).mp built
  refine ⟨hvalid, hrealizes, (refused _).mpr (.inl ⟨2, _, rfl, .registers (by decide) rfl, ?_⟩)⟩
  intro j decl hj hdecl
  refine hvalid.uses_sound decl (List.mem_of_getElem? (i := j) ?_)
  rwa [manyDefects, List.getElem?_append_left hj] at hdecl

end RegisterColoring
