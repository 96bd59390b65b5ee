import RegisterColoring.Machine.Definition
import RegisterColoring.Proofs.Lists

/-! # What an accepted machine is

A description that is accepted gives a machine whose registers share storage mutually and whose classes
know the registers that share storage with their members.

* `Machine.Consistent`: these facts, as later proofs use them.
* `Machine.consistent_of_ofDescription`: every accepted machine has them.
* `Machine.exists_mem_members`, `Machine.classNamed?_className`: and no class of it is empty, or has the name
  of another.
* `Machine.Consistent.mem_aliasesOfAll`: the registers that share storage with one of a list. -/

namespace RegisterColoring

/-! ## Unions of many sets -/

namespace RegisterSet

variable {α : Type} {f : α → RegisterSet}

/-- The union of the sets of a list has the members of each of them that are below the width. -/
theorem mem_foldl_union {l : List α} {s : RegisterSet} {q : RegisterId} :
    q ∈ l.foldl (fun found a => found.union (f a)) s ↔
      q ∈ s ∨ (q < s.width ∧ ∃ a ∈ l, q ∈ f a) := by
  induction l generalizing s with
  | nil => simp
  | cons a l ih =>
    rw [List.foldl_cons, ih, mem_union, width_union]
    simp only [List.mem_cons, exists_eq_or_imp]
    tauto

end RegisterSet

namespace MachineDescription

variable {d : MachineDescription} {declared : Array (List RegisterId)}

/-- Every register of the description has a list of the registers that it names. -/
theorem size_of_declaredAliases (h : d.declaredAliases = .ok declared) :
    declared.size = d.registers.length := by
  obtain ⟨lists, hlists, h⟩ := bind_eq_ok.mp h
  cases h
  rw [List.size_toArray, (forall₂_of_mapM_ok hlists).length_eq]

/-- The pairs are those of a register and one that it names. -/
theorem mem_namedPairs {r q : RegisterId} : (r, q) ∈ namedPairs declared ↔ q ∈ declared.getD r [] := by
  simp only [namedPairs, List.mem_flatMap, List.mem_zipIdx_iff_getElem?, Array.getElem?_toList, List.mem_map,
    Prod.exists, Prod.mk.injEq, Array.getD_eq_getD_getElem?]
  constructor
  · rintro ⟨named, _, hnamed, _, hq, rfl, rfl⟩
    rw [hnamed]
    exact hq
  · intro hq
    cases hnamed : declared[r]? with
    | none =>
      rw [hnamed] at hq
      cases hq
    | some named =>
      rw [hnamed] at hq
      exact ⟨named, r, hnamed, q, hq, rfl, rfl⟩

/-- After some pairs were entered, the registers below `n` share storage with themselves and with the other ones of
their pairs. -/
structure Entered (n : Nat) (pairs : List (RegisterId × RegisterId)) (aliases : Array RegisterSet) : Prop where
  /-- Every register has a set. -/
  size_eq : aliases.size = n
  /-- Sets range over all registers. -/
  width_eq : ∀ r < n, (aliases.getD r default).width = n
  /-- Which registers they hold. -/
  mem_iff : ∀ r < n, ∀ q, q ∈ aliases.getD r default ↔
    q < n ∧ (q = r ∨ (r, q) ∈ pairs ∨ (q, r) ∈ pairs)

/-- At first every register shares storage with itself alone. -/
theorem entered_nil (n : Nat) :
    Entered n [] ((List.range n).map fun r => RegisterSet.ofList n [r]).toArray := by
  have single {r : RegisterId} (hr : r < n) :
      ((List.range n).map fun r => RegisterSet.ofList n [r]).toArray.getD r default = .ofList n [r] := by
    simp [hr]
  refine ⟨by simp, fun r hr => ?_, fun r hr q => ?_⟩
  · rw [single hr, RegisterSet.width_ofList]
  · rw [single hr, RegisterSet.mem_ofList]
    simp [and_comm]

/-- Entering one pair more. -/
theorem Entered.enterPair {n : Nat} {pairs : List (RegisterId × RegisterId)} {aliases : Array RegisterSet}
    (h : Entered n pairs aliases) (a b : RegisterId) :
    Entered n (pairs ++ [(a, b)]) (enterPair aliases (a, b)) := by
  have entered {r : RegisterId} (hr : r < n) : (MachineDescription.enterPair aliases (a, b)).getD r default =
      let first := if a = r then (aliases.getD r default).insert b else aliases.getD r default
      if b = r then first.insert a else first := by
    have hsize := h.size_eq.symm ▸ hr
    rw [MachineDescription.enterPair, getD_modify (by rwa [Array.size_modify]), getD_modify hsize]
  refine ⟨?_, fun r hr => ?_, fun r hr q => ?_⟩
  · rw [MachineDescription.enterPair, Array.size_modify, Array.size_modify, h.size_eq]
  · have hwidth := h.width_eq r hr
    rw [entered hr]
    simp only
    split <;> split <;> simp only [RegisterSet.width_insert, hwidth]
  · have hwidth := h.width_eq r hr
    have hmem := h.mem_iff r hr q
    rw [entered hr]
    simp only [List.mem_append, List.mem_singleton, Prod.mk.injEq]
    split <;> split <;> simp only [RegisterSet.mem_insert, RegisterSet.width_insert, hwidth, hmem] <;> grind

/-- Entering pairs one after the other. -/
theorem Entered.foldl_enterPair {n : Nat} {pairs : List (RegisterId × RegisterId)}
    {aliases : Array RegisterSet} (h : Entered n pairs aliases) (new : List (RegisterId × RegisterId)) :
    Entered n (pairs ++ new) (new.foldl MachineDescription.enterPair aliases) := by
  induction new generalizing pairs aliases with
  | nil => rwa [List.append_nil]
  | cons pair new ih =>
    rw [List.append_cons, List.foldl_cons]
    exact ih (h.enterPair pair.1 pair.2)

/-- Every pair of a register and one that it names is entered. -/
theorem entered_aliasSets (declared : Array (List RegisterId)) :
    Entered declared.size (namedPairs declared) (aliasSets declared) :=
  (entered_nil declared.size).foldl_enterPair (namedPairs declared)

/-- A register shares storage with itself, those it names, and those that name it. -/
theorem mem_aliasSets {r q : RegisterId} : q ∈ (aliasSets declared).getD r default ↔ r < declared.size ∧
    q < declared.size ∧ (q = r ∨ q ∈ declared.getD r [] ∨ r ∈ declared.getD q []) := by
  have entered := entered_aliasSets declared
  by_cases hr : r < declared.size
  · rw [entered.mem_iff r hr, mem_namedPairs, mem_namedPairs]
    exact (and_iff_right hr).symm
  · have past : (aliasSets declared).getD r default = default := by
      rw [Array.getD_eq_getD_getElem?, Array.getElem?_eq_none, Option.getD_none]
      rw [entered.size_eq]
      exact Nat.le_of_not_lt hr
    rw [past]
    exact iff_of_false (RegisterSet.not_mem_empty 0 q) fun h => hr h.1

/-- The registers of the machine with their alias sets. -/
theorem aliases_machineRegisters (hsize : declared.size = d.registers.length) (r : RegisterId) :
    ((d.machineRegisters declared).getD r default).aliases = (aliasSets declared).getD r default := by
  rw [machineRegisters, Array.getD_eq_getD_getElem?, List.getElem?_toArray, List.getElem?_map]
  by_cases hr : r < d.registers.length
  · rw [List.getElem?_eq_getElem (by rwa [List.length_zipIdx])]
    simp
  · rw [List.getElem?_eq_none (by rw [List.length_zipIdx]; exact Nat.le_of_not_lt hr),
      Array.getD_eq_getD_getElem?, Array.getElem?_eq_none]
    · rfl
    · rw [(entered_aliasSets declared).size_eq, hsize]
      exact Nat.le_of_not_lt hr

theorem size_machineRegisters : (d.machineRegisters declared).size = d.registers.length := by
  rw [machineRegisters, List.size_toArray, List.length_map, List.length_zipIdx]

/-- A class is accepted exactly if no earlier declaration has its name, it names registers, all of them
declared, and its registers have a size. It then holds the registers named and those that share storage with
one of them. -/
theorem machineClass_eq_ok_iff {registers : Array Register} {earlier : List ClassDecl} {c : ClassDecl}
    {k : RegisterClass} : d.machineClass registers earlier c = .ok k ↔
      (∀ e ∈ earlier, e.name ≠ c.name) ∧ c.registers ≠ [] ∧ c.registerSize ≠ 0 ∧
        ∃ members, c.registers.mapM (d.registerNumber c.name) = .ok members ∧
          k.name = c.name ∧ k.registerSize = c.registerSize ∧
          k.members = .ofList registers.size members ∧
          k.aliases = k.members.toList.foldl
            (fun found r => found.union (registers.getD r default).aliases) (.empty registers.size) := by
  constructor
  · intro h
    rw [machineClass] at h
    split at h
    · cases h
    · rename_i hnew
      simp only at h
      split at h
      · cases h
      · rename_i hne
        split at h
        · cases h
        · rename_i hsize
          obtain ⟨members, hmembers, h⟩ := bind_eq_ok.mp h
          cases h
          refine ⟨fun e he heq => hnew (List.any_eq_true.mpr ⟨e, he, beq_iff_eq.mpr heq⟩),
            mt List.isEmpty_iff.mpr hne, hsize, members, hmembers, rfl, rfl, rfl, rfl⟩
  · rintro ⟨hnew, hne, hsize, members, hmembers, hname, hregisterSize, hset, haliases⟩
    have hearlier : ¬(earlier.any fun e => e.name == c.name) = true := by
      rw [List.any_eq_true]
      rintro ⟨e, he, heq⟩
      exact hnew e he (beq_iff_eq.mp heq)
    rw [machineClass, if_neg hearlier]
    simp only [if_neg (mt List.isEmpty_iff.mp hne), if_neg hsize]
    refine bind_eq_ok.mpr ⟨members, hmembers, ?_⟩
    obtain ⟨name, registerSize, set, aliases⟩ := k
    simp only at hname hregisterSize hset haliases
    subst hname hregisterSize hset haliases
    rfl

/-- The number of a register is that of a declaration. -/
theorem lt_of_registerNumber {owner name : String} {r : RegisterId}
    (h : d.registerNumber owner name = .ok r) : r < d.registers.length := by
  rw [registerNumber] at h
  split at h
  · rename_i r' hfound
    cases h
    exact (List.findIdx?_eq_some_iff_getElem.mp hfound).1
  · cases h

/-- A class that is accepted has a register. -/
theorem exists_mem_of_machineClass {registers : Array Register}
    (hsize : registers.size = d.registers.length) {earlier : List ClassDecl} {c : ClassDecl}
    {k : RegisterClass} (h : d.machineClass registers earlier c = .ok k) : ∃ r, r ∈ k.members := by
  obtain ⟨-, hne, -, members, hmembers, -, -, hset, -⟩ := machineClass_eq_ok_iff.mp h
  obtain ⟨name, hname⟩ := List.exists_mem_of_ne_nil _ hne
  obtain ⟨r, hr, hnumber⟩ := exists_mem_of_mapM_ok hmembers hname
  rw [hset]
  exact ⟨r, RegisterSet.mem_ofList.mpr ⟨hr, hsize ▸ lt_of_registerNumber hnumber⟩⟩

end MachineDescription

/-! ## Accepted machines -/

namespace Machine

/-- What is known of an accepted machine. -/
structure Consistent (m : Machine) : Prop where
  /-- Registers that share storage are registers of the machine. -/
  lt_of_mem_aliases : ∀ r q, q ∈ m.aliases r → r < m.registerCount ∧ q < m.registerCount
  /-- Alias sets range over the registers of the machine. -/
  width_aliases : ∀ r, r < m.registerCount → (m.aliases r).width = m.registerCount
  /-- Every register shares storage with itself. -/
  mem_aliases_self : ∀ r, r < m.registerCount → r ∈ m.aliases r
  /-- Sharing storage is mutual. -/
  aliases_symm : ∀ r q, q ∈ m.aliases r → r ∈ m.aliases q
  /-- Classes have registers of the machine. -/
  lt_of_mem_members : ∀ c r, r ∈ m.members c → r < m.registerCount
  /-- The alias set of a class has the registers that share storage with a member. -/
  mem_class_aliases : ∀ c q, q ∈ (m.classAt c).aliases ↔ ∃ r ∈ m.members c, q ∈ m.aliases r
  /-- The forest is that of the alias sets of the classes. -/
  forest_eq : m.forest = .ofSets (m.classes.toList.map fun c => c.aliases)
  /-- The coverage of a class by another is that of their registers. -/
  coverageRow_eq : ∀ n c, n < m.classCount → c < m.classCount →
    m.coverageRow n c = coverageOf m.registers (m.classAt n) (m.classAt c)

/-- A description is accepted exactly if it has registers, no two of one name, its names can be resolved,
and no two classes overlap; and this is the machine. -/
theorem ofDescription_eq_ok_iff {d : MachineDescription} {m : Machine} :
    ofDescription d = .ok m ↔ d.registers ≠ [] ∧
      MachineDescription.firstRepeat? [] (d.registers.map (·.name)) = none ∧
      ∃ declared classes, d.declaredAliases = .ok declared ∧
        d.machineClasses (d.machineRegisters declared) = .ok classes ∧
        firstOverlap? classes = none ∧
        m = { name := d.name
              registers := d.machineRegisters declared
              classes := classes.toArray
              forest := .ofSets (classes.map (·.aliases))
              coverage := (classes.map fun n => (classes.map fun c =>
                coverageOf (d.machineRegisters declared) n c).toArray).toArray } := by
  constructor
  · intro h
    rw [ofDescription] at h
    split at h
    · cases h
    · rename_i hne
      simp only at h
      split at h
      · cases h
      · rename_i hrepeat
        obtain ⟨declared, hdeclared, h⟩ := bind_eq_ok.mp h
        obtain ⟨classes, hclasses, h⟩ := bind_eq_ok.mp h
        split at h
        · cases h
        · rename_i hoverlap
          cases h
          refine ⟨mt List.isEmpty_iff.mpr hne, Option.eq_none_iff_forall_ne_some.mpr hrepeat,
            declared, classes, hdeclared, hclasses, ?_, rfl⟩
          exact Option.eq_none_iff_forall_ne_some.mpr fun x => hoverlap x.1 x.2
  · rintro ⟨hne, hrepeat, declared, classes, hdeclared, hclasses, hoverlap, rfl⟩
    rw [ofDescription, if_neg (mt List.isEmpty_iff.mp hne)]
    simp only [hrepeat]
    refine bind_eq_ok.mpr ⟨declared, hdeclared, bind_eq_ok.mpr ⟨classes, hclasses, ?_⟩⟩
    simp only [hoverlap]
    rfl

/-- How an accepted machine came about. -/
theorem ofDescription_eq_ok {d : MachineDescription} {m : Machine} (h : ofDescription d = .ok m) :
    ∃ declared classes, d.declaredAliases = .ok declared ∧
      d.machineClasses (d.machineRegisters declared) = .ok classes ∧
      m = { name := d.name
            registers := d.machineRegisters declared
            classes := classes.toArray
            forest := .ofSets (classes.map (·.aliases))
            coverage := (classes.map fun n => (classes.map fun c =>
              coverageOf (d.machineRegisters declared) n c).toArray).toArray } := by
  obtain ⟨-, -, declared, classes, hdeclared, hclasses, -, hm⟩ := ofDescription_eq_ok_iff.mp h
  exact ⟨declared, classes, hdeclared, hclasses, hm⟩

/-- A class that is there is one of the classes; elsewhere there is the empty class. -/
theorem classAt_cases {m : Machine} (c : ClassId) :
    (m.classAt c ∈ m.classes.toList ∧ c < m.classCount) ∨
      (m.classAt c = default ∧ m.classCount ≤ c) := by
  rw [classAt, Array.getD_eq_getD_getElem?]
  by_cases hc : c < m.classes.size
  · rw [Array.getElem?_eq_getElem hc, Option.getD_some]
    exact .inl ⟨Array.getElem_mem_toList hc, hc⟩
  · rw [Array.getElem?_eq_none (Nat.le_of_not_lt hc)]
    exact .inr ⟨rfl, Nat.le_of_not_lt hc⟩

/-- The classes of the list are the classes at the positions that are there. -/
theorem mem_classes_iff {m : Machine} {k : RegisterClass} :
    k ∈ m.classes.toList ↔ ∃ c, c < m.classCount ∧ m.classAt c = k := by
  constructor
  · intro hk
    obtain ⟨c, hk⟩ := List.mem_iff_getElem?.mp hk
    rw [Array.getElem?_toList] at hk
    refine ⟨c, (Array.getElem?_eq_some_iff.mp hk).1, ?_⟩
    rw [classAt, Array.getD_eq_getD_getElem?, hk]
    rfl
  · rintro ⟨c, hc, rfl⟩
    exact (m.classAt_cases c).elim And.left fun h => absurd hc (Nat.not_lt.mpr h.2)

/-- The registers that share storage with one of a list range over the registers of the machine. -/
theorem width_aliasesOfAll (m : Machine) (rs : List RegisterId) :
    (m.aliasesOfAll rs).width = m.registerCount := by
  have keeps : ∀ s : RegisterSet,
      (rs.foldl (fun found r => found.union (m.aliases r)) s).width = s.width := by
    induction rs with
    | nil => exact fun s => rfl
    | cons r rs ih => exact fun s => (ih _).trans (RegisterSet.width_union _ _)
  exact keeps _

/-- Where registers share storage only with registers of the machine, those that share storage with one of
a list are those that share storage with a member of it. -/
theorem mem_aliasesOfAll_of_lt {m : Machine}
    (hlt : ∀ r q, q ∈ m.aliases r → r < m.registerCount ∧ q < m.registerCount)
    {rs : List RegisterId} {q : RegisterId} :
    q ∈ m.aliasesOfAll rs ↔ ∃ r ∈ rs, q ∈ m.aliases r := by
  rw [aliasesOfAll, RegisterSet.mem_foldl_union]
  simp only [RegisterSet.not_mem_empty, RegisterSet.width_empty, false_or]
  refine ⟨And.right, fun h => ⟨?_, h⟩⟩
  obtain ⟨r, -, hq⟩ := h
  exact (hlt r q hq).2

section Accepted

variable {d : MachineDescription} {m : Machine}

/-- How the registers of an accepted machine share storage: each with itself, with those that it names
and with those that name it. -/
theorem aliases_of_ofDescription (h : ofDescription d = .ok m) :
    ∃ declared : Array (List RegisterId), m.registerCount = declared.size ∧
      (∀ r, r < declared.size → (m.aliases r).width = declared.size) ∧
      ∀ r q, q ∈ m.aliases r ↔ r < declared.size ∧ q < declared.size ∧
        (q = r ∨ q ∈ declared.getD r [] ∨ r ∈ declared.getD q []) := by
  obtain ⟨declared, classes, hdeclared, -, hm⟩ := ofDescription_eq_ok h
  have hsize := MachineDescription.size_of_declaredAliases hdeclared
  have haliases : ∀ r, m.aliases r = (MachineDescription.aliasSets declared).getD r default := by
    rw [hm]
    exact MachineDescription.aliases_machineRegisters hsize
  refine ⟨declared, ?_, fun r hr => ?_, fun r q => ?_⟩
  · rw [hm, registerCount, hsize]
    exact MachineDescription.size_machineRegisters
  · rw [haliases]
    exact (MachineDescription.entered_aliasSets declared).width_eq r hr
  · rw [haliases]
    exact MachineDescription.mem_aliasSets

/-- What a class of an accepted machine holds; where there is no class, it is the empty one. -/
theorem classAt_of_ofDescription (h : ofDescription d = .ok m) (c : ClassId) :
    ((∃ members, m.members c = .ofList m.registerCount members) ∧
        (m.classAt c).aliases = m.aliasesOfAll (m.members c).toList) ∨
      m.classAt c = default := by
  obtain ⟨declared, classes, -, hclasses, hm⟩ := ofDescription_eq_ok h
  have hclass : ∀ k ∈ classes, (∃ members, k.members = .ofList m.registerCount members) ∧
      k.aliases = m.aliasesOfAll k.members.toList := by
    intro k hk
    obtain ⟨⟨c, i⟩, -, hk⟩ := exists_of_mem_mapM_ok hclasses hk
    obtain ⟨-, -, -, members, -, -, -, hset, haliases⟩ :=
      MachineDescription.machineClass_eq_ok_iff.mp hk
    rw [hm]
    exact ⟨⟨members, hset⟩, haliases⟩
  rcases m.classAt_cases c with ⟨hc, -⟩ | ⟨hc, -⟩
  · rw [show m.classes.toList = classes by rw [hm]] at hc
    exact .inl (hclass _ hc)
  · exact .inr hc

/-- The classes of an accepted machine have registers. -/
theorem exists_mem_members (h : ofDescription d = .ok m) {c : ClassId} (hc : c < m.classCount) :
    ∃ r, r ∈ m.members c := by
  obtain ⟨declared, classes, -, hclasses, hm⟩ := ofDescription_eq_ok h
  rcases m.classAt_cases c with ⟨hmem, -⟩ | ⟨-, hle⟩
  · rw [show m.classes.toList = classes by rw [hm]] at hmem
    obtain ⟨⟨decl, i⟩, -, hclass⟩ := exists_of_mem_mapM_ok hclasses hmem
    exact MachineDescription.exists_mem_of_machineClass MachineDescription.size_machineRegisters hclass
  · exact absurd hc (Nat.not_lt.mpr hle)

/-- The classes of an accepted machine and their alias sets range over the registers of the machine. -/
theorem width_of_ofDescription (h : ofDescription d = .ok m) {c : ClassId} (hc : c < m.classCount) :
    (m.members c).width = m.registerCount ∧ (m.classAt c).aliases.width = m.registerCount := by
  rcases classAt_of_ofDescription h c with ⟨⟨members, hmembers⟩, haliases⟩ | hdefault
  · rw [hmembers, haliases, width_aliasesOfAll, RegisterSet.width_ofList]
    exact ⟨rfl, rfl⟩
  · -- where there is a class it has a register, and the empty class has none
    obtain ⟨r, hr⟩ := exists_mem_members h hc
    rw [members, hdefault] at hr
    exact absurd hr (RegisterSet.not_mem_empty 0 r)

/-- The classes of an accepted machine are found by their names. -/
theorem classNamed?_className (h : ofDescription d = .ok m) {c : ClassId} (hc : c < m.classCount) :
    m.classNamed? (m.className c) = some c := by
  obtain ⟨declared, classes, -, hclasses, hm⟩ := ofDescription_eq_ok h
  have paired := forall₂_of_mapM_ok hclasses
  have declaredAs : ∀ (i : Nat) (hi : i < classes.length), ∃ hi' : i < d.classes.length,
      classes[i].name = d.classes[i].name ∧ ∀ e ∈ d.classes.take i, e.name ≠ d.classes[i].name := by
    intro i hi
    have hi' : i < d.classes.zipIdx.length := paired.length_eq ▸ hi
    obtain ⟨fresh, -, -, -, -, hname, -⟩ :=
      MachineDescription.machineClass_eq_ok_iff.mp (paired.get hi' hi)
    simp only [List.get_eq_getElem, List.getElem_zipIdx, Nat.zero_add] at fresh hname
    exact ⟨by rwa [List.length_zipIdx] at hi', hname, fresh⟩
  have all : m.classes = classes.toArray := by rw [hm]
  rw [classCount, all, List.size_toArray] at hc
  rw [classNamed?, className, classAt, all, Array.getD_eq_getD_getElem?, List.getElem?_toArray,
    List.getElem?_eq_getElem hc, Option.getD_some, Array.findIdx?_eq_some_iff_getElem]
  refine ⟨hc, beq_self_eq_true _, fun i hi => ?_⟩
  -- an earlier class of that name would have kept this one from being accepted
  obtain ⟨hi', hnamei, -⟩ := declaredAs i (Nat.lt_trans hi hc)
  obtain ⟨hc', hnamec, fresh⟩ := declaredAs c hc
  rw [List.getElem_toArray, beq_iff_eq, hnamei, hnamec]
  exact fresh _ (List.mem_take_iff_getElem.mpr ⟨i, by omega, rfl⟩)

/-- Registers of an accepted machine share storage with registers of the machine only. -/
theorem lt_of_mem_aliases_of_ofDescription (h : ofDescription d = .ok m) (r q : RegisterId)
    (hq : q ∈ m.aliases r) : r < m.registerCount ∧ q < m.registerCount := by
  obtain ⟨declared, hcount, -, mem_aliases⟩ := aliases_of_ofDescription h
  obtain ⟨hr, hq, -⟩ := (mem_aliases r q).mp hq
  rw [hcount]
  exact ⟨hr, hq⟩

/-- The classes of an accepted machine have registers of the machine. -/
theorem lt_of_mem_members_of_ofDescription (h : ofDescription d = .ok m) (c : ClassId)
    (r : RegisterId) (hr : r ∈ m.members c) : r < m.registerCount := by
  rcases classAt_of_ofDescription h c with ⟨⟨members, hmembers⟩, -⟩ | hc
  · rw [hmembers] at hr
    exact (RegisterSet.mem_ofList.mp hr).2
  · rw [members, hc] at hr
    exact absurd hr (RegisterSet.not_mem_empty 0 r)

/-- The alias set of a class of an accepted machine. -/
theorem mem_class_aliases_of_ofDescription (h : ofDescription d = .ok m) (c : ClassId)
    (q : RegisterId) : q ∈ (m.classAt c).aliases ↔ ∃ r ∈ m.members c, q ∈ m.aliases r := by
  rcases classAt_of_ofDescription h c with ⟨-, haliases⟩ | hc
  · rw [haliases, mem_aliasesOfAll_of_lt (lt_of_mem_aliases_of_ofDescription h)]
    simp only [RegisterSet.mem_toList]
  · rw [members, hc]
    refine ⟨fun h => absurd h (RegisterSet.not_mem_empty 0 q), ?_⟩
    rintro ⟨r, hr, -⟩
    exact absurd hr (RegisterSet.not_mem_empty 0 r)

/-- Every accepted machine is consistent. -/
theorem consistent_of_ofDescription (h : ofDescription d = .ok m) : m.Consistent where
  lt_of_mem_aliases := lt_of_mem_aliases_of_ofDescription h
  width_aliases r hr := by
    obtain ⟨declared, hcount, width_aliases, -⟩ := aliases_of_ofDescription h
    rw [hcount] at hr ⊢
    exact width_aliases r hr
  mem_aliases_self r hr := by
    obtain ⟨declared, hcount, -, mem_aliases⟩ := aliases_of_ofDescription h
    rw [hcount] at hr
    exact (mem_aliases r r).mpr ⟨hr, hr, .inl rfl⟩
  aliases_symm r q hq := by
    obtain ⟨declared, -, -, mem_aliases⟩ := aliases_of_ofDescription h
    obtain ⟨hr, hq, hnamed⟩ := (mem_aliases r q).mp hq
    -- what one names the other is named by, so only the order of the two changes
    exact (mem_aliases q r).mpr ⟨hq, hr, hnamed.imp Eq.symm Or.symm⟩
  lt_of_mem_members := lt_of_mem_members_of_ofDescription h
  mem_class_aliases := mem_class_aliases_of_ofDescription h
  forest_eq := by
    obtain ⟨declared, classes, -, -, hm⟩ := ofDescription_eq_ok h
    rw [hm]
  coverageRow_eq n c hn hc := by
    obtain ⟨declared, classes, -, -, hm⟩ := ofDescription_eq_ok h
    rw [hm] at hn hc ⊢
    simp only [classCount, List.size_toArray] at hn hc
    simp [coverageRow, classAt, hn, hc]

end Accepted

/-- The registers that share storage with one of a list. -/
theorem Consistent.mem_aliasesOfAll {m : Machine} (hm : m.Consistent) {rs : List RegisterId}
    {q : RegisterId} : q ∈ m.aliasesOfAll rs ↔ ∃ r ∈ rs, q ∈ m.aliases r :=
  mem_aliasesOfAll_of_lt hm.lt_of_mem_aliases

end Machine

/-! ## A word of two bytes -/

/-- A word that overlays two bytes, and a class for each size. -/
def bytePair : MachineDescription where
  name := "byte pair"
  registers := [⟨"a", ["w"]⟩, ⟨"b", ["w"]⟩, ⟨"w", []⟩]
  classes := [⟨"byte", 1, ["a", "b"]⟩, ⟨"word", 2, ["w"]⟩]

/-- The machine with a word of two bytes. -/
def bytePairMachine : Machine :=
  (Machine.ofDescription bytePair).toOption.getD default

/-- The machine with a word of two bytes is accepted. -/
theorem ofDescription_bytePair : Machine.ofDescription bytePair = .ok bytePairMachine :=
  rfl

/-! ## Classes inside classes -/

/-- Two words that overlay four bytes, with classes of four, two and one of the bytes. -/
def quad : MachineDescription where
  name := "quad"
  registers := [⟨"r0", []⟩, ⟨"r1", []⟩, ⟨"r2", []⟩, ⟨"r3", []⟩, ⟨"p0", ["r0", "r1"]⟩,
    ⟨"p1", ["r2", "r3"]⟩]
  classes := [⟨"single", 1, ["r0", "r1", "r2", "r3"]⟩, ⟨"pair", 2, ["p0", "p1"]⟩,
    ⟨"low", 1, ["r0", "r1"]⟩, ⟨"zero", 1, ["r0"]⟩]

/-- The machine with two words of four bytes. -/
def quadMachine : Machine :=
  (Machine.ofDescription quad).toOption.getD default

/-- The machine with two words of four bytes is accepted. -/
theorem ofDescription_quad : Machine.ofDescription quad = .ok quadMachine :=
  rfl

end RegisterColoring
