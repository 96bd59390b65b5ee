import Mathlib.Data.List.Pairwise
import RegisterColoring.Proofs.Machine

/-! # Which descriptions are accepted

What a description has to satisfy, said of its names alone: no numbers, sets or tables. A description is
accepted if and only if it satisfies this, and the machine then has the registers and classes that it names.

* `MachineDescription.Shares`: sharing storage, as the least reflexive and symmetric relation that holds
  between a register and those that it lists.
* `MachineDescription.Valid`: the condition, which can be decided.
* `Machine.Realizes`: a machine has what a description says.
* `ofDescription_eq_ok_iff_valid`: the descriptions that satisfy the condition are those that are accepted,
  and their machines realize them. -/

namespace RegisterColoring

namespace RegisterSet

/-- A set nests in itself. -/
theorem laminar_self (s : RegisterSet) : s.laminar s = true := by
  simp [laminar, isSubset_iff]

/-- Whether two sets nest or are disjoint does not depend on their order. -/
theorem laminar_symm {s t : RegisterSet} (h : s.laminar t = true) : t.laminar s = true := by
  simp only [laminar, Bool.or_eq_true, isDisjoint_iff] at h ⊢
  rcases h with (hst | hts) | hdisjoint
  · exact .inl (.inr hst)
  · exact .inl (.inl hts)
  · exact .inr fun r hr hr' => hdisjoint r hr' hr

end RegisterSet

namespace MachineDescription

/-! ## The condition -/

/-- The names of the registers, in declaration order. -/
def registerNames (d : MachineDescription) : List String :=
  d.registers.map (·.name)

/-- Whether a register of the first name lists the second one. -/
def Lists (d : MachineDescription) (a b : String) : Prop :=
  ∃ r ∈ d.registers, r.name = a ∧ b ∈ r.aliases

/-- Whether registers of these names share storage: they are the same, or one of them lists the other. -/
def Shares (d : MachineDescription) (a b : String) : Prop :=
  a = b ∨ d.Lists a b ∨ d.Lists b a

/-- Whether a register of that name shares storage with one of the class. -/
def Touches (d : MachineDescription) (c : ClassDecl) (b : String) : Prop :=
  ∃ a ∈ c.registers, d.Shares a b

/-- Whether the registers that share storage with one class and those that do with another nest or are
disjoint. -/
def Laminar (d : MachineDescription) (c e : ClassDecl) : Prop :=
  (∀ b ∈ d.registerNames, d.Touches c b → d.Touches e b) ∨
    (∀ b ∈ d.registerNames, d.Touches e b → d.Touches c b) ∨
    ∀ b ∈ d.registerNames, d.Touches c b → ¬ d.Touches e b

/-- What a description has to satisfy. -/
structure Valid (d : MachineDescription) : Prop where
  /-- There are registers. -/
  registers_ne_nil : d.registers ≠ []
  /-- No two registers have one name. -/
  nodup_registers : d.registerNames.Nodup
  /-- Registers list declared registers. -/
  aliases_declared : ∀ r ∈ d.registers, ∀ a ∈ r.aliases, a ∈ d.registerNames
  /-- No two classes have one name. -/
  nodup_classes : (d.classes.map (·.name)).Nodup
  /-- Every class has registers. -/
  class_ne_nil : ∀ c ∈ d.classes, c.registers ≠ []
  /-- The registers of a class have a size. -/
  registerSize_ne_zero : ∀ c ∈ d.classes, c.registerSize ≠ 0
  /-- Classes have declared registers. -/
  members_declared : ∀ c ∈ d.classes, ∀ a ∈ c.registers, a ∈ d.registerNames
  /-- What any two classes touch nests or is disjoint. -/
  laminar : ∀ c ∈ d.classes, ∀ e ∈ d.classes, d.Laminar c e

instance (d : MachineDescription) (a b : String) : Decidable (d.Lists a b) :=
  inferInstanceAs (Decidable (∃ r ∈ d.registers, _))

instance (d : MachineDescription) (a b : String) : Decidable (d.Shares a b) :=
  inferInstanceAs (Decidable (_ ∨ _))

instance (d : MachineDescription) (c : ClassDecl) (b : String) : Decidable (d.Touches c b) :=
  inferInstanceAs (Decidable (∃ a ∈ c.registers, _))

instance (d : MachineDescription) (c e : ClassDecl) : Decidable (d.Laminar c e) :=
  inferInstanceAs (Decidable (_ ∨ _))

instance (d : MachineDescription) : Decidable d.Valid :=
  decidable_of_iff
    (d.registers ≠ [] ∧ d.registerNames.Nodup ∧
      (∀ r ∈ d.registers, ∀ a ∈ r.aliases, a ∈ d.registerNames) ∧
      (d.classes.map (·.name)).Nodup ∧ (∀ c ∈ d.classes, c.registers ≠ []) ∧
      (∀ c ∈ d.classes, c.registerSize ≠ 0) ∧
      (∀ c ∈ d.classes, ∀ a ∈ c.registers, a ∈ d.registerNames) ∧
      ∀ c ∈ d.classes, ∀ e ∈ d.classes, d.Laminar c e)
    ⟨fun ⟨h₁, h₂, h₃, h₄, h₅, h₆, h₇, h₈⟩ => ⟨h₁, h₂, h₃, h₄, h₅, h₆, h₇, h₈⟩,
      fun ⟨h₁, h₂, h₃, h₄, h₅, h₆, h₇, h₈⟩ => ⟨h₁, h₂, h₃, h₄, h₅, h₆, h₇, h₈⟩⟩

/-! ## Names -/

variable {d : MachineDescription}

/-- No name occurs a second time exactly if the names are distinct and none has been seen. -/
theorem firstRepeat?_eq_none_iff {seen names : List String} :
    firstRepeat? seen names = none ↔ names.Nodup ∧ ∀ name ∈ names, name ∉ seen := by
  induction names generalizing seen with
  | nil => simp [firstRepeat?]
  | cons name names ih =>
    rw [firstRepeat?]
    split
    · rename_i hseen
      have hmem := List.contains_iff_mem.mp hseen
      simp [hmem]
    · rename_i hseen
      have hmem : name ∉ seen := mt List.contains_iff_mem.mpr hseen
      rw [ih]
      simp only [List.nodup_cons, List.mem_cons, not_or, forall_eq_or_imp]
      constructor
      · rintro ⟨hnodup, hnames⟩
        exact ⟨⟨fun h => (hnames name h).1 rfl, hnodup⟩, hmem, fun x hx => (hnames x hx).2⟩
      · rintro ⟨⟨hname, hnodup⟩, -, hnames⟩
        exact ⟨hnodup, fun x hx => ⟨fun h => hname (h ▸ hx), hnames x hx⟩⟩

/-- A name has a number exactly if it is declared. -/
theorem exists_registerNumber_iff (owner : String) {name : String} :
    (∃ r, d.registerNumber owner name = .ok r) ↔ name ∈ d.registerNames := by
  rw [registerNumber, registerNames, List.mem_map]
  split
  · rename_i r hfound
    obtain ⟨hlt, hname, -⟩ := List.findIdx?_eq_some_iff_getElem.mp hfound
    exact iff_of_true ⟨r, rfl⟩ ⟨_, List.getElem_mem hlt, beq_iff_eq.mp hname⟩
  · rename_i hnone
    refine iff_of_false (by rintro ⟨r, hr⟩; cases hr) ?_
    rintro ⟨r, hr, rfl⟩
    have := List.findIdx?_eq_none_iff.mp hnone r hr
    simp at this

/-- Distinct names have one place each. -/
theorem place_inj (hnodup : d.registerNames.Nodup) {r q : RegisterId} {name : String}
    (hr : d.registerNames[r]? = some name) (hq : d.registerNames[q]? = some name) : r = q := by
  obtain ⟨hlt, -⟩ := List.getElem?_eq_some_iff.mp hr
  exact (List.getElem?_inj hlt hnodup).mp (hr.trans hq.symm)

/-- The number of a name is its place among the names. -/
theorem registerNumber_eq_ok_iff (hnodup : d.registerNames.Nodup) {owner name : String}
    {r : RegisterId} : d.registerNumber owner name = .ok r ↔ d.registerNames[r]? = some name := by
  have place : ∀ {r}, d.registerNumber owner name = .ok r → d.registerNames[r]? = some name := by
    intro r h
    rw [registerNumber] at h
    split at h
    · rename_i hfound
      cases h
      obtain ⟨hlt, hname, -⟩ := List.findIdx?_eq_some_iff_getElem.mp hfound
      rw [registerNames, List.getElem?_map, List.getElem?_eq_getElem hlt, Option.map_some,
        beq_iff_eq.mp hname]
    · cases h
  refine ⟨place, fun h => ?_⟩
  obtain ⟨q, hq⟩ := (exists_registerNumber_iff owner).mpr (List.mem_of_getElem? h)
  -- a name that is declared once has one place
  rw [place_inj hnodup h (place hq), hq]

/-! ## Registers -/

section

variable {declared : Array (List RegisterId)} {r q : RegisterId} {a b : String}

/-- The name at a place is that of the declaration there. -/
theorem getElem?_registerNames {decl : RegisterDecl} (h : d.registers[r]? = some decl) :
    d.registerNames[r]? = some decl.name := by
  rw [registerNames, List.getElem?_map, h, Option.map_some]

/-- A register lists what its declaration lists. -/
theorem lists_iff (hnodup : d.registerNames.Nodup) {decl : RegisterDecl}
    (hr : d.registers[r]? = some decl) : d.Lists decl.name b ↔ b ∈ decl.aliases := by
  constructor
  · rintro ⟨other, hother, hnames, hb⟩
    obtain ⟨q, hq⟩ := List.mem_iff_getElem?.mp hother
    obtain rfl : q = r :=
      place_inj hnodup (getElem?_registerNames hq) (hnames ▸ getElem?_registerNames hr)
    rw [hr, Option.some.injEq] at hq
    exact hq ▸ hb
  · intro hb
    exact ⟨decl, List.mem_of_getElem? hr, rfl, hb⟩

/-- The numbers that a register lists are those of the names in its declaration. -/
theorem mem_declaredAliases (hnodup : d.registerNames.Nodup) (h : d.declaredAliases = .ok declared)
    (hr : d.registerNames[r]? = some a) :
    q ∈ declared.getD r [] ↔ ∃ b, d.registerNames[q]? = some b ∧ d.Lists a b := by
  obtain ⟨lists, hlists, h⟩ := bind_eq_ok.mp h
  cases h
  rw [registerNames, List.getElem?_map, Option.map_eq_some_iff] at hr
  obtain ⟨decl, hdecl, rfl⟩ := hr
  obtain ⟨hlt, rfl⟩ := List.getElem?_eq_some_iff.mp hdecl
  have paired := forall₂_of_mapM_ok hlists
  have hlist := paired.get hlt (paired.length_eq ▸ hlt)
  simp only [List.get_eq_getElem] at hlist
  rw [Array.getD_eq_getD_getElem?, List.getElem?_toArray,
    List.getElem?_eq_getElem (paired.length_eq ▸ hlt), Option.getD_some]
  constructor
  · intro hq
    obtain ⟨b, hb, hnumber⟩ := exists_of_mem_mapM_ok hlist hq
    exact ⟨b, (registerNumber_eq_ok_iff hnodup).mp hnumber, (lists_iff hnodup hdecl).mpr hb⟩
  · rintro ⟨b, hplace, hb⟩
    obtain ⟨q', hq', hnumber⟩ := exists_mem_of_mapM_ok hlist ((lists_iff hnodup hdecl).mp hb)
    rwa [place_inj hnodup hplace ((registerNumber_eq_ok_iff hnodup).mp hnumber)]

/-- Registers share storage exactly if their names do. -/
theorem mem_aliases_machineRegisters (hnodup : d.registerNames.Nodup)
    (h : d.declaredAliases = .ok declared) :
    q ∈ ((d.machineRegisters declared).getD r default).aliases ↔
      ∃ a b, d.registerNames[r]? = some a ∧ d.registerNames[q]? = some b ∧ d.Shares a b := by
  have hsize := size_of_declaredAliases h
  have hlength : d.registerNames.length = declared.size := by
    rw [hsize, registerNames, List.length_map]
  have named : ∀ {r}, r < declared.size → ∃ a, d.registerNames[r]? = some a := fun hr =>
    ⟨_, List.getElem?_eq_getElem (hlength ▸ hr)⟩
  have lt_of_named : ∀ {r a}, d.registerNames[r]? = some a → r < declared.size := fun hr =>
    hlength ▸ (List.getElem?_eq_some_iff.mp hr).1
  rw [aliases_machineRegisters hsize, mem_aliasSets]
  constructor
  · rintro ⟨hr, hlt, hshares⟩
    obtain ⟨a, ha⟩ := named hr
    obtain ⟨b, hb⟩ := named hlt
    refine ⟨a, b, ha, hb, ?_⟩
    rcases hshares with rfl | hlisted | hlists
    · exact .inl (Option.some.inj (ha.symm.trans hb))
    · obtain ⟨b', hb', hlists⟩ := (mem_declaredAliases hnodup h ha).mp hlisted
      rw [hb, Option.some.injEq] at hb'
      exact .inr (.inl (hb' ▸ hlists))
    · obtain ⟨a', ha', hlists⟩ := (mem_declaredAliases hnodup h hb).mp hlists
      rw [ha, Option.some.injEq] at ha'
      exact .inr (.inr (ha' ▸ hlists))
  · rintro ⟨a, b, ha, hb, hshares⟩
    refine ⟨lt_of_named ha, lt_of_named hb, ?_⟩
    rcases hshares with rfl | hlists | hlists
    · exact .inl (place_inj hnodup hb ha)
    · exact .inr (.inl ((mem_declaredAliases hnodup h ha).mpr ⟨b, hb, hlists⟩))
    · exact .inr (.inr ((mem_declaredAliases hnodup h hb).mpr ⟨a, ha, hlists⟩))

/-- The names that registers list can be resolved exactly if they are declared. -/
theorem exists_declaredAliases_iff : (∃ declared, d.declaredAliases = .ok declared) ↔
    ∀ r ∈ d.registers, ∀ a ∈ r.aliases, a ∈ d.registerNames := by
  have resolved : (∃ declared, d.declaredAliases = .ok declared) ↔
      ∃ lists, d.registers.mapM (fun r => r.aliases.mapM (d.registerNumber r.name)) = .ok lists := by
    constructor
    · rintro ⟨declared, h⟩
      obtain ⟨lists, hlists, -⟩ := bind_eq_ok.mp h
      exact ⟨lists, hlists⟩
    · rintro ⟨lists, hlists⟩
      exact ⟨lists.toArray, bind_eq_ok.mpr ⟨lists, hlists, rfl⟩⟩
  simp only [resolved, exists_mapM_ok_iff, exists_registerNumber_iff]

end

/-! ## Classes -/

section

variable {declared : Array (List RegisterId)} {earlier : List ClassDecl} {c e : ClassDecl}
  {k l : RegisterClass} {r q : RegisterId}

/-- A class that is accepted has the registers whose names are in its declaration. -/
theorem mem_members_machineClass (hnodup : d.registerNames.Nodup)
    (hk : d.machineClass (d.machineRegisters declared) earlier c = .ok k) :
    r ∈ k.members ↔ ∃ a, d.registerNames[r]? = some a ∧ a ∈ c.registers := by
  obtain ⟨-, -, -, members, hmembers, -, -, hset, -⟩ := machineClass_eq_ok_iff.mp hk
  rw [hset, RegisterSet.mem_ofList, size_machineRegisters]
  constructor
  · rintro ⟨hr, -⟩
    obtain ⟨a, ha, hnumber⟩ := exists_of_mem_mapM_ok hmembers hr
    exact ⟨a, (registerNumber_eq_ok_iff hnodup).mp hnumber, ha⟩
  · rintro ⟨a, hplace, ha⟩
    obtain ⟨r', hr', hnumber⟩ := exists_mem_of_mapM_ok hmembers ha
    obtain rfl := place_inj hnodup hplace ((registerNumber_eq_ok_iff hnodup).mp hnumber)
    exact ⟨hr', lt_of_registerNumber hnumber⟩

/-- The alias set of a class that is accepted has the registers that the class touches. -/
theorem mem_aliases_machineClass (hnodup : d.registerNames.Nodup)
    (h : d.declaredAliases = .ok declared)
    (hk : d.machineClass (d.machineRegisters declared) earlier c = .ok k) :
    q ∈ k.aliases ↔ ∃ b, d.registerNames[q]? = some b ∧ d.Touches c b := by
  obtain ⟨-, -, -, members, hmembers, -, -, -, haliases⟩ := machineClass_eq_ok_iff.mp hk
  rw [haliases, RegisterSet.mem_foldl_union, size_machineRegisters]
  simp only [RegisterSet.not_mem_empty, RegisterSet.width_empty, false_or, RegisterSet.mem_toList,
    mem_members_machineClass hnodup hk, mem_aliases_machineRegisters hnodup h]
  constructor
  · rintro ⟨-, r, ⟨a, hr, ha⟩, a', b, hr', hq, hshares⟩
    rw [hr, Option.some.injEq] at hr'
    exact ⟨b, hq, a, ha, hr' ▸ hshares⟩
  · rintro ⟨b, hq, a, ha, hshares⟩
    obtain ⟨r, -, hnumber⟩ := exists_mem_of_mapM_ok hmembers ha
    have hr := (registerNumber_eq_ok_iff hnodup).mp hnumber
    refine ⟨?_, r, ⟨a, hr, ha⟩, a, b, hr, hq, hshares⟩
    have hlt := (List.getElem?_eq_some_iff.mp hq).1
    rwa [registerNames, List.length_map] at hlt

/-- The alias sets of two classes are laminar exactly if what the classes touch is. -/
theorem laminar_iff (hnodup : d.registerNames.Nodup) (h : d.declaredAliases = .ok declared)
    {earlier' : List ClassDecl} (hk : d.machineClass (d.machineRegisters declared) earlier c = .ok k)
    (hl : d.machineClass (d.machineRegisters declared) earlier' e = .ok l) :
    k.aliases.laminar l.aliases = true ↔ d.Laminar c e := by
  -- what is said of the registers in an alias set is said of the names that a class touches
  have names : ∀ {earlier c k} {P : String → Prop},
      d.machineClass (d.machineRegisters declared) earlier c = .ok k →
        ((∀ q, q ∈ k.aliases → ∃ b, d.registerNames[q]? = some b ∧ P b) ↔
          ∀ b ∈ d.registerNames, d.Touches c b → P b) := by
    intro earlier c k P hk
    constructor
    · intro hall b hb htouches
      obtain ⟨q, hq⟩ := List.mem_iff_getElem?.mp hb
      obtain ⟨b', hq', hP⟩ := hall q ((mem_aliases_machineClass hnodup h hk).mpr ⟨b, hq, htouches⟩)
      rw [hq, Option.some.injEq] at hq'
      exact hq' ▸ hP
    · intro hall q hq
      obtain ⟨b, hb, htouches⟩ := (mem_aliases_machineClass hnodup h hk).mp hq
      exact ⟨b, hb, hall b (List.mem_of_getElem? hb) htouches⟩
  have subset : ∀ {earlier c k earlier' e l},
      d.machineClass (d.machineRegisters declared) earlier c = .ok k →
      d.machineClass (d.machineRegisters declared) earlier' e = .ok l →
        (k.aliases.isSubset l.aliases = true ↔
          ∀ b ∈ d.registerNames, d.Touches c b → d.Touches e b) := by
    intro earlier c k earlier' e l hk hl
    rw [RegisterSet.isSubset_iff, ← names hk]
    simp only [mem_aliases_machineClass hnodup h hl]
  have disjoint : k.aliases.isDisjoint l.aliases = true ↔
      ∀ b ∈ d.registerNames, d.Touches c b → ¬ d.Touches e b := by
    rw [RegisterSet.isDisjoint_iff, ← names hk]
    refine forall₂_congr fun q hq => ?_
    obtain ⟨b, hb, -⟩ := (mem_aliases_machineClass hnodup h hk).mp hq
    rw [mem_aliases_machineClass hnodup h hl]
    simp [hb]
  rw [RegisterSet.laminar, Bool.or_eq_true, Bool.or_eq_true, subset hk hl, subset hl hk, disjoint,
    or_assoc, Laminar]

/-- A class is accepted exactly if no earlier one has its name, it has registers, all of them declared, and
the registers have a size. -/
theorem exists_machineClass_iff {registers : Array Register} :
    (∃ k, d.machineClass registers earlier c = .ok k) ↔
      (∀ e ∈ earlier, e.name ≠ c.name) ∧ c.registers ≠ [] ∧ c.registerSize ≠ 0 ∧
        ∀ a ∈ c.registers, a ∈ d.registerNames := by
  simp only [machineClass_eq_ok_iff, ← exists_registerNumber_iff c.name,
    ← exists_mapM_ok_iff]
  constructor
  · rintro ⟨k, hnew, hne, hsize, members, hmembers, -⟩
    exact ⟨hnew, hne, hsize, members, hmembers⟩
  · rintro ⟨hnew, hne, hsize, members, hmembers⟩
    let set := RegisterSet.ofList registers.size members
    let aliases : RegisterSet := set.toList.foldl
      (fun found r => found.union (registers.getD r default).aliases) (.empty registers.size)
    exact ⟨⟨c.name, c.registerSize, set, aliases⟩, hnew, hne, hsize, members, hmembers, rfl, rfl, rfl, rfl⟩

/-- The names of classes are distinct exactly if none is that of an earlier class. -/
theorem nodup_names_iff {classes : List ClassDecl} : (classes.map (·.name)).Nodup ↔
    ∀ i c, classes[i]? = some c → ∀ e ∈ classes.take i, e.name ≠ c.name := by
  rw [List.Nodup, List.pairwise_map, List.pairwise_iff_getElem]
  constructor
  · intro h i c hc e he
    obtain ⟨hi, rfl⟩ := List.getElem?_eq_some_iff.mp hc
    obtain ⟨j, hj, rfl⟩ := List.mem_take_iff_getElem.mp he
    exact h j i _ hi (by omega)
  · intro h i j hi hj hij
    exact h j _ (List.getElem?_eq_getElem hj) _ (List.mem_take_iff_getElem.mpr ⟨i, by omega, rfl⟩)

/-- All classes are accepted exactly if their names are distinct, each has registers, all of them declared,
and the registers have a size. -/
theorem exists_machineClasses_iff (registers : Array Register) :
    (∃ classes, d.machineClasses registers = .ok classes) ↔
      (d.classes.map (·.name)).Nodup ∧ ∀ c ∈ d.classes,
        c.registers ≠ [] ∧ c.registerSize ≠ 0 ∧ ∀ a ∈ c.registers, a ∈ d.registerNames := by
  rw [machineClasses, exists_mapM_ok_iff, nodup_names_iff]
  simp only [Prod.forall, List.mem_zipIdx_iff_getElem?, exists_machineClass_iff]
  constructor
  · intro h
    refine ⟨fun i c hc => (h c i hc).1, fun c hc => ?_⟩
    obtain ⟨i, hi⟩ := List.mem_iff_getElem?.mp hc
    exact (h c i hi).2
  · rintro ⟨hnames, hclasses⟩ c i hc
    exact ⟨hnames i c hc, hclasses c (List.mem_of_getElem? hc)⟩

/-- What holds of all pairs of an element and a later one. -/
theorem forall_mem_orderedPairs {α : Type} {R : α → α → Prop} {l : List α} :
    (∀ x ∈ orderedPairs l, R x.1 x.2) ↔ l.Pairwise R := by
  induction l with
  | nil => simp [orderedPairs]
  | cons a l ih =>
    simp only [orderedPairs, List.mem_append, List.mem_map, or_imp, forall_and, List.pairwise_cons, ih]
    simp

/-- No two classes overlap exactly if the alias sets of any two of them nest or are disjoint. -/
theorem firstOverlap?_eq_none_iff_laminar {classes : List RegisterClass} : firstOverlap? classes = none ↔
    ∀ k ∈ classes, ∀ l ∈ classes, k.aliases.laminar l.aliases = true := by
  have pairs : firstOverlap? classes = none ↔
      classes.Pairwise fun a b => a.aliases.laminar b.aliases = true := by
    rw [firstOverlap?, List.find?_eq_none, ← forall_mem_orderedPairs]
    simp
  rw [pairs]
  constructor
  · intro hpairwise k hk l hl
    have : Std.Symm fun k l : RegisterClass => k.aliases.laminar l.aliases = true :=
      ⟨fun _ _ => RegisterSet.laminar_symm⟩
    exact hpairwise.forall_of_forall (fun k _ => RegisterSet.laminar_self k.aliases) hk hl
  · exact fun hlaminar => List.pairwise_of_forall_mem_list hlaminar

/-- No two classes overlap exactly if what any two of them touch is laminar. -/
theorem firstOverlap?_eq_none_iff (hnodup : d.registerNames.Nodup)
    (h : d.declaredAliases = .ok declared) {classes : List RegisterClass}
    (hclasses : d.machineClasses (d.machineRegisters declared) = .ok classes) :
    firstOverlap? classes = none ↔ ∀ c ∈ d.classes, ∀ e ∈ d.classes, d.Laminar c e := by
  rw [firstOverlap?_eq_none_iff_laminar]
  constructor
  · intro hlaminar c hc e he
    have present : ∀ c ∈ d.classes, ∃ k ∈ classes, ∃ earlier,
        d.machineClass (d.machineRegisters declared) earlier c = .ok k := by
      intro c hc
      obtain ⟨i, hi⟩ := List.mem_iff_getElem?.mp hc
      obtain ⟨k, hk, hck⟩ := exists_mem_of_mapM_ok hclasses
        (List.mem_zipIdx_iff_getElem? (x := (c, i)).mpr hi)
      exact ⟨k, hk, _, hck⟩
    obtain ⟨k, hk, _, hck⟩ := present c hc
    obtain ⟨l, hl, _, hel⟩ := present e he
    exact (laminar_iff hnodup h hck hel).mp (hlaminar k hk l hl)
  · intro hlaminar k hk l hl
    have accepted : ∀ k ∈ classes, ∃ c ∈ d.classes, ∃ earlier,
        d.machineClass (d.machineRegisters declared) earlier c = .ok k := by
      intro k hk
      obtain ⟨⟨c, i⟩, hc, hk⟩ := exists_of_mem_mapM_ok hclasses hk
      exact ⟨c, List.mem_of_getElem? (List.mem_zipIdx_iff_getElem?.mp hc), _, hk⟩
    obtain ⟨c, hc, _, hck⟩ := accepted k hk
    obtain ⟨e, he, _, hel⟩ := accepted l hl
    exact (laminar_iff hnodup h hck hel).mpr (hlaminar c hc e he)

end

end MachineDescription

/-! ## Accepted descriptions -/

/-- The alias sets of any two classes of an accepted machine nest or are disjoint. -/
theorem Machine.laminar_of_ofDescription {d : MachineDescription} {m : Machine}
    (h : ofDescription d = .ok m) :
    ∀ k ∈ m.classes.toList, ∀ l ∈ m.classes.toList, k.aliases.laminar l.aliases = true := by
  obtain ⟨-, -, declared, classes, -, -, hoverlap, hm⟩ := ofDescription_eq_ok_iff.mp h
  rw [show m.classes.toList = classes by rw [hm]]
  exact MachineDescription.firstOverlap?_eq_none_iff_laminar.mp hoverlap

/-- Whether a machine has the registers and classes that a description names. -/
structure Machine.Realizes (m : Machine) (d : MachineDescription) : Prop where
  /-- The registers have the names of the declarations, in their order. -/
  registers_eq : m.registers.toList.map (·.name) = d.registerNames
  /-- Registers share storage exactly if their names do. -/
  mem_aliases : ∀ r q, q ∈ m.aliases r ↔
    ∃ a b, d.registerNames[r]? = some a ∧ d.registerNames[q]? = some b ∧ d.Shares a b
  /-- The classes have the names and register sizes of the declarations, in their order. -/
  classes_eq : m.classes.toList.map (fun k => (k.name, k.registerSize)) =
    d.classes.map fun c => (c.name, c.registerSize)
  /-- A class has the registers that its declaration names. -/
  mem_members : ∀ i c, d.classes[i]? = some c → ∀ r, r ∈ m.members i ↔
    ∃ a, d.registerNames[r]? = some a ∧ a ∈ c.registers
  /-- The alias set of a class has the registers that share storage with one of the class. -/
  mem_class_aliases : ∀ i q, q ∈ (m.classAt i).aliases ↔ ∃ r ∈ m.members i, q ∈ m.aliases r

/-- The machine of an accepted description realizes it. -/
theorem Machine.realizes_of_ofDescription {d : MachineDescription} {m : Machine}
    (h : Machine.ofDescription d = .ok m) : m.Realizes d := by
  obtain ⟨-, hrepeat, declared, classes, hdeclared, hclasses, -, hm⟩ :=
    Machine.ofDescription_eq_ok_iff.mp h
  have hnodup : d.registerNames.Nodup := (MachineDescription.firstRepeat?_eq_none_iff.mp hrepeat).1
  have paired := forall₂_of_mapM_ok hclasses
  have hlength : classes.length = d.classes.length := by rw [← paired.length_eq, List.length_zipIdx]
  -- the class at a place is that of the declaration there
  have classOf : ∀ i c, d.classes[i]? = some c → ∃ k, classes[i]? = some k ∧
      d.machineClass (d.machineRegisters declared) (d.classes.take i) c = .ok k := by
    intro i c hc
    obtain ⟨hi, rfl⟩ := List.getElem?_eq_some_iff.mp hc
    have hk := paired.get (by rwa [List.length_zipIdx]) (hlength ▸ hi)
    simp only [List.get_eq_getElem, List.getElem_zipIdx, Nat.zero_add] at hk
    exact ⟨_, List.getElem?_eq_getElem (hlength ▸ hi), hk⟩
  constructor
  · rw [hm, MachineDescription.machineRegisters, List.map_map, MachineDescription.registerNames]
    apply List.ext_getElem
    · simp
    · simp
  · intro r q
    rw [hm]
    exact MachineDescription.mem_aliases_machineRegisters hnodup hdeclared
  · rw [hm]
    refine List.ext_getElem? fun i => ?_
    rw [List.getElem?_map, List.getElem?_map]
    cases hc : d.classes[i]? with
    | none =>
      have hle := List.getElem?_eq_none_iff.mp hc
      rw [List.getElem?_eq_none (hlength ▸ hle)]
      rfl
    | some c =>
      obtain ⟨k, hk, haccepted⟩ := classOf i c hc
      obtain ⟨-, -, -, -, -, hname, hsize, -⟩ :=
        MachineDescription.machineClass_eq_ok_iff.mp haccepted
      rw [hk, Option.map_some, Option.map_some, hname, hsize]
  · intro i c hc r
    obtain ⟨k, hk, haccepted⟩ := classOf i c hc
    rw [← MachineDescription.mem_members_machineClass hnodup haccepted, hm, Machine.members,
      Machine.classAt, Array.getD_eq_getD_getElem?, List.getElem?_toArray, hk, Option.getD_some]
  · exact Machine.mem_class_aliases_of_ofDescription h

/-- A description is accepted if and only if it satisfies the condition on its names: it has a register,
names of registers and of classes are distinct, registers and classes name declared registers, every class
names one and has a register size, and what any two classes touch nests or is disjoint. The machine of an
accepted description has its registers and classes: registers share storage exactly if their names are the
same or one of them lists the other, a class has the registers that it names, and its alias set those that
share storage with one of them. -/
theorem ofDescription_eq_ok_iff_valid (d : MachineDescription) :
    ((∃ m, Machine.ofDescription d = .ok m) ↔ d.Valid) ∧
      ∀ m, Machine.ofDescription d = .ok m → m.Realizes d := by
  refine ⟨?_, fun m => Machine.realizes_of_ofDescription⟩
  simp only [Machine.ofDescription_eq_ok_iff]
  constructor
  · rintro ⟨m, hne, hrepeat, declared, classes, hdeclared, hclasses, hoverlap, -⟩
    have hnodup : d.registerNames.Nodup :=
      (MachineDescription.firstRepeat?_eq_none_iff.mp hrepeat).1
    obtain ⟨hnames, hall⟩ := (MachineDescription.exists_machineClasses_iff _).mp ⟨classes, hclasses⟩
    exact {
      registers_ne_nil := hne
      nodup_registers := hnodup
      aliases_declared := MachineDescription.exists_declaredAliases_iff.mp ⟨declared, hdeclared⟩
      nodup_classes := hnames
      class_ne_nil := fun c hc => (hall c hc).1
      registerSize_ne_zero := fun c hc => (hall c hc).2.1
      members_declared := fun c hc => (hall c hc).2.2
      laminar := (MachineDescription.firstOverlap?_eq_none_iff hnodup hdeclared hclasses).mp hoverlap }
  · intro hd
    have hrepeat : MachineDescription.firstRepeat? [] d.registerNames = none :=
      MachineDescription.firstRepeat?_eq_none_iff.mpr ⟨hd.nodup_registers, by simp⟩
    obtain ⟨declared, hdeclared⟩ :=
      MachineDescription.exists_declaredAliases_iff.mpr hd.aliases_declared
    obtain ⟨classes, hclasses⟩ :=
      (MachineDescription.exists_machineClasses_iff (d.machineRegisters declared)).mpr
        ⟨hd.nodup_classes, fun c hc => ⟨hd.class_ne_nil c hc, hd.registerSize_ne_zero c hc,
          hd.members_declared c hc⟩⟩
    exact ⟨_, hd.registers_ne_nil, hrepeat, declared, classes, hdeclared, hclasses,
      (MachineDescription.firstOverlap?_eq_none_iff hd.nodup_registers hdeclared hclasses).mpr
        hd.laminar, rfl⟩

/-- The description of a word of two bytes satisfies the condition, and its machine realizes it: the word
lists no register, but shares storage with the bytes that list it. A third class, of the first byte and a
register of its own, touches the bytes and the word without nesting, and is refused. -/
theorem ofDescription_eq_ok_iff_valid_bytePair :
    bytePair.Valid ∧ bytePairMachine.Realizes bytePair ∧ bytePair.Shares "w" "b" ∧
      ¬ bytePair.Lists "w" "b" ∧
      ¬ ∃ m, Machine.ofDescription
        ⟨"odd", bytePair.registers ++ [⟨"c", []⟩], bytePair.classes ++ [⟨"odd", 1, ["a", "c"]⟩]⟩ =
          .ok m := by
  obtain ⟨valid, realizes⟩ := ofDescription_eq_ok_iff_valid bytePair
  refine ⟨valid.mp ⟨_, ofDescription_bytePair⟩, realizes _ ofDescription_bytePair, by decide, by decide,
    ?_⟩
  rw [(ofDescription_eq_ok_iff_valid _).1]
  decide

end RegisterColoring
