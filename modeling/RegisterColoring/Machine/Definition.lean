import RegisterColoring.Machine.Basic
import RegisterColoring.Machine.Description

/-! # From a description to a machine

A description is accepted when its names are declared, once each, no class is empty, and the alias sets
of any two classes nest or are disjoint. Sharing storage is reflexive and symmetric: a register aliases
itself, those it names, and those that name it.

* `MachineDefect`: why a description is refused, and the wording of it.
* `Machine.ofDescription`: the machine of a description, or the first defect. -/

namespace RegisterColoring

/-- Why a machine description is refused. -/
inductive MachineDefect where
  /-- The machine of that name has no registers. -/
  | lacksRegisters (machine : String)
  /-- A register name is declared a second time. -/
  | repeatedRegister (register : String)
  /-- A class name is declared a second time. -/
  | repeatedClass (className : String)
  /-- A register or class names a register that is not declared. -/
  | undeclaredRegister (owner register : String)
  /-- A class has no registers. -/
  | vacantClass (className : String)
  /-- A class has registers of size zero. -/
  | sizelessClass (className : String)
  /-- The alias sets of two classes overlap without nesting. -/
  | overlappingClasses (first second : String)
  deriving DecidableEq, Repr

namespace MachineDefect

/-- The wording of a defect. -/
def message : MachineDefect → String
  | lacksRegisters machine => s!"machine `{machine}` declares no registers"
  | repeatedRegister register => s!"register `{register}` is declared twice"
  | repeatedClass className => s!"register class `{className}` is declared twice"
  | undeclaredRegister owner register =>
    s!"`{owner}` names register `{register}`, which is not declared"
  | vacantClass className => s!"register class `{className}` has no registers"
  | sizelessClass className => s!"register class `{className}` has a register size of 0"
  | overlappingClasses first second =>
    s!"register classes `{first}` and `{second}` partially overlap; alias sets must nest or be disjoint"

end MachineDefect

namespace MachineDescription

/-! ## Names -/

/-- The first name that occurs a second time, reading from the left. -/
def firstRepeat? : List String → List String → Option String
  | _, [] => none
  | seen, name :: names =>
    if seen.contains name then some name else firstRepeat? (name :: seen) names

/-- The position of the register of that name; `owner` is the one who names it. -/
def registerNumber (d : MachineDescription) (owner name : String) :
    Except MachineDefect RegisterId :=
  match d.registers.findIdx? fun r => r.name == name with
  | some r => .ok r
  | none => .error (.undeclaredRegister owner name)

/-! ## Registers -/

/-- For each register, the positions of the registers that it names. -/
def declaredAliases (d : MachineDescription) : Except MachineDefect (Array (List RegisterId)) := do
  return (← d.registers.mapM fun r => r.aliases.mapM (d.registerNumber r.name)).toArray

/-- Every register that is named, after the one that names it, in the order of the declarations. -/
def namedPairs (declared : Array (List RegisterId)) : List (RegisterId × RegisterId) :=
  declared.toList.zipIdx.flatMap fun (named, r) => named.map fun q => (r, q)

/-- Enter each of two registers among those that share storage with the other. -/
def enterPair (aliases : Array RegisterSet) (pair : RegisterId × RegisterId) : Array RegisterSet :=
  (aliases.modify pair.1 fun s => s.insert pair.2).modify pair.2 fun s => s.insert pair.1

/-- For each register, those that share storage with it. At first that is the register alone, and each one that is
named is entered both ways. -/
def aliasSets (declared : Array (List RegisterId)) : Array RegisterSet :=
  (namedPairs declared).foldl enterPair
    ((List.range declared.size).map fun r => .ofList declared.size [r]).toArray

/-- The registers of the machine. -/
def machineRegisters (d : MachineDescription) (declared : Array (List RegisterId)) : Array Register :=
  let aliases := aliasSets declared
  (d.registers.zipIdx.map fun (decl, r) => ⟨decl.name, aliases.getD r default⟩).toArray

/-! ## Classes -/

/-- A class of the machine, if its declaration has no defect and none of the `earlier` ones has its
name. -/
def machineClass (d : MachineDescription) (registers : Array Register) (earlier : List ClassDecl)
    (c : ClassDecl) : Except MachineDefect RegisterClass := do
  if earlier.any fun e => e.name == c.name then
    throw (.repeatedClass c.name)
  if c.registers.isEmpty then
    throw (.vacantClass c.name)
  if c.registerSize = 0 then
    throw (.sizelessClass c.name)
  let members ← c.registers.mapM (d.registerNumber c.name)
  let set := RegisterSet.ofList registers.size members
  let aliases := set.toList.foldl
    (fun found r => found.union (registers.getD r default).aliases) (.empty registers.size)
  return ⟨c.name, c.registerSize, set, aliases⟩

/-- The classes of the machine, or the first defect among them. -/
def machineClasses (d : MachineDescription) (registers : Array Register) :
    Except MachineDefect (List RegisterClass) :=
  d.classes.zipIdx.mapM fun (c, i) => d.machineClass registers (d.classes.take i) c

end MachineDescription

/-! ## Laminarity -/

/-- Whether two sets nest or are disjoint. -/
def RegisterSet.laminar (s t : RegisterSet) : Bool :=
  s.isSubset t || t.isSubset s || s.isDisjoint t

/-- All pairs of an element and a later one, in order. -/
def orderedPairs {α : Type} : List α → List (α × α)
  | [] => []
  | a :: l => l.map (fun b => (a, b)) ++ orderedPairs l

/-- The first two classes whose alias sets neither nest nor are disjoint. -/
def firstOverlap? (classes : List RegisterClass) : Option (RegisterClass × RegisterClass) :=
  (orderedPairs classes).find? fun (a, b) => !a.aliases.laminar b.aliases

/-! ## The machine -/

/-- For classes `n` and `c`, how many registers of `n` registers of `c` can block. A register of `c`
blocks the members of `n` that it shares storage with. -/
def coverageOf (registers : Array Register) (n c : RegisterClass) : CoverageRow :=
  CoverageRow.ofShares registers.size
    (c.members.toList.map fun r => (registers.getD r default).aliases.inter n.members)
    (n.members.inter c.aliases).card

namespace Machine

/-- The machine of a description, or the first defect of the description. -/
def ofDescription (d : MachineDescription) : Except MachineDefect Machine := do
  if d.registers.isEmpty then
    throw (.lacksRegisters d.name)
  if let some name := MachineDescription.firstRepeat? [] (d.registers.map (·.name)) then
    throw (.repeatedRegister name)
  let declared ← d.declaredAliases
  let registers := d.machineRegisters declared
  let classes ← d.machineClasses registers
  if let some (a, b) := firstOverlap? classes then
    throw (.overlappingClasses a.name b.name)
  return {
    name := d.name
    registers
    classes := classes.toArray
    forest := .ofSets (classes.map (·.aliases))
    coverage :=
      (classes.map fun n => (classes.map fun c => coverageOf registers n c).toArray).toArray }

end Machine

end RegisterColoring
