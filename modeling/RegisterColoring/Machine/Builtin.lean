import RegisterColoring.Machine.Definition

/-! # Built-in targets

* `Builtin.avr`: 32 byte registers and the 16 even and odd pairs that overlay them.
* `Builtin.description?`, `Builtin.machine?`: the built-in targets by name. -/

namespace RegisterColoring

namespace Builtin

/-- The name of a byte register. -/
def byteName (i : Nat) : String :=
  s!"r{i}"

/-- The name of the pair of the byte registers `2 * i + 1` and `2 * i`. -/
def pairName (i : Nat) : String :=
  byteName (2 * i + 1) ++ ":" ++ byteName (2 * i)

/-- The names of `count` registers from the position `first`. -/
def namesFrom (name : Nat → String) (first count : Nat) : List String :=
  (List.range count).map fun i => name (first + i)

/-- The description of the AVR: bytes, pairs, and the classes its instructions ask for. -/
def avr : MachineDescription where
  name := "avr"
  registers :=
    (List.range 32).map (fun i => { name := byteName i }) ++
      (List.range 16).map fun i =>
        { name := pairName i, aliases := [byteName (2 * i), byteName (2 * i + 1)] }
  classes := [
    { name := "single", registerSize := 1, registers := namesFrom byteName 0 32 },
    { name := "pair", registerSize := 2, registers := namesFrom pairName 0 16 },
    { name := "immed", registerSize := 1, registers := namesFrom byteName 16 16 },
    { name := "immed_word", registerSize := 2, registers := namesFrom pairName 12 4 },
    { name := "index", registerSize := 2, registers := namesFrom pairName 13 3 },
    { name := "z", registerSize := 2, registers := namesFrom pairName 15 1 },
    { name := "mul_result", registerSize := 2, registers := namesFrom pairName 0 1 }]

/-- The built-in description of that name. -/
def description? (name : String) : Option MachineDescription :=
  if name = "avr" then some avr else none

/-- The built-in AVR, or the defect of its description. -/
def avrMachine : Except MachineDefect Machine :=
  Machine.ofDescription avr

/-- The built-in machine of that name. -/
def machine? (name : String) : Option (Except MachineDefect Machine) :=
  if name = "avr" then some avrMachine else none

end Builtin

end RegisterColoring
