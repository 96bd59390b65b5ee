import RegisterColoring.Json.Reader

/-! # Machine descriptions

What is written down of a target: its registers, the registers each shares storage with, and its
register classes, everything by name.

* `MachineDescription`: the written form.
* `MachineDescription.parse`: reading it from JSON text. -/

namespace RegisterColoring

/-- A declared register. -/
structure RegisterDecl where
  /-- The name of the register. -/
  name : String
  /-- Names of registers that it shares storage with. -/
  aliases : List String := []
  deriving DecidableEq, Repr

/-- A declared register class. -/
structure ClassDecl where
  /-- The name of the class. -/
  name : String
  /-- The size of its registers. -/
  registerSize : Nat := 1
  /-- Names of its registers. -/
  registers : List String
  deriving DecidableEq, Repr

/-- A target as it is written down. -/
structure MachineDescription where
  /-- The name of the target. -/
  name : String
  /-- Its registers, in declaration order. -/
  registers : List RegisterDecl
  /-- Its register classes, in declaration order. -/
  classes : List ClassDecl
  deriving DecidableEq, Repr

namespace RegisterDecl

/-- How a register is read; without `aliases` it shares storage with none. -/
def record : Json.Record RegisterDecl :=
  mk <$> .required "name" Json.text
    <*> .defaulted "aliases" [] (Json.list Json.text)

end RegisterDecl

namespace ClassDecl

/-- How a class is read; without `register_size` its registers have size 1. -/
def record : Json.Record ClassDecl :=
  mk <$> .required "name" Json.text
    <*> .defaulted "register_size" 1 Json.word32
    <*> .required "registers" (Json.list Json.text)

end ClassDecl

namespace MachineDescription

/-- How a description is read. -/
def record : Json.Record MachineDescription :=
  mk <$> .required "name" Json.text
    <*> .required "registers" (Json.list RegisterDecl.record.read)
    <*> .required "classes" (Json.list ClassDecl.record.read)

/-- Read a description from JSON text. -/
def parse (text : String) : Except Misread MachineDescription :=
  Json.parse record.read text

end MachineDescription

end RegisterColoring
