import RegisterColoring.Json.Reader
import RegisterColoring.Machine.Basic
import RegisterColoring.Program.Basic

/-! # Program descriptions

A program as it is written down: functions and classes by name, and linkages by the positions of the
uses they join.

* `ProgramDescription`: the written form.
* `ProgramDescription.parse`: reading it from JSON text.
* `ProgramDefect`: why a description is refused, and the wording of it.
* `Program.ofDescription`: the program of a description on a machine, or the first defect. -/

namespace RegisterColoring

/-- A use as it is written down. -/
structure UseDecl where
  /-- The name of the function it is in. -/
  function : String
  /-- What it stands for. -/
  kind : UseKind
  /-- The operation, function or block that it belongs to. -/
  operation : Nat
  /-- The name of the class it asks for. -/
  class? : Option String := none
  /-- How many registers it needs. -/
  registers : Nat := 1
  /-- The block it is in. -/
  block : Option Nat := none
  /-- Its place within the block. -/
  offset : Option Nat := none
  deriving DecidableEq, Repr

/-- A program as it is written down. -/
structure ProgramDescription where
  /-- The names of the functions. -/
  functions : List String
  /-- The uses. -/
  uses : List UseDecl
  /-- The linkages, by the positions of the uses they join. -/
  linkages : List (Nat × Nat) := []
  deriving DecidableEq, Repr

namespace UseKind

/-- Read a kind by its name. -/
def ofJson : Json → Except Misread UseKind :=
  Json.oneOf (all.map fun k => (k.name, k))

end UseKind

namespace UseDecl

/-- How a use is read. -/
def record : Json.Record UseDecl :=
  mk <$> .required "function" Json.text
    <*> .required "kind" UseKind.ofJson
    <*> .required "ref_id" Json.word32
    <*> .optional "class" Json.text
    <*> .defaulted "registers" 1 Json.word32
    <*> .optional "block" Json.word32
    <*> .optional "position" Json.word32

end UseDecl

namespace ProgramDescription

/-- How a description is read. -/
def record : Json.Record ProgramDescription :=
  mk <$> .required "functions" (Json.list Json.text)
    <*> .required "uses" (Json.list UseDecl.record.read)
    <*> .defaulted "linkages" [] (Json.list (Json.pair Json.word64))

/-- Read a description from JSON text. -/
def parse (text : String) : Except Misread ProgramDescription :=
  Json.parse record.read text

end ProgramDescription

/-! ## Resolving names -/

/-- The number by which what stands at a place is known. Numbers have 32 binary digits, so that a place past the
first `2 ^ 32` is known by the number of an earlier one. -/
def numberAt (place : Nat) : Nat :=
  place % 0x100000000

/-- Why a program description is refused. -/
inductive ProgramDefect where
  /-- A use names a function that is not declared. -/
  | undeclaredFunction (index : Nat) (function : String)
  /-- A use names a class that the machine does not have. -/
  | undeclaredClass (index : Nat) (className : String)
  /-- A use needs no registers. -/
  | needsNoRegisters (index : Nat)
  /-- A linkage names a use that is not there. -/
  | absentUse (index target : Nat)
  /-- A linkage joins a use with itself. -/
  | joinsItself (index : Nat)
  deriving DecidableEq, Repr

namespace ProgramDefect

/-- The wording of a defect. -/
def message : ProgramDefect → String
  | undeclaredFunction index function => s!"use {index}: unknown function `{function}`"
  | undeclaredClass index className => s!"use {index}: unknown register class `{className}`"
  | needsNoRegisters index => s!"use {index}: register count must be at least 1"
  | absentUse index target => s!"linkage {index}: use {target} does not exist"
  | joinsItself index => s!"linkage {index} links a use to itself"

end ProgramDefect

namespace UseDecl

/-- Where the use is: known only when both its block and its place in it are given. -/
def position? (d : UseDecl) : Option Position := do
  return ⟨← d.block, ← d.offset⟩

/-- The use with its names resolved; `index` is its position. A repeated function name means the first
function of that name. -/
def toUse (m : Machine) (functions : List String) (index : Nat) (d : UseDecl) :
    Except ProgramDefect Use := do
  let function ← match functions.findIdx? (· == d.function) with
    | some place => pure (numberAt place)
    | none => throw (.undeclaredFunction index d.function)
  if d.registers = 0 then
    throw (.needsNoRegisters index)
  let class? ← match d.class? with
    | none => pure none
    | some name =>
      match m.classNamed? name with
      | some c => pure (some c)
      | none => throw (.undeclaredClass index name)
  return {
    function
    kind := d.kind
    operation := d.operation
    class?
    registers := d.registers
    position := d.position? }

end UseDecl

/-- The linkage of two uses out of `count`; `index` is its position. Whether the uses are there and differ is told by
their places. -/
def linkageOf (count index : Nat) (ends : Nat × Nat) : Except ProgramDefect Linkage := do
  if count ≤ ends.1 then
    throw (.absentUse index ends.1)
  if count ≤ ends.2 then
    throw (.absentUse index ends.2)
  if ends.1 = ends.2 then
    throw (.joinsItself index)
  return { first := numberAt ends.1, second := numberAt ends.2 }

namespace Program

/-- The program of a description on a machine, or the first defect of the description. -/
def ofDescription (m : Machine) (d : ProgramDescription) : Except ProgramDefect Program := do
  let uses ← d.uses.zipIdx.mapM fun (use, i) => use.toUse m d.functions i
  let linkages ← d.linkages.zipIdx.mapM fun (ends, i) => linkageOf d.uses.length i ends
  return {
    functions := d.functions.toArray
    uses := uses.toArray
    linkages := linkages.toArray }

end Program

end RegisterColoring
