import RegisterColoring.Json.Value

/-! # Reading values of a given form

Lists, pairs, names and records. A reader looks at a value in the order of its text and gives up at the
first thing that is wrong.

* `Misread`: what is wrong, and the wording of it.
* `Json.text`, `word32`, `word64`, `list`, `pair`, `oneOf`: readers of single values and of lists.
* `Json.Record`: readers of records, put together field by field. A record is written as an object or
  as an array of its fields. -/

namespace RegisterColoring

/-- Why a value cannot be read. -/
inductive Misread where
  /-- The text has a mistake, or the value has another form. -/
  | form
  /-- A name stands where only some names may stand. -/
  | unknownName (name : String) (known : List String) (behind : List Char)
  deriving DecidableEq, Repr

namespace Misread

/-- The place in a text before what is still `behind`: the line, counted from one, and the number of bytes
of that line. -/
def place (text behind : List Char) : Nat × Nat :=
  let before := text.take (text.length - behind.length)
  let line := before.reverse.takeWhile (· != '\n')
  (before.countP (· == '\n') + 1, (line.map Char.utf8Size).foldr (· + ·) 0)

/-- The wording of what is wrong in a text. -/
def message (text : String) : Misread → String
  | form => "malformed description"
  | unknownName name known behind =>
    let (line, column) := place text.toList behind
    "unknown variant `" ++ name ++ "`, expected one of " ++
      ", ".intercalate (known.map fun k => "`" ++ k ++ "`") ++ s!" at line {line} column {column}"

end Misread

namespace Json

/-! ## Single values and lists -/

/-- What a partial reader makes of a value. -/
def expect {α : Type} (read? : Json → Option α) (v : Json) : Except Misread α :=
  (read? v).elim (.error .form) .ok

/-- A readable string. -/
def text : Json → Except Misread String := expect string?

/-- An unsigned number of 32 bits. -/
def word32 : Json → Except Misread Nat := expect (below? 0x100000000)

/-- An unsigned number of 64 bits. -/
def word64 : Json → Except Misread Nat := expect (below? 0x10000000000000000)

/-- An array, every item of which reads. -/
def list {α : Type} (item : Json → Except Misread α) : Json → Except Misread (List α)
  | .array items closed => do
    let read ← items.mapM item
    if closed then return read else throw .form
  | _ => .error .form

/-- An array of exactly two items. -/
def pair {α : Type} (item : Json → Except Misread α) : Json → Except Misread (α × α)
  | .array [a, b] true => do return (← item a, ← item b)
  | _ => .error .form

/-- What one of the `known` names stands for. -/
def named {α : Type} (known : List (String × α)) (name : JsonString) : Except Misread α :=
  match name.text with
  | none => .error .form
  | some text =>
    match known.lookup text with
    | some a => .ok a
    | none => .error (.unknownName text (known.map Prod.fst) name.behind)

/-- One of the `known` names, alone or as the name of the one member `null` of an object. -/
def oneOf {α : Type} (known : List (String × α)) : Json → Except Misread α
  | .string name => named known name
  | .object ((name, v) :: rest) closed => do
    let a ← named known name
    match v, rest, closed with
    | .null, [], true => return a
    | _, _, _ => throw .form
  | _ => .error .form

/-! ## Records -/

/-- A field of a record. -/
structure Field where
  /-- Its name. -/
  name : String
  /-- What is wrong with a value that stands in it. -/
  test : Json → Except Misread Unit

/-- How a record is read: its fields in order, and what is made of them once nothing is wrong with those
that are there. -/
structure Record (α : Type) where
  /-- The fields. -/
  fields : List Field
  /-- What is made of the values in the fields. -/
  build : (String → Option Json) → Except Misread α

namespace Record

instance : Applicative Record where
  pure a := ⟨[], fun _ => .ok a⟩
  seq f x := ⟨f.fields ++ (x ()).fields, fun field => do return (← f.build field) (← (x ()).build field)⟩

/-- One field. -/
def single {α : Type} (name : String) (absent : Except Misread α) (read : Json → Except Misread α) :
    Record α :=
  ⟨[⟨name, fun v => (read v).map fun _ => ()⟩], fun field => (field name).elim absent read⟩

/-- A field that must be there. -/
def required {α : Type} (name : String) (read : Json → Except Misread α) : Record α :=
  single name (.error .form) read

/-- A field that stands for a fixed value when it is left out. -/
def defaulted {α : Type} (name : String) (default : α) (read : Json → Except Misread α) : Record α :=
  single name (.ok default) read

/-- A field that may be left out or `null`. -/
def optional {α : Type} (name : String) (read : Json → Except Misread α) : Record (Option α) :=
  single name (.ok none) fun v =>
    match v with
    | .null => .ok none
    | v => (read v).map some

/-- The first thing that is wrong with the members of an object. Names that are no fields may stand
there too, but a field stands there only once; `seen` are the fields that did. -/
def testMembers (fields : List Field) : List String → List (JsonString × Json) → Except Misread Unit
  | _, [] => .ok ()
  | seen, (name, v) :: rest =>
    match name.text with
    | none => .error .form
    | some text =>
      match fields.find? (·.name == text) with
      | none => if v.isWhole then testMembers fields seen rest else .error .form
      | some field =>
        if seen.contains text then .error .form
        else do
          field.test v
          testMembers fields (text :: seen) rest

/-- The first thing that is wrong with the items of an array, which are the values of a leading part of
the fields. -/
def testItems : List Field → List Json → Except Misread Unit
  | _, [] => .ok ()
  | [], _ :: _ => .error .form
  | field :: fields, v :: rest => do
    field.test v
    testItems fields rest

/-- Read a record. -/
def read {α : Type} (r : Record α) : Json → Except Misread α
  | .object members closed => do
    testMembers r.fields [] members
    if closed then r.build (lookup members) else throw .form
  | .array items closed => do
    testItems r.fields items
    if closed then
      r.build fun name => ((r.fields.zip items).find? (·.1.name == name)).map Prod.snd
    else throw .form
  | _ => .error .form

end Record

end Json

end RegisterColoring
