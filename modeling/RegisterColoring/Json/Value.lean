/-! # JSON values

What a JSON text spells, as far as it can be read. Numbers are kept as they are written, so that `1` and
`1.0` stay apart. An object keeps all its members in the order of the text, repeated names included.
What stands before a mistake in the text is kept as well, so that whoever asks for a value of some form
finds the first thing in the text that is wrong, be it the text or the form.

* `JsonString`, `Json`: strings and values.
* `Json.string?`, `bool?`, `below?`: reading one value as text, as a truth value, as a number.
* `Json.isWhole`: whether there is no mistake in the text of a value. -/

namespace RegisterColoring

/-- A string of a JSON text. -/
structure JsonString where
  /-- What it spells. It spells nothing when one of its escapes names half of a surrogate pair and the
  other half does not follow: such a string can be passed over but not read. -/
  text : Option String
  /-- The text behind its closing quote. -/
  behind : List Char
  deriving DecidableEq, Repr, Inhabited

/-- A JSON value. -/
inductive Json where
  /-- The value `null`. -/
  | null
  /-- A truth value. -/
  | bool (value : Bool)
  /-- A number, as it is written. -/
  | number (literal : String)
  /-- A string. -/
  | string (value : JsonString)
  /-- An array: its items, and whether all of it could be read. If not, the mistake is in the last of
  these items or behind it. -/
  | array (items : List Json) (closed : Bool)
  /-- An object: names with their values, and whether all of it could be read. If not, the mistake is in
  the last of these members or behind it. -/
  | object (members : List (JsonString × Json)) (closed : Bool)
  /-- What stands here is no value. -/
  | broken
  deriving Repr, Inhabited

namespace Json

/-- Whether all of a value could be read. -/
def isWhole : Json → Bool
  | .array _ closed => closed
  | .object _ closed => closed
  | .broken => false
  | _ => true

/-- The text of a readable string. -/
def string? : Json → Option String
  | .string value => value.text
  | _ => none

/-- The truth value. -/
def bool? : Json → Option Bool
  | .bool value => some value
  | _ => none

/-- The number that a run of decimal digits spells. -/
def digitsValue (digits : List Char) : Nat :=
  digits.foldl (fun n c => 10 * n + (c.toNat - '0'.toNat)) 0

/-- The value of a number that is written with digits alone and is below the bound. -/
def below? (bound : Nat) : Json → Option Nat
  | .number literal =>
    let digits := literal.toList
    if digits.all Char.isDigit && digitsValue digits < bound then some (digitsValue digits) else none
  | _ => none

/-- The value of the first member of that name. -/
def lookup (members : List (JsonString × Json)) (name : String) : Option Json :=
  (members.find? fun member => member.1.text == some name).map Prod.snd

end Json

end RegisterColoring
