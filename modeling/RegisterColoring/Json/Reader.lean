import RegisterColoring.Json.Record

/-! # Reading JSON text

A strict reader: one value, with nothing but blanks around it; no comments, no comma before a closing
bracket, no leading zeros, no raw control characters in strings and no escapes but the standard ones.

* `Json.Reader.number`, `Json.Reader.string`: the leaves.
* `Json.Reader.value`: a value and the text behind it. The bound on its recursion is computed from the
  length of the text in `Json.Reader.document`.
* `Json.parse?`, `Json.parse`: the value that a whole text spells, and what a reader makes of it. -/

namespace RegisterColoring

namespace Json

namespace Reader

/-! ## Blanks -/

/-- Space, tab, line feed and carriage return. -/
def isBlank (c : Char) : Bool :=
  c == ' ' || c == '\t' || c == '\n' || c == '\r'

/-- The text from its first character that is not blank. -/
def skipBlanks (cs : List Char) : List Char :=
  cs.dropWhile isBlank

/-! ## Numbers -/

/-- A run of digits and the text behind it; there must be at least one. -/
def digits? (cs : List Char) : Option (List Char × List Char) :=
  match cs.takeWhile Char.isDigit with
  | [] => none
  | run => some (run, cs.dropWhile Char.isDigit)

/-- The digits before the point: a zero alone, or a run that does not start with zero. -/
def integerPart? (cs : List Char) : Option (List Char × List Char) := do
  let (run, rest) ← digits? cs
  if run.length > 1 && run.head? == some '0' then none else some (run, rest)

/-- The point and the digits behind it, if there is a point. -/
def fraction? : List Char → Option (List Char × List Char)
  | '.' :: cs => do
    let (run, rest) ← digits? cs
    return ('.' :: run, rest)
  | cs => some ([], cs)

/-- The mark of an exponent, its sign and its digits, if there is such a mark. -/
def exponent? : List Char → Option (List Char × List Char)
  | c :: cs =>
    if c == 'e' || c == 'E' then
      let (sign, cs) :=
        match cs with
        | '+' :: rest => (['+'], rest)
        | '-' :: rest => (['-'], rest)
        | rest => ([], rest)
      do
        let (run, rest) ← digits? cs
        return (c :: sign ++ run, rest)
    else some ([], c :: cs)
  | [] => some ([], [])

/-- A number and the text behind it. -/
def number (cs : List Char) : Option (Json × List Char) := do
  let (sign, cs) :=
    match cs with
    | '-' :: rest => (['-'], rest)
    | rest => ([], rest)
  let (whole, cs) ← integerPart? cs
  let (fraction, cs) ← fraction? cs
  let (exponent, cs) ← exponent? cs
  return (.number (String.ofList (sign ++ whole ++ fraction ++ exponent)), cs)

/-! ## Strings -/

/-- The value of a hexadecimal digit. -/
def hexValue? (c : Char) : Option Nat :=
  if '0' ≤ c ∧ c ≤ '9' then some (c.toNat - '0'.toNat)
  else if 'a' ≤ c ∧ c ≤ 'f' then some (c.toNat - 'a'.toNat + 10)
  else if 'A' ≤ c ∧ c ≤ 'F' then some (c.toNat - 'A'.toNat + 10)
  else none

/-- The value of four hexadecimal digits. -/
def hexWord? (a b c d : Char) : Option Nat := do
  let a ← hexValue? a
  let b ← hexValue? b
  let c ← hexValue? c
  let d ← hexValue? d
  return ((a * 16 + b) * 16 + c) * 16 + d

/-- What a backslash before the character stands for. -/
def escaped? (c : Char) : Option Char :=
  if c == '"' then some '"'
  else if c == '\\' then some '\\'
  else if c == '/' then some '/'
  else if c == 'b' then some '\x08'
  else if c == 'f' then some '\x0c'
  else if c == 'n' then some '\n'
  else if c == 'r' then some '\r'
  else if c == 't' then some '\t'
  else none

/-- Whether a code is the first half of a surrogate pair. -/
def isHighHalf (code : Nat) : Bool :=
  0xd800 ≤ code && code < 0xdc00

/-- Whether a code is the second half of a surrogate pair. -/
def isLowHalf (code : Nat) : Bool :=
  0xdc00 ≤ code && code < 0xe000

/-- The character that the two halves of a surrogate pair spell. -/
def joinHalves (high low : Nat) : Char :=
  Char.ofNat (0x10000 + (high - 0xd800) * 0x400 + (low - 0xdc00))

/-- One piece of a string: a character, or the 16-bit code of a `u` escape. -/
inductive Piece where
  /-- A character that stands for itself or is named by a short escape. -/
  | char (c : Char)
  /-- The code of an escape with four hexadecimal digits. -/
  | code (unit : Nat)
  deriving Repr, DecidableEq

/-- The pieces of a string behind its opening quote, up to and with its closing quote. -/
def pieces : List Char → Option (List Piece × List Char)
  | [] => none
  | '"' :: rest => some ([], rest)
  | '\\' :: 'u' :: a :: b :: c :: d :: rest => do
    let code ← hexWord? a b c d
    let (ps, rest) ← pieces rest
    return (.code code :: ps, rest)
  | '\\' :: c :: rest => do
    let e ← escaped? c
    let (ps, rest) ← pieces rest
    return (.char e :: ps, rest)
  | c :: rest =>
    if c.toNat < 0x20 then none
    else do
      let (ps, rest) ← pieces rest
      return (.char c :: ps, rest)

/-- The characters that some pieces spell; none when half of a surrogate pair stands alone. -/
def spell : List Piece → Option (List Char)
  | [] => some []
  | .char c :: ps => (spell ps).map (c :: ·)
  | .code high :: .code low :: ps =>
    if isHighHalf high then
      if isLowHalf low then (spell ps).map (joinHalves high low :: ·) else none
    else if isLowHalf high then none
    else (spell (.code low :: ps)).map (Char.ofNat high :: ·)
  | .code unit :: ps =>
    if isHighHalf unit || isLowHalf unit then none else (spell ps).map (Char.ofNat unit :: ·)

/-- A string behind its opening quote. -/
def string (cs : List Char) : Option JsonString :=
  (pieces cs).map fun (ps, rest) => ⟨(spell ps).map String.ofList, rest⟩

/-! ## Values -/

mutual

/-- A value, after blanks, and the text behind it if all of it could be read. -/
def value : Nat → List Char → Json × Option (List Char)
  | 0, _ => (.broken, none)
  | depth + 1, cs =>
    match skipBlanks cs with
    | 'n' :: 'u' :: 'l' :: 'l' :: rest => (.null, some rest)
    | 't' :: 'r' :: 'u' :: 'e' :: rest => (.bool true, some rest)
    | 'f' :: 'a' :: 'l' :: 's' :: 'e' :: rest => (.bool false, some rest)
    | '"' :: rest =>
      match string rest with
      | some s => (.string s, some s.behind)
      | none => (.broken, none)
    | '[' :: rest =>
      match skipBlanks rest with
      | ']' :: rest => (.array [] true, some rest)
      | rest =>
        let (vs, rest) := items depth rest
        (.array vs rest.isSome, rest)
    | '\x7b' :: rest =>
      match skipBlanks rest with
      | '\x7d' :: rest => (.object [] true, some rest)
      | rest =>
        let (ms, rest) := members depth rest
        (.object ms rest.isSome, rest)
    | rest =>
      match number rest with
      | some (v, rest) => (v, some rest)
      | none => (.broken, none)

/-- The items of an array that has some, and the text behind its closing bracket. -/
def items : Nat → List Char → List Json × Option (List Char)
  | 0, _ => ([], none)
  | depth + 1, cs =>
    match value depth cs with
    | (v, none) => ([v], none)
    | (v, some rest) =>
      match skipBlanks rest with
      | ',' :: rest =>
        let (vs, rest) := items depth rest
        (v :: vs, rest)
      | ']' :: rest => ([v], some rest)
      | _ => ([v], none)

/-- The members of an object that has some, and the text behind its closing brace. -/
def members : Nat → List Char → List (JsonString × Json) × Option (List Char)
  | 0, _ => ([], none)
  | depth + 1, cs =>
    match skipBlanks cs with
    | '"' :: rest =>
      match string rest with
      | none => ([], none)
      | some name =>
        match skipBlanks name.behind with
        | ':' :: rest =>
          match value depth rest with
          | (v, none) => ([(name, v)], none)
          | (v, some rest) =>
            match skipBlanks rest with
            | ',' :: rest =>
              let (ms, rest) := members depth rest
              ((name, v) :: ms, rest)
            | '\x7d' :: rest => ([(name, v)], some rest)
            | _ => ([(name, v)], none)
        | _ => ([(name, .broken)], none)
    | _ => ([], none)

end

/-- The value that a text starts with, and whether it is all that the text spells. Each step down takes
a character or leads to one that does, so twice the length of the text bounds the recursion. -/
def document (text : String) : Json × Bool :=
  let cs := text.toList
  let (v, rest) := value (2 * cs.length + 2) cs
  (v, rest.any fun rest => (skipBlanks rest).isEmpty)

end Reader

/-- The value that a text spells, if it spells exactly one. -/
def parse? (text : String) : Option Json :=
  match Reader.document text with
  | (v, true) => some v
  | (_, false) => none

/-- What a reader makes of the value that a text spells. What the reader finds wrong stands before
anything that is wrong behind the value. -/
def parse {α : Type} (read : Json → Except Misread α) (text : String) : Except Misread α := do
  let (v, whole) := Reader.document text
  let a ← read v
  if whole then return a else throw .form

end Json

end RegisterColoring
