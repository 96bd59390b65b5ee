import RegisterColoring.Text.Unprintable

/-! # Quoted text and lists

How messages show text and lists: text in double quotes with its quotes, its backslashes and what is not
shown escaped, lists in brackets with commas between the items.

* `Text.escape`, `Text.quoted`: one character escaped, and a whole text in quotes.
* `Text.bracketed`, `Text.tagged`: lists, and lists of numbers that each carry the name of what they
  count. -/

namespace RegisterColoring

namespace Text

/-- A hexadecimal number, in lower case. -/
def hex (n : Nat) : String :=
  String.ofList (Nat.toDigits 16 n)

/-- A character as it stands inside quotes: quotes and backslashes are escaped, and so is all that would
not be shown. -/
def escape (c : Char) : String :=
  if c == '"' then "\\\""
  else if c == '\\' then "\\\\"
  else if c == '\n' then "\\n"
  else if c == '\r' then "\\r"
  else if c == '\t' then "\\t"
  else if c == '\x00' then "\\0"
  else if isUnprintable c then "\\u\x7b" ++ hex c.toNat ++ "\x7d"
  else c.toString

/-- Text in double quotes. -/
def quoted (s : String) : String :=
  "\"" ++ String.join (s.toList.map escape) ++ "\""

/-- Items in brackets, with commas between them. -/
def bracketed (items : List String) : String :=
  "[" ++ ", ".intercalate items ++ "]"

/-- A number that carries the name of what it counts. -/
def tag (name : String) (n : Nat) : String :=
  name ++ "(" ++ toString n ++ ")"

/-- Numbers in brackets, each carrying the name of what it counts. -/
def tagged (name : String) (ns : List Nat) : String :=
  bracketed (ns.map (tag name))

end Text

end RegisterColoring
