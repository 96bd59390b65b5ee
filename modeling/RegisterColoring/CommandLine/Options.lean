import RegisterColoring.Allocation.Basic
import RegisterColoring.Json.Value

/-! # The command line

The words of a command line are options, flags and input files. A long option takes its value behind an
equals sign or as the next word, a short one also right behind its letter; short flags can be written
together; behind `--` every word is an input. A word that starts with a dash is never taken as the value
of the option before it, a lone dash excepted.

* `Options`: what a command line asks for.
* `UsageError`: why it is refused, or that it only asks for help or for the version.
* `Options.parse`: reading the words. Unknown words are refused where they stand; what is missing,
  repeated or of the wrong form is found at the end, in the order in which the options first occur. -/

namespace RegisterColoring

/-- What a command line asks for. -/
structure Options where
  /-- The program descriptions to allocate. -/
  input : List String
  /-- The file to write the listing to, instead of the standard output. -/
  output : Option String := none
  /-- The machine description to allocate for. -/
  machine : Option String := none
  /-- The built-in target to allocate for when there is no machine description. -/
  target : String := "avr"
  /-- The settings of the allocation. -/
  settings : Settings := {}
  /-- Whether to print the counters of every attempt. -/
  stats : Bool := false
  /-- Whether to check every allocation before it is printed. -/
  verify : Bool := false
  /-- How much to log. -/
  verbose : Nat := 0
  deriving Repr, DecidableEq

/-- Why a command line is not run. -/
inductive UsageError where
  /-- There is no input. -/
  | missingInput
  /-- There is no such option. -/
  | unknownArgument
  /-- An option has no value. -/
  | emptyValue
  /-- An option has a value that is not among its choices. -/
  | invalidValue
  /-- An option has a value of the wrong form. -/
  | malformedValue
  /-- An option or flag that stands once is repeated. -/
  | repeated
  /-- A flag has a value. -/
  | tooManyValues
  /-- It asks for help. -/
  | help
  /-- It asks for the version. -/
  | version
  deriving DecidableEq, Repr

namespace Options

/-! ## Arguments -/

/-- What a word of the command line can be about. -/
inductive Arg where
  /-- An input file. -/
  | input
  /-- The output file. -/
  | output
  /-- The machine description. -/
  | machine
  /-- The built-in target. -/
  | target
  /-- The most attempts. -/
  | maxAttempts
  /-- Move what does not fit to memory. -/
  | spillUnallocatable
  /-- Print counters. -/
  | stats
  /-- Check allocations. -/
  | verify
  /-- Log more. -/
  | verbose
  deriving DecidableEq, Repr

/-- What the name of an option or flag stands for. -/
inductive Named where
  /-- One of the arguments. -/
  | arg (a : Arg)
  /-- A request for help. -/
  | help
  /-- A request for the version. -/
  | version
  deriving DecidableEq, Repr

namespace Arg

/-- Whether the argument comes with a value. -/
def takesValue : Arg → Bool
  | input | output | machine | target | maxAttempts => true
  | spillUnallocatable | stats | verify | verbose => false

/-- Whether the argument may occur more than once. -/
def mayRepeat : Arg → Bool
  | input | verbose => true
  | _ => false

end Arg

/-- What a long name stands for. -/
def longName? (name : String) : Option Named :=
  [("output", Named.arg .output), ("machine", .arg .machine), ("target", .arg .target),
    ("max-attempts", .arg .maxAttempts), ("spill-unallocatable", .arg .spillUnallocatable),
    ("stats", .arg .stats), ("verify", .arg .verify), ("verbose", .arg .verbose),
    ("help", .help), ("version", .version)].lookup name

/-- What a short name stands for. -/
def shortName? (c : Char) : Option Named :=
  [('o', Named.arg .output), ('v', .arg .verbose), ('h', .help), ('V', .version)].lookup c

/-! ## Scanning -/

/-- An argument that has occurred. -/
structure Match where
  /-- The argument. -/
  arg : Arg
  /-- How often it has occurred. -/
  occurrences : Nat
  /-- The values it was given, in order. -/
  values : List String
  deriving Repr, DecidableEq

/-- How far the words have been read. -/
structure Scan where
  /-- The arguments that have occurred, in the order of their first occurrence. -/
  found : List Match := []
  /-- The option whose value has to be the next word. -/
  pending : Option Arg := none
  /-- Whether only inputs follow. -/
  trailing : Bool := false
  deriving Repr, DecidableEq

namespace Scan

/-- Change what is known of an argument, which is new when it has not occurred before. -/
def update (s : Scan) (a : Arg) (f : Match → Match) : Scan :=
  if s.found.any fun m => m.arg == a then
    { s with found := s.found.map fun m => if m.arg = a then f m else m }
  else { s with found := s.found ++ [f ⟨a, 0, []⟩] }

/-- One more occurrence of an argument. -/
def occur (s : Scan) (a : Arg) : Scan :=
  s.update a fun m => { m with occurrences := m.occurrences + 1 }

/-- One more value for an argument. -/
def addValue (s : Scan) (a : Arg) (value : String) : Scan :=
  s.update a fun m => { m with values := m.values ++ [value] }

/-- One more input. -/
def addInput (s : Scan) (word : String) : Scan :=
  { (s.occur .input).addValue .input word with pending := none }

/-- A flag. -/
def flag (s : Scan) (a : Arg) : Scan :=
  { s.occur a with pending := none }

/-- An option, with the value attached to it or with its value to come. -/
def option (s : Scan) (a : Arg) : Option String → Scan
  | some value => { (s.occur a).addValue a value with pending := none }
  | none => { s.occur a with pending := some a }

end Scan

/-- The text without the equals sign at its start, if it has one. -/
def dropEquals : List Char → List Char
  | '=' :: rest => rest
  | cs => cs

/-- Read a word behind its two dashes. -/
def scanLong (s : Scan) (word : List Char) : Except UsageError Scan :=
  let name := String.ofList (word.takeWhile (· != '='))
  let attached := match word.dropWhile (· != '=') with
    | [] => none
    | rest => some (String.ofList (dropEquals rest))
  match longName? name, attached with
  | none, _ => .error .unknownArgument
  | some .help, none => .error .help
  | some .version, none => .error .version
  | some .help, some _ => .error .tooManyValues
  | some .version, some _ => .error .tooManyValues
  | some (.arg a), attached =>
    if a.takesValue then .ok (s.option a attached)
    else if attached.isSome then .error .tooManyValues
    else .ok (s.flag a)

/-- Read the letters behind one dash: flags, until an option takes the rest as its value. -/
def scanShort (s : Scan) : List Char → Except UsageError Scan
  | [] => .ok s
  | c :: rest =>
    match shortName? c with
    | none => .error .unknownArgument
    | some .help => .error .help
    | some .version => .error .version
    | some (.arg a) =>
      if a.takesValue then
        .ok (s.option a (if rest.isEmpty then none else some (String.ofList (dropEquals rest))))
      else scanShort (s.flag a) rest

/-- Read one word. -/
def scanWord (s : Scan) (word : String) : Except UsageError Scan :=
  if s.trailing then .ok (s.addInput word)
  else
    match word.toList with
    | ['-', '-'] => .ok { s with trailing := true }
    | '-' :: '-' :: long => scanLong s long
    | '-' :: c :: short => scanShort s (c :: short)
    | _ =>
      match s.pending with
      | some a => .ok { s.addValue a word with pending := none }
      | none => .ok (s.addInput word)

/-! ## Checking -/

/-- An unsigned number of 32 bits: digits, with or without a plus sign. -/
def word32? (text : String) : Option Nat :=
  let digits := match text.toList with
    | '+' :: rest => rest
    | cs => cs
  if !digits.isEmpty && digits.all Char.isDigit && Json.digitsValue digits < 0x100000000 then
    some (Json.digitsValue digits)
  else none

/-- Check one value of an argument. -/
def checkValue (a : Arg) (value : String) : Except UsageError Unit :=
  match a with
  | .target => if value = "avr" then .ok () else .error .invalidValue
  | .maxAttempts => if (word32? value).isSome then .ok () else .error .malformedValue
  | _ => .ok ()

/-- Check one argument: that it has a value if it takes one, its values, and how often it occurs. -/
def checkMatch (m : Match) : Except UsageError Unit := do
  if m.arg.takesValue && m.values.isEmpty then
    throw .emptyValue
  m.values.forM (checkValue m.arg)
  if m.occurrences > 1 && !m.arg.mayRepeat then
    throw .repeated

/-- The values that an argument was given. -/
def Scan.valuesOf (s : Scan) (a : Arg) : List String :=
  match s.found.find? fun m => m.arg == a with
  | some m => m.values
  | none => []

/-- How often an argument has occurred. -/
def Scan.count (s : Scan) (a : Arg) : Nat :=
  match s.found.find? fun m => m.arg == a with
  | some m => m.occurrences
  | none => 0

/-- Check all arguments. -/
def check (s : Scan) : Except UsageError Unit := do
  if (s.valuesOf .input).isEmpty then
    throw .missingInput
  if let some a := s.pending then
    if (s.valuesOf a).isEmpty then
      throw .emptyValue
  s.found.forM checkMatch

/-- The options that the words of a command line spell. -/
def parse (words : List String) : Except UsageError Options := do
  let s ← words.foldlM scanWord {}
  check s
  return {
    input := s.valuesOf .input
    output := (s.valuesOf .output).head?
    machine := (s.valuesOf .machine).head?
    target := ((s.valuesOf .target).head?).getD "avr"
    settings := {
      maxAttempts := ((s.valuesOf .maxAttempts).head?).bind word32?
      spillUnallocatable := s.count .spillUnallocatable > 0 }
    stats := s.count .stats > 0
    verify := s.count .verify > 0
    verbose := s.count .verbose }

end Options

end RegisterColoring
