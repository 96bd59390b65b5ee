/-! # Logging

What a run has to say besides its result, by how much detail it goes into.

* `Level`: how important an entry is.
* `LogEntry`: an entry, with the part of the program that it comes from.
* `Diagnostic`: a log entry, an error or a warning, and the line it is shown as. -/

namespace RegisterColoring

/-- How important a log entry is. -/
inductive Level where
  /-- Something is wrong. -/
  | error
  /-- Something may be wrong. -/
  | warn
  /-- What is being done. -/
  | info
  /-- How it is being done. -/
  | debug
  /-- Every step of it. -/
  | trace
  deriving DecidableEq, Repr

namespace Level

/-- The name of a level. -/
def name : Level → String
  | error => "ERROR"
  | warn => "WARN"
  | info => "INFO"
  | debug => "DEBUG"
  | trace => "TRACE"

/-- The place of a level, most important first. -/
def rank : Level → Nat
  | error => 1
  | warn => 2
  | info => 3
  | debug => 4
  | trace => 5

/-- The least important level that is shown, by how often more detail was asked for. -/
def ofVerbosity : Nat → Level
  | 0 => warn
  | 1 => info
  | 2 => debug
  | _ => trace

end Level

/-- Something to be logged. -/
structure LogEntry where
  /-- How important it is. -/
  level : Level
  /-- The part of the program that it comes from. -/
  target : String
  /-- What it says. -/
  message : String
  deriving DecidableEq, Repr

/-- A line for whoever runs the program. -/
inductive Diagnostic where
  /-- A log entry. -/
  | log (entry : LogEntry)
  /-- An error, and what it is about. -/
  | error (context message : String)
  /-- A warning, and what it is about. -/
  | warning (context message : String)
  deriving DecidableEq, Repr

/-- A colour of the terminal. -/
inductive Color where
  /-- For errors. -/
  | red
  /-- For warnings. -/
  | purple
  /-- For information. -/
  | blue
  deriving DecidableEq, Repr

namespace Color

/-- The number of a colour. -/
def code : Color → String
  | red => "31"
  | purple => "35"
  | blue => "34"

/-- The sequence that ends all colours. -/
def reset : String :=
  "\x1b[0m"

/-- The sequence that starts a colour. -/
def start (c : Color) : String :=
  "\x1b[" ++ c.code ++ "m"

/-- Text in a colour, if colours are wanted. Where the text itself ends all colours, the colour starts
again. -/
def paint (colors : Bool) (c : Color) (s : String) : String :=
  if colors then c.start ++ (reset ++ c.start).intercalate (s.splitOn reset) ++ reset else s

end Color

namespace LogEntry

/-- The colour of an entry. -/
def color? (e : LogEntry) : Option Color :=
  match e.level with
  | .error => some .red
  | .warn => some .purple
  | .info => some .blue
  | _ => none

/-- The line of an entry. -/
def line (colors : Bool) (e : LogEntry) : String :=
  let text := e.level.name ++ " - " ++ e.target ++ " - " ++ e.message
  match e.color? with
  | some c => c.paint colors text
  | none => text

end LogEntry

namespace Diagnostic

/-- Whether a diagnostic is shown down to a level; errors and warnings always are. -/
def isShown (level : Level) : Diagnostic → Bool
  | log e => e.level.rank ≤ level.rank
  | _ => true

/-- The line of a diagnostic. -/
def line (colors : Bool) : Diagnostic → String
  | log e => e.line colors
  | error context message => context ++ ": error: " ++ Color.red.paint colors message
  | warning context message => context ++ ": warning: " ++ Color.purple.paint colors message

/-- The lines of the diagnostics that are shown down to a level. -/
def lines (colors : Bool) (level : Level) (ds : List Diagnostic) : List String :=
  (ds.filter (isShown level)).map (line colors)

end Diagnostic

end RegisterColoring
