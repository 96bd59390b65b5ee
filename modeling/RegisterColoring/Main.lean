import RegisterColoring.CommandLine.Report

/-! # The program

Reads the words of the command line and the files that they name, and writes the listing and what there is
to say about it. -/

namespace RegisterColoring

namespace Main

/-- How to use the program. -/
def usage : String :=
  "usage: [-o FILE] [--machine FILE] [--target avr] [--max-attempts N] [--spill-unallocatable] " ++
    "[--stats] [--verify] [-v]... INPUT..."

/-- What is wrong with a command line. -/
def complaint : UsageError → String
  | .missingInput => "no input is given"
  | .unknownArgument => "there is no such option"
  | .emptyValue => "an option has no value"
  | .invalidValue => "an option has a value that is not among its choices"
  | .malformedValue => "an option has a value of the wrong form"
  | .repeated => "an option is repeated"
  | .tooManyValues => "a flag has a value"
  | .help => "help is asked for"
  | .version => "the version is asked for"

/-- The reason that the system gives for refusing a file. -/
def reasonOf : IO.Error → FileError
  | .noFileOrDirectory _ _ _ => .notFound
  | .inappropriateType _ 20 _ => .notDirectory
  | .inappropriateType _ 21 _ => .isDirectory
  | e => .other (toString e)

/-- The text of a file, or why there is none. -/
def readText (path : String) : IO (Except FileError String) := do
  try
    return .ok (← IO.FS.readFile path)
  catch e =>
    return .error (reasonOf e)

/-- Write the listing of a report. The answer tells what went wrong. -/
def writeListing (o : Options) (listing : String) : IO (List Diagnostic) := do
  match o.output with
  | none =>
    IO.print listing
    return []
  | some path =>
    try
      IO.FS.writeFile path listing
      return []
    catch e =>
      return [.error path (reasonOf e).message]

/-- Report on the inputs of a command line. The answer tells whether everything went well. -/
def report (o : Options) : IO Bool := do
  let colors := (← IO.getEnv "CLICOLOR_FORCE").any (· != "0")
  let paths := o.machine.toList ++ o.input
  let files ← paths.mapM fun path => return (path, ← readText path)
  let r := Report.ofOptions (fun path => (files.lookup path).getD (.error .notFound)) o
  let unwritten ← match r.listing with
    | some listing => writeListing o listing
    | none => pure []
  for line in Diagnostic.lines colors (.ofVerbosity o.verbose) (r.diagnostics ++ unwritten) do
    IO.eprintln line
  return r.ok && unwritten.isEmpty

end Main

end RegisterColoring

open RegisterColoring in
/-- Run the program on the words of its command line. -/
def main (words : List String) : IO UInt32 := do
  match Options.parse words with
  | .ok o => return if ← Main.report o then 0 else 1
  | .error .help =>
    IO.println Main.usage
    return 0
  | .error .version =>
    IO.println "0.1.0"
    return 0
  | .error e =>
    IO.eprintln (Main.complaint e)
    IO.eprintln Main.usage
    return 2
