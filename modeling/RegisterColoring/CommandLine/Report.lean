import RegisterColoring.CommandLine.Folder
import RegisterColoring.CommandLine.Options
import RegisterColoring.Legality
import RegisterColoring.Machine.Builtin
import RegisterColoring.Narrative
import RegisterColoring.Program.Description

/-! # Reports

Load the machine, allocate every input, and put the listings together. What goes wrong with one input
does not keep the others from being allocated.

* `Failure`: what can go wrong, and the wording of it.
* `listInput`: the listing of one input, and what there is to say about it.
* `Report.ofOptions`: the report on all inputs, given how files are read.
* `Folder.process`: the same in a folder, with the listing written to it. -/

namespace RegisterColoring

/-- What can go wrong with the machine or with an input. -/
inductive Failure where
  /-- A file cannot be read. -/
  | unreadable (path : String) (cause : FileError)
  /-- The text of a file is no description. -/
  | malformed (path text : String) (cause : Misread)
  /-- There is no such built-in target. -/
  | noSuchTarget (target : String)
  /-- A machine description is refused. -/
  | machine (cause : MachineDefect)
  /-- A program description is refused. -/
  | input (cause : ProgramDefect)
  /-- The allocation fails. -/
  | alloc (cause : AllocationError)
  /-- The allocation does not keep the rules. -/
  | illegal (violations : List Violation)
  /-- A program refers to something that it does not have. -/
  | fault (cause : Fault)
  deriving DecidableEq, Repr

namespace Failure

/-- The wording of an error. -/
def message : Failure → String
  | unreadable path cause => "failed to read `" ++ path ++ "`: " ++ cause.message
  | malformed path text cause => "`" ++ path ++ "` is not valid: " ++ cause.message text
  | noSuchTarget target => "unknown built-in target `" ++ target ++ "`"
  | machine cause => cause.message
  | input cause => cause.message
  | alloc cause => cause.message
  | illegal violations => Violation.report violations
  | fault cause => (AllocationError.fault cause).message

end Failure

/-- How files are read. -/
abbrev Reading := String → Except FileError String

/-- What came of a piece of work, and what there is to say about it, in order. -/
structure Reported (α : Type) where
  /-- What there is to say. -/
  diagnostics : List Diagnostic
  /-- What came of it. -/
  result : Except Failure α

namespace Reported

/-- Go on with the result, if there is one. -/
def andThen {α β : Type} (r : Reported α) (next : α → Reported β) : Reported β :=
  match r.result with
  | .ok a => ⟨r.diagnostics ++ (next a).diagnostics, (next a).result⟩
  | .error e => ⟨r.diagnostics, .error e⟩

/-- A result with the log entries that it comes with. -/
def logged {α : Type} (entries : List LogEntry) (result : Except Failure α) : Reported α :=
  ⟨entries.map .log, result⟩

end Reported

/-! ## Machine -/

/-- The text of a file. -/
def readFile (read : Reading) (path : String) : Except Failure String :=
  match read path with
  | .ok text => .ok text
  | .error cause => .error (.unreadable path cause)

/-- The machine of a description file. -/
def machineOfFile (read : Reading) (path : String) : Except Failure Machine := do
  let text ← readFile read path
  let description ← (MachineDescription.parse text).mapError (.malformed path text)
  (Machine.ofDescription description).mapError .machine

/-- A built-in machine. -/
def machineOfTarget (target : String) : Except Failure Machine :=
  match Builtin.machine? target with
  | none => .error (.noSuchTarget target)
  | some machine => machine.mapError .machine

/-- The machine to allocate for. A machine from a file is logged; a built-in one is not. -/
def machineFor (read : Reading) (o : Options) : Reported Machine :=
  match o.machine with
  | some path =>
    let machine := machineOfFile read path
    .logged (match machine with | .ok m => m.narrate | .error _ => []) machine
  | none => .logged [] (machineOfTarget o.target)

/-! ## Inputs -/

/-- The part that reports on inputs. -/
def reportTarget : String := "gcra_lib::driver"

/-- The program of a description file. -/
def programFor (read : Reading) (m : Machine) (path : String) : Reported Program :=
  let program : Except Failure Program := do
    let text ← readFile read path
    let description ← (ProgramDescription.parse text).mapError (.malformed path text)
    (Program.ofDescription m description).mapError .input
  .logged (match program with | .ok p => p.narrate | .error _ => []) program

/-- A program and its allocation. -/
structure Allocated where
  /-- The program that the allocation left. -/
  program : Program
  /-- The allocation. -/
  allocation : Allocation
  deriving Repr

/-- Allocate a program and check the allocation if that is asked for. -/
def allocateProgram (m : Machine) (o : Options) (p : Program) : Reported Allocated :=
  let run := allocate m o.settings p
  let allocated : Except Failure Allocated := do
    let allocation ← run.allocation.mapError .alloc
    if o.verify then
      let vs ← (checkLegal m run.program allocation.locations).mapError .fault
      if !vs.isEmpty then
        throw (.illegal vs)
    return ⟨run.program, allocation⟩
  .logged (run.narrate m) allocated

/-- The listing of an allocation under the name of its input, with a warning if it broke linkages. -/
def listAllocation (m : Machine) (o : Options) (path : String) (a : Allocated) : Reported String :=
  let broken := a.program.linkagesBroken.length
  let attempts := a.allocation.attempts.length
  let warnings :=
    if broken = 0 then []
    else [Diagnostic.warning path s!"{broken} linkages broken after {attempts} attempts"]
  let tallies := if o.stats then a.allocation.tallyText else ""
  ⟨warnings,
    ((a.allocation.listing m a.program).mapError Failure.fault).map fun listing =>
      "; " ++ path ++ "\n" ++ tallies ++ listing⟩

/-- The listing of one input. -/
def listInput (read : Reading) (m : Machine) (o : Options) (path : String) : Reported String :=
  let started : Reported Unit :=
    .logged [⟨.info, reportTarget, "allocating " ++ path⟩] (.ok ())
  started.andThen fun _ =>
    (programFor read m path).andThen fun p =>
      (allocateProgram m o p).andThen (listAllocation m o path)

/-! ## The report -/

/-- What all inputs come to. -/
structure Report where
  /-- What there is to say, in order. -/
  diagnostics : List Diagnostic
  /-- The listings of all inputs; without a machine there is none. -/
  listing : Option String
  /-- Whether everything went well. -/
  ok : Bool
  deriving Repr

/-- Allocate the inputs one after the other. -/
def listInputs (read : Reading) (m : Machine) (o : Options) : List String → Report
  | [] => ⟨[], some "", true⟩
  | path :: rest =>
    let r := listInput read m o path
    let later := listInputs read m o rest
    match r.result with
    | .ok text => ⟨r.diagnostics ++ later.diagnostics, later.listing.map (text ++ ·), later.ok⟩
    | .error e =>
      ⟨r.diagnostics ++ .error path e.message :: later.diagnostics, later.listing, false⟩

/-- Load the machine and allocate all inputs. -/
def Report.ofOptions (read : Reading) (o : Options) : Report :=
  let started := Diagnostic.log ⟨.info, reportTarget, "driver started"⟩
  let loaded := machineFor read o
  match loaded.result with
  | .error e =>
    let context := o.machine.getD o.target
    ⟨started :: loaded.diagnostics ++ [.error context e.message], none, false⟩
  | .ok m =>
    let r := listInputs read m o o.input
    { r with diagnostics := started :: loaded.diagnostics ++ r.diagnostics }

/-- What all inputs in a folder come to. -/
structure FolderReport where
  /-- What there is to say, in order. -/
  diagnostics : List Diagnostic
  /-- What is written to the standard output. -/
  stdout : String
  /-- The folder afterwards. -/
  folder : Folder
  /-- Whether everything went well. -/
  ok : Bool
  deriving Repr

/-- Report on files of a folder, and write the listing to the folder or to the standard output. -/
def Folder.process (folder : Folder) (o : Options) : FolderReport :=
  let r := Report.ofOptions folder.read o
  match r.listing, o.output with
  | none, _ => ⟨r.diagnostics, "", folder, r.ok⟩
  | some listing, none => ⟨r.diagnostics, listing, folder, r.ok⟩
  | some listing, some path =>
    match folder.write path listing with
    | .ok folder => ⟨r.diagnostics, "", folder, r.ok⟩
    | .error e => ⟨r.diagnostics ++ [.error path e.message], "", folder, false⟩

end RegisterColoring
