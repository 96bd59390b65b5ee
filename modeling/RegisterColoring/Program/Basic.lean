import RegisterColoring.Grouping.Partition
import RegisterColoring.Machine.ClassForest

/-! # Programs

A program, as far as registers are concerned: the places that use registers, and the linkages that ask
two uses to hold the same registers. Allocation changes nothing of it but the state of its linkages and
which uses live in memory.

* `Use`, `Linkage`, `Program`: the parts.
* `LinkState`: a linkage is active, broken for the current attempt only, or broken for good.
* `Program.resetSplits`, `splitAll`, `breakAll`, `moveToMemory`: what allocation does to a program. -/

namespace RegisterColoring

/-- A function, by its position among the functions of its program. -/
abbrev FunctionId := Nat

/-- A linkage, by its position among the linkages of its program. -/
abbrev LinkageId := Nat

/-- What a use stands for in its function. -/
inductive UseKind where
  /-- The result of an operation. -/
  | tripleOutput
  /-- An operand of an operation. -/
  | operand
  /-- A register that an operation needs for itself. -/
  | temp
  /-- An argument on entry to a function. -/
  | function
  /-- The value that a function returns. -/
  | functionReturn
  /-- A value at the start of a block. -/
  | blockStart
  /-- A value at the end of a block. -/
  | blockEnd
  deriving DecidableEq, Repr

namespace UseKind

/-- All kinds. -/
def all : List UseKind :=
  [tripleOutput, operand, temp, function, functionReturn, blockStart, blockEnd]

/-- The written name of a kind. -/
def name : UseKind → String
  | tripleOutput => "triple-output"
  | operand => "operand"
  | temp => "temp"
  | function => "function"
  | functionReturn => "function-return"
  | blockStart => "block-start"
  | blockEnd => "block-end"

/-- The kind of that name. -/
def named? (name : String) : Option UseKind :=
  all.find? fun k => k.name == name

end UseKind

/-- A point in straight-line code. -/
structure Position where
  /-- The block. -/
  block : Nat
  /-- The place within the block. -/
  offset : Nat
  deriving DecidableEq, Repr

/-- A place that uses registers. -/
structure Use where
  /-- The function it is in. -/
  function : FunctionId
  /-- What it stands for. -/
  kind : UseKind
  /-- The operation, function or block that it belongs to. -/
  operation : Nat
  /-- The class that its registers must be in, if it asks for one. -/
  class? : Option ClassId := none
  /-- How many registers it needs. -/
  registers : Nat := 1
  /-- Where it is, if that is known. -/
  position : Option Position := none
  /-- Whether it lives in memory and takes no further part in allocation. -/
  inMemory : Bool := false
  deriving DecidableEq, Repr

/-- Whether two uses name the same slot of the same operation, and so cannot share a register. -/
def Use.sharesSlot (a b : Use) : Bool :=
  a.kind == b.kind && a.operation == b.operation

/-- Whether a linkage holds. -/
inductive LinkState where
  /-- Both ends are to hold the same registers. -/
  | active
  /-- Broken for the current attempt, because its ends conflict. -/
  | split
  /-- Broken for good, in the attempt of that number. -/
  | broken (attempt : Nat)
  deriving DecidableEq, Repr

namespace LinkState

/-- Whether the state is `active`. -/
def isActive : LinkState → Bool
  | active => true
  | _ => false

/-- Whether the linkage is broken for good. -/
def isBroken : LinkState → Bool
  | broken _ => true
  | _ => false

/-- The state in words. -/
def text : LinkState → String
  | active => "active"
  | split => "split"
  | broken attempt => s!"broken in attempt {attempt}"

/-- The state once the attempt is over: what was split is active again. -/
def reset : LinkState → LinkState
  | split => active
  | state => state

end LinkState

/-- A request that two uses hold the same registers. -/
structure Linkage where
  /-- One end. -/
  first : UseId
  /-- The other end. -/
  second : UseId
  /-- Whether it holds. -/
  state : LinkState := .active
  deriving DecidableEq, Repr

namespace Linkage

/-- Whether the linkage is active. -/
def isActive (l : Linkage) : Bool :=
  l.state.isActive

/-- Whether a use is an end of the linkage. -/
def endsAt (l : Linkage) (u : UseId) : Bool :=
  l.first == u || l.second == u

end Linkage

/-- The register uses and linkages of a program. -/
structure Program where
  /-- The names of the functions. -/
  functions : Array String := #[]
  /-- The uses. -/
  uses : Array Use := #[]
  /-- The linkages. -/
  linkages : Array Linkage := #[]
  deriving DecidableEq, Repr, Inhabited

/-- A reference to something that is not there, or a quantity too large to weigh. -/
inductive Fault where
  /-- A linkage names a use that is not there. -/
  | missingUse (use : UseId)
  /-- A use names a function that is not there. -/
  | missingFunction (function : FunctionId)
  /-- A use or linkage asks for the location of a use that has none. -/
  | missingLocation (use : UseId)
  /-- A list of groups names one that is not there. -/
  | missingGroup (group : Nat)
  /-- The weights of some linkages add up to more than 32 bits hold. -/
  | weightOverflow
  deriving DecidableEq, Repr

namespace Program

/-! ## Looking up -/

/-- The use at a position. -/
def use? (p : Program) (u : UseId) : Option Use :=
  p.uses[u]?

/-- The use at a position, or the fault of asking for one that is not there. -/
def useOrFault (p : Program) (u : UseId) : Except Fault Use :=
  match p.use? u with
  | some use => .ok use
  | none => .error (.missingUse u)

/-- The name of a function, or the fault of asking for one that is not there. -/
def nameOfFunction (p : Program) (f : FunctionId) : Except Fault String :=
  match p.functions[f]? with
  | some name => .ok name
  | none => .error (.missingFunction f)

/-- Where a use is. -/
def position? (p : Program) (u : UseId) : Option Position :=
  (p.use? u).bind Use.position

/-- Whether a use is there and lives in memory. -/
def isInMemory (p : Program) (u : UseId) : Bool :=
  (p.use? u).any Use.inMemory

/-- The positions of all uses. -/
def useIds (p : Program) : List UseId :=
  List.range p.uses.size

/-- The uses that do not live in memory. -/
def usesInPlay (p : Program) : List UseId :=
  p.useIds.filter fun u => !p.isInMemory u

/-- Every linkage with its position. -/
def numberedLinkages (p : Program) : List (Linkage × LinkageId) :=
  p.linkages.toList.zipIdx

/-- The active linkages, each with its position. -/
def activeLinkages (p : Program) : List (Linkage × LinkageId) :=
  p.numberedLinkages.filter fun (l, _) => l.isActive

/-- The positions of the linkages that are broken for good. -/
def linkagesBroken (p : Program) : List LinkageId :=
  (p.numberedLinkages.filter fun (l, _) => l.state.isBroken).map Prod.snd

/-- The uses that live in memory. -/
def usesInMemory (p : Program) : List UseId :=
  p.useIds.filter p.isInMemory

/-- The first end of an active linkage that is no use of the program. -/
def missingEnd? (p : Program) : Option UseId :=
  (p.activeLinkages.flatMap fun (l, _) => [l.first, l.second]).find? fun u => (p.use? u).isNone

/-! ## Building -/

/-- Add a function. -/
def withFunction (p : Program) (name : String) : Program :=
  { p with functions := p.functions.push name }

/-- Add a use. -/
def withUse (p : Program) (use : Use) : Program :=
  { p with uses := p.uses.push use }

/-- Add a linkage between two uses. -/
def withLinkage (p : Program) (first second : UseId) : Program :=
  { p with linkages := p.linkages.push { first, second } }

/-! ## What allocation changes -/

/-- Change the state of every linkage, given the linkage and its position. -/
def mapStates (p : Program) (f : Linkage → LinkageId → LinkState) : Program :=
  { p with linkages := p.linkages.mapIdx fun i l => { l with state := f l i } }

/-- Make every linkage active again that was split for one attempt only. -/
def resetSplits (p : Program) : Program :=
  p.mapStates fun l _ => l.state.reset

/-- Split the given linkages for the current attempt. -/
def splitAll (p : Program) (ids : List LinkageId) : Program :=
  p.mapStates fun l i => if ids.contains i then .split else l.state

/-- Break the given linkages for good. -/
def breakAll (p : Program) (attempt : Nat) (ids : List LinkageId) : Program :=
  p.mapStates fun l i => if ids.contains i then .broken attempt else l.state

/-- Move uses to memory, and break every linkage at one of them that is not broken for good yet. -/
def moveToMemory (p : Program) (attempt : Nat) (ids : List UseId) : Program :=
  let uses := p.uses.mapIdx fun u use => { use with inMemory := use.inMemory || ids.contains u }
  { p with uses }.mapStates fun l _ =>
    if !l.state.isBroken && ids.any l.endsAt then .broken attempt else l.state

end Program

end RegisterColoring
