/-! # Files

The answers of the file system, and a folder of text files that gives them without one. A path is
followed name by name, and the first name that does not lead on decides what is wrong with it.

* `FileError`: why a file cannot be read or written, and the wording of it.
* `Path`: a written path, taken apart at its slashes.
* `Place`: how far a path has been followed.
* `systemEntry`: what every system has outside the folder.
* `Folder`: text files by path, and `Folder.look`, what is at a place.
* `Folder.follow`: the folder that a path leads into, and the name that it ends in.
* `Folder.read`, `Folder.write`: reading and writing by the rules of the file system. -/

namespace RegisterColoring

/-- Why a file cannot be read or written. -/
inductive FileError where
  /-- There is no such file, or no folder to put it in. -/
  | notFound
  /-- A file is used as a folder. -/
  | notDirectory
  /-- A folder is used as a file. -/
  | isDirectory
  /-- No file can be made there. -/
  | denied
  /-- There is no room for the text. -/
  | noSpace
  /-- What the file holds is no text. -/
  | notText
  /-- The path, or a name in it, is longer than the file system takes. -/
  | nameTooLong
  /-- The path holds the character that ends all paths. -/
  | nulInPath
  /-- Any other reason, in the words of the system. -/
  | other (reason : String)
  deriving DecidableEq, Repr

namespace FileError

/-- The wording of an error. -/
def message : FileError → String
  | notFound => "No such file or directory (os error 2)"
  | notDirectory => "Not a directory (os error 20)"
  | isDirectory => "Is a directory (os error 21)"
  | denied => "Permission denied (os error 13)"
  | noSpace => "No space left on device (os error 28)"
  | notText => "stream did not contain valid UTF-8"
  | nameTooLong => "File name too long (os error 36)"
  | nulInPath => "file name contained an unexpected NUL byte"
  | other reason => reason

end FileError

/-! ## Paths -/

/-- A written path, taken apart at its slashes. -/
structure Path where
  /-- Whether it starts with a slash, and so at the root of the system. -/
  absolute : Bool
  /-- The names between the slashes, dots among them. -/
  names : List String
  /-- Whether it ends in a slash, and so can only mean a folder. -/
  closed : Bool
  deriving DecidableEq, Repr

namespace Path

/-- The most bytes that a path may have. -/
def maxBytes : Nat := 4095

/-- The most bytes that a name in a path may have. -/
def maxNameBytes : Nat := 255

/-- The names between the slashes of a written path. -/
def namesOf (written : String) : List String :=
  (written.splitOn "/").filter fun name => name != ""

/-- Take a written path apart, if it can be the path of anything. -/
def ofString (written : String) : Except FileError Path :=
  if written.contains '\x00' then .error .nulInPath
  else if written = "" then .error .notFound
  else if maxBytes < written.utf8ByteSize then .error .nameTooLong
  else .ok ⟨written.startsWith "/", namesOf written, written.endsWith "/"⟩

end Path

/-- Where a path is followed from. -/
inductive Base where
  /-- The folder. -/
  | folder
  /-- The folder that the folder is in. -/
  | above
  /-- The root of the system. -/
  | root
  deriving DecidableEq, Repr

/-- How far a path has been followed. -/
structure Place where
  /-- Where it was followed from. -/
  base : Base
  /-- The names that lead there, the last one first. -/
  names : List String
  deriving DecidableEq, Repr

namespace Place

/-- Where a path starts. -/
def start (path : Path) : Place :=
  ⟨if path.absolute then .root else .folder, []⟩

/-- The place of that name in a folder. -/
def down (place : Place) (name : String) : Place :=
  { place with names := name :: place.names }

/-- The folder around a folder. The folder that the folder is in stands at the root, and the root is
around itself. -/
def up : Place → Place
  | ⟨base, _ :: names⟩ => ⟨base, names⟩
  | ⟨.folder, []⟩ => ⟨.above, []⟩
  | ⟨.above, []⟩ => ⟨.root, []⟩
  | ⟨.root, []⟩ => ⟨.root, []⟩

end Place

/-! ## The folder -/

/-- Text files by path; a folder exists when a file is in it. -/
structure Folder where
  /-- The files: the names along the path, and the text. -/
  files : List (List String × String)
  deriving DecidableEq, Repr

/-- What is at a place. -/
inductive Entry where
  /-- Nothing. -/
  | nothing
  /-- A folder. -/
  | folder
  /-- A file with a text. -/
  | file (text : String)
  /-- A file that holds no text. -/
  | program
  /-- A device without room for any text. -/
  | full
  deriving DecidableEq, Repr

/-! ## The system -/

/-- Folders that every system has. -/
def systemFolders : List (List String) :=
  [["bin"], ["boot"], ["dev"], ["etc"], ["home"], ["lib"], ["lib64"], ["media"], ["mnt"], ["opt"],
    ["proc"], ["root"], ["run"], ["sbin"], ["srv"], ["sys"], ["tmp"], ["usr"], ["var"],
    ["dev", "fd"], ["dev", "pts"], ["dev", "shm"], ["proc", "1"], ["proc", "self"],
    ["proc", "self", "fd"], ["proc", "sys"], ["sys", "kernel"], ["usr", "bin"], ["usr", "games"],
    ["usr", "include"], ["usr", "lib"], ["usr", "local"], ["usr", "local", "bin"], ["usr", "sbin"],
    ["usr", "share"], ["usr", "src"], ["var", "cache"], ["var", "lib"], ["var", "log"],
    ["var", "run"], ["var", "tmp"]]

/-- Files that every system has and that hold a text, or take and forget one. The texts differ from
system to system, and none is a description, so that the empty text stands for all of them. -/
def systemTexts : List (List String) :=
  [["dev", "null"], ["dev", "zero"], ["dev", "random"], ["dev", "urandom"], ["etc", "passwd"],
    ["etc", "group"], ["etc", "hosts"], ["etc", "hostname"], ["etc", "resolv.conf"],
    ["etc", "os-release"], ["etc", "profile"], ["etc", "shells"], ["etc", "fstab"], ["etc", "issue"],
    ["proc", "version"], ["proc", "cpuinfo"], ["proc", "meminfo"], ["proc", "mounts"],
    ["proc", "uptime"], ["proc", "loadavg"], ["proc", "stat"], ["proc", "self", "status"],
    ["proc", "self", "maps"], ["proc", "self", "cmdline"]]

/-- Names of programs that every system has. -/
def systemPrograms : List String :=
  ["sh", "bash", "ls", "cat", "cp", "mv", "rm", "echo", "env", "true", "false", "grep", "sed", "sort"]

/-- What is at the end of a path from the root of the system. -/
def systemEntry (names : List String) : Entry :=
  if names.isEmpty || systemFolders.contains names then .folder
  else if systemTexts.contains names then .file ""
  else
    match names with
    | ["dev", "full"] => .full
    | ["proc", "self", "exe"] => .program
    | ["bin", name] => if systemPrograms.contains name then .program else .nothing
    | ["usr", "bin", name] => if systemPrograms.contains name then .program else .nothing
    | _ => .nothing

/-- Why no file can be made in a folder of the system, if that is so: some only show the system's own
state. -/
def systemRefusal? : List String → Option FileError
  | "proc" :: _ => some .notFound
  | "sys" :: _ => some .denied
  | _ => none

/-! ## Looking and putting -/

namespace Folder

/-- The folder of the given files. -/
def ofFiles (files : List (String × String)) : Folder :=
  ⟨files.map fun (path, text) => (Path.namesOf path, text)⟩

/-- The text of the file with exactly these names along its path. -/
def text? (f : Folder) (names : List String) : Option String :=
  f.files.lookup names

/-- Whether the names along a path lead to a folder. -/
def isFolder (f : Folder) (names : List String) : Bool :=
  names.isEmpty || f.files.any fun (path, _) => names.isPrefixOf path && names != path

/-- What is at a place. Outside the folder there are the folder that it is in and what every system
has; nothing else is known there. -/
def look (f : Folder) : Place → Entry
  | ⟨.folder, names⟩ =>
    match f.text? names.reverse with
    | some text => .file text
    | none => if f.isFolder names.reverse then .folder else .nothing
  | ⟨.above, names⟩ => if names.isEmpty then .folder else .nothing
  | ⟨.root, names⟩ => systemEntry names.reverse

/-- Why no file can be made at a place. -/
def refusal? : Place → Option FileError
  | ⟨.root, names⟩ => systemRefusal? names.reverse
  | _ => none

/-- Put a text at a place, over the text that is there. What is put outside the folder is not kept. -/
def put (f : Folder) (place : Place) (text : String) : Folder :=
  match place with
  | ⟨.folder, names⟩ =>
    let names := names.reverse
    if (f.text? names).isSome then
      ⟨f.files.map fun (path, old) => if path = names then (path, text) else (path, old)⟩
    else ⟨f.files ++ [(names, text)]⟩
  | _ => f

/-! ## Following paths -/

/-- What a name in a folder leads to. -/
def find (f : Folder) (place : Place) (name : String) : Except FileError Entry :=
  if Path.maxNameBytes < name.utf8ByteSize then .error .nameTooLong else .ok (f.look (place.down name))

/-- Go from a folder to the folder that a name means there: a dot is the folder itself, two dots are the
one around it. -/
def enter (f : Folder) (place : Place) (name : String) : Except FileError Place := do
  if name = "." then
    return place
  if name = ".." then
    return place.up
  match ← f.find place name with
  | .folder => return place.down name
  | .nothing => throw .notFound
  | _ => throw .notDirectory

/-- The folder that a path leads into, and the name that it ends in. There is no name when the path ends
in dots or has no names at all, and so means the folder itself. -/
def follow (f : Folder) (path : Path) : Except FileError (Place × Option String) := do
  let place ← path.names.dropLast.foldlM f.enter (Place.start path)
  match path.names.getLast? with
  | some name =>
    if name = "." || name = ".." then
      return (place, none)
    else
      return (place, some name)
  | none => return (place, none)

/-- Read a file. -/
def read (f : Folder) (written : String) : Except FileError String := do
  let path ← Path.ofString written
  match ← f.follow path with
  | (_, none) => throw .isDirectory
  | (place, some name) =>
    match ← f.find place name with
    | .nothing => throw .notFound
    | .folder => throw .isDirectory
    | entry =>
      if path.closed then
        throw .notDirectory
      match entry with
      | .file text => return text
      | _ => throw .notText

/-- Write a file, over the file that is there. A path that ends in a slash is refused before its last
name is looked up. -/
def write (f : Folder) (written text : String) : Except FileError Folder := do
  let path ← Path.ofString written
  match ← f.follow path with
  | (_, none) => throw .isDirectory
  | (place, some name) =>
    if path.closed then
      throw .isDirectory
    match ← f.find place name with
    | .folder => throw .isDirectory
    | .nothing =>
      match refusal? (place.down name) with
      | some refusal => throw refusal
      | none => return f.put (place.down name) text
    | .full => if text.isEmpty then return f else throw .noSpace
    | _ => return f.put (place.down name) text

end Folder

end RegisterColoring
