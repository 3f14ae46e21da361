import FieldFlow.Command.Host

/-!
# A host in memory

Commands can be run against files, outputs and a clock that are plain data.  The files stand in one
directory and, if their names have slashes, in directories below it.  Paths start in that directory,
or with a slash at the root, where there are the usual directories of a machine and in them nothing
but the null device.  The clock moves on by a fixed step whenever it is looked at, so that a run
takes a time that is never zero and always the same.

Main definitions: `Memory`, `Memory.host`.
-/

namespace FieldFlow

/-- A directory that names can start from. -/
inductive Memory.Base where
  /-- The directory with the files, or the one so many levels above it. -/
  | above (levels : Nat)
  | root
deriving DecidableEq, Repr

/-- A place for a file or a directory. -/
structure Memory.Location where
  base : Memory.Base
  names : List String
deriving DecidableEq, Repr

/-- Everything that a command can see or change. -/
structure Memory where
  files : List (Memory.Location × String)
  /-- What was written to standard output. -/
  output : String
  /-- What was written to standard error. -/
  errors : String
  /-- The time in nanoseconds. -/
  clock : Nat

namespace Memory

/-! ## Locations -/

namespace Location

/-- The directory around a location; the root is its own. -/
def parent (l : Location) : Location :=
  match l.base, l.names with
  | .above levels, [] => ⟨.above (levels + 1), []⟩
  | .root, [] => l
  | base, names => ⟨base, names.dropLast⟩

/-- The location of a name in a directory. -/
def child (l : Location) (name : String) : Location := ⟨l.base, l.names ++ [name]⟩

/-- One location lies below another. -/
def isBelow (l outer : Location) : Bool :=
  l.base = outer.base && outer.names.length < l.names.length && outer.names.isPrefixOf l.names

end Location

/-- The file that holds nothing, whatever is written to it. -/
def nullDevice : Location := ⟨.root, ["dev", "null"]⟩

/-- The directories at the root. -/
def rootDirectories : List String :=
  ["bin", "boot", "dev", "etc", "home", "lib", "media", "mnt", "opt", "proc", "root", "run", "sbin",
    "srv", "sys", "tmp", "usr", "var"]

/-- The location is a directory that needs no files to exist. -/
def isStanding (l : Location) : Bool :=
  match l.base, l.names with
  | _, [] => true
  | .root, [name] => rootDirectories.contains name
  | _, _ => false

/-- What stands at a location. -/
inductive Place where
  | file (location : Location) (text : String)
  | directory (location : Location)
  /-- Nothing stands there. -/
  | free (location : Location)

/-- What stands at a location. -/
def placeAt (w : Memory) (l : Location) : Place :=
  if isStanding l || w.files.any (fun entry => entry.1.isBelow l) then .directory l
  else match w.files.lookup l with
    | some text => .file l text
    | none => .free l

/-! ## Paths -/

/-- A path: where it starts, the names in it, and whether it ends with a slash. -/
structure Path where
  base : Base
  names : List String
  slashed : Bool

/-- The parts of a text between slashes. -/
def parts (path : String) : List String := (path.splitOn "/").filter (· ≠ "")

/-- How many octets a path has at most. -/
def longestPath : Nat := 4095

/-- How many octets a name has at most. -/
def longestName : Nat := 255

/-- Takes a path apart. -/
def path (text : String) : Except String Path :=
  if text = "" then .error "no such file or directory"
  else if longestPath < text.utf8ByteSize then .error "file name too long"
  else .ok ⟨if text.startsWith "/" then .root else .above 0, parts text, text.endsWith "/"⟩

/-- What a name in a directory leads to; two names stand for the directory itself and for the one
around it. -/
def step (w : Memory) (l : Location) (name : String) : Except String Place :=
  if name = "." then .ok (.directory l)
  else if name = ".." then .ok (.directory l.parent)
  else if longestName < name.utf8ByteSize then .error "file name too long"
  else .ok (w.placeAt (l.child name))

/-- Follows names that must all lead to directories. -/
def enter (w : Memory) : Location → List String → Except String Location
  | l, [] => .ok l
  | l, name :: rest => do
    match ← w.step l name with
    | .directory inner => w.enter inner rest
    | .file _ _ => .error "not a directory"
    | .free _ => .error "no such file or directory"

/-- What a path leads to.  A slash at its end asks for a directory. -/
def find (w : Memory) (text : String) : Except String Place := do
  let p ← path text
  match p.names.getLast? with
  | none => return .directory ⟨p.base, []⟩
  | some name =>
    let l ← w.enter ⟨p.base, []⟩ p.names.dropLast
    match ← w.step l name, p.slashed with
    | .file _ _, true => .error "not a directory"
    | .free _, true => .error "no such file or directory"
    | found, _ => return found

/-- The place for a file that is to be made.  With a slash at its end a path asks for a directory,
whatever stands there. -/
def findNew (w : Memory) (text : String) : Except String Location := do
  let p ← path text
  match p.names.getLast? with
  | none => .error "is a directory"
  | some name =>
    let l ← w.enter ⟨p.base, []⟩ p.names.dropLast
    if p.slashed && name ≠ "." && name ≠ ".." then .error "is a directory"
    else match ← w.step l name with
      | .directory _ => .error "is a directory"
      | .file location _ => return location
      | .free location => return location

/-! ## Files -/

/-- The contents of a file. -/
def read (w : Memory) (text : String) : Except FileFault String :=
  match w.find text with
  | .error reason => .error ⟨"open", text, reason⟩
  | .ok (.free _) => .error ⟨"open", text, "no such file or directory"⟩
  | .ok (.directory _) => .error ⟨"read", text, "is a directory"⟩
  | .ok (.file _ contents) => .ok contents

/-- Replaces the contents of a file. -/
def write (w : Memory) (l : Location) (text : String) : Memory :=
  if l = nullDevice then w
  else { w with files := (l, text) :: w.files.filter fun entry => entry.1 ≠ l }

/-- Makes a file empty, and makes it if it is missing. -/
def create (w : Memory) (text : String) : Except FileFault Unit × Memory :=
  match w.findNew text with
  | .error reason => (.error ⟨"open", text, reason⟩, w)
  | .ok l => (.ok (), w.write l "")

/-- Adds text to the end of a file. -/
def append (w : Memory) (path text : String) : Memory :=
  match w.find path with
  | .ok (.file l contents) => w.write l (contents ++ text)
  | _ => w

/-- How far the clock moves when it is looked at, in nanoseconds. -/
def tick : Nat := 100000

/-- The host whose surroundings are held in memory. -/
def host : Host (StateM Memory) where
  now := modifyGet fun w => (w.clock, { w with clock := w.clock + tick })
  stamp := pure "2000-01-01T00:00:00Z"
  readFile path := do return (← get).read path
  createFile path := modifyGet fun w => w.create path
  appendFile path text := modify fun w => w.append path text
  print text := modify fun w => { w with output := w.output ++ text }
  complain text := modify fun w => { w with errors := w.errors ++ text }

/-- The surroundings with the given files, before anything was done. -/
def ofFiles (files : List (String × String)) : Memory :=
  { files := (nullDevice, "") :: files.map fun file => (⟨.above 0, parts file.1⟩, file.2)
    output := ""
    errors := ""
    clock := 0 }

/-- The contents of a file, if it exists. -/
def file? (w : Memory) (path : String) : Option String := (w.read path).toOption

end Memory

end FieldFlow
