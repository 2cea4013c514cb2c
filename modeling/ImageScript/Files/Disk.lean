import Std.Data.TreeMap
import ImageScript.Files.FileSystem

/-!
# Files of an operating system

A tree of files and directories as a POSIX system shows it, seen from a working directory. A path is
followed name by name through directories that have to be there; a single dot stays in a directory,
double dots lead to the one above.
-/

namespace ImageScript

/-- Where an entry is: the names that lead to it from the root. -/
abbrev Location := List Text

inductive DiskEntry where
  | file (bytes : Bytes)
  | dir
deriving DecidableEq, Repr

structure Disk where
  /-- The entries below the root. -/
  entries : Std.TreeMap Location DiskEntry
  working : Location

namespace Disk

/-- The entry at a location; the root is a directory. -/
def entryAt? (d : Disk) (place : Location) : Option DiskEntry :=
  if place = [] then some .dir else d.entries[place]?

/-- Why a location cannot be searched for names, if it cannot. -/
def searchError? (d : Disk) (place : Location) : Option SystemError :=
  match d.entryAt? place with
  | some .dir => none
  | some (.file _) => some .notDirectory
  | none => some .noEntry

/-- One step from a location, which has to be a directory. -/
def step (d : Disk) (place : Location) (n : Text) : Except SystemError Location :=
  match d.searchError? place with
  | some e => .error e
  | none =>
    if n = ['.'] then .ok place
    else if n = ['.', '.'] then .ok place.dropLast
    else if 255 < Text.byteLen n then .error .nameTooLong
    else .ok (place ++ [n])

/-- The names a path consists of, dots among them. -/
def steps (p : Path) : List Text :=
  let (first, others) := Text.pieces '/' p.text
  (first :: others).filter (· ≠ [])

/-- Where names lead from the place where a path starts, whether there is an entry or not. -/
def follow (d : Disk) (p : Path) (names : List Text) : Except SystemError Location :=
  names.foldlM d.step (if p.isAbsolute then [] else d.working)

/-- Why the system does not even start to follow a path, if it does not. -/
def refusal? (p : Path) : Option SystemError :=
  if p.text.contains '\x00' then some .nulByte
  else if p.isEmpty then some .noEntry
  else if 4096 ≤ Text.byteLen p.text then some .nameTooLong
  else none

/-- Where a path leads, whether there is an entry or not. -/
def locate (d : Disk) (p : Path) : Except SystemError Location :=
  match refusal? p with
  | some e => .error e
  | none => d.follow p (steps p)

/-- The directory in which a path takes its last step. -/
def base (d : Disk) (p : Path) : Except SystemError Location :=
  match refusal? p with
  | some e => .error e
  | none => d.follow p ((steps p).dropLast ++ [['.']])

/-- Whether a path ends so that only a directory can be meant. -/
def meansDir (p : Path) : Bool := p.text.getLast? = some '/'

/-- The entry at a location that a path leads to, with the location. -/
def entryFor (d : Disk) (p : Path) (place : Location) :
    Except SystemError (Location × DiskEntry) :=
  match d.entryAt? place with
  | none => .error .noEntry
  | some (.file bytes) =>
    if meansDir p then .error .notDirectory else .ok (place, .file bytes)
  | some .dir => .ok (place, .dir)

/-- The entry a path leads to, and its location. -/
def find (d : Disk) (p : Path) : Except SystemError (Location × DiskEntry) := do
  d.entryFor p (← d.locate p)

/-- The directory a path leads to. -/
def findDir (d : Disk) (p : Path) : Except SystemError Location := do
  match ← d.find p with
  | (place, .dir) => return place
  | (_, .file _) => throw .notDirectory

def isDir (d : Disk) (p : Path) : Bool := (d.findDir p).isOk

/-- Whether a location is inside the directory at another one. -/
def isBelow (place other : Location) : Bool := place.isPrefixOf other && place ≠ other

/-- The spelling of a location. -/
def spell (place : Location) : Path :=
  if place = [] then ⟨['/']⟩ else ⟨place.flatMap ('/' :: ·)⟩

/-- The spelling of the place a path leads to. The names are looked up one after the other, so the
path itself may be long. -/
def canonical (d : Disk) (p : Path) : Except SystemError Path :=
  match refusal? p with
  | none | some .nameTooLong => do
    let place ← d.follow p (steps p)
    return spell (← d.entryFor p place).1
  | some e => .error e

def set (d : Disk) (place : Location) (e : DiskEntry) : Disk :=
  { d with entries := d.entries.insert place e }

/-- The contents of the file a path leads to. -/
def contents (d : Disk) (p : Path) : Except SystemError Bytes := do
  match ← d.find p with
  | (_, .file bytes) => return bytes
  | (_, .dir) => throw .isDirectory

/-- Where a file can be written: an existing file, or a free place in a directory. -/
def writable (d : Disk) (p : Path) : Except SystemError Location := do
  if meansDir p then
    let _ ← d.base p
    throw .isDirectory
  let place ← d.locate p
  match d.entryAt? place with
  | some .dir => throw .isDirectory
  | _ => return place

/-- The disk with a file written. -/
def write (d : Disk) (p : Path) (bytes : Bytes) : Except SystemError Disk := do
  return d.set (← d.writable p) (.file bytes)

/-- The disk with a file copied; a file copied onto itself is emptied. -/
def copy (d : Disk) (source target : Path) : Except SystemError Disk := do
  match ← d.find source with
  | (_, .dir) => throw .notRegular
  | (origin, .file bytes) =>
    let goal ← d.writable target
    return d.set goal (.file (if origin = goal then [] else bytes))

/-- The disk with a file removed. -/
def removeFile (d : Disk) (p : Path) : Except SystemError Disk := do
  match ← d.find p with
  | (_, .dir) => throw .isDirectory
  | (place, .file _) => return { d with entries := d.entries.erase place }

/-- The disk without an empty directory, which a path that ends in dots does not name. -/
def removeEmptyDir (d : Disk) (p : Path) : Except SystemError Disk := do
  let place ← d.base p
  match (steps p).getLast? with
  | none => throw .busy
  | some n =>
    if n = ['.'] then throw .invalidArgument
    if n = ['.', '.'] then throw .notEmpty
    return { d with entries := d.entries.erase (place ++ [n]) }

/-- Removes what is in a directory and then the directory itself. A path that led through what was
in it leads nowhere by then, and the directory stays. -/
def removeDir (p : Path) : EStateM SystemError Disk Unit := fun d =>
  match d.findDir p with
  | .error e => .error e d
  | .ok place =>
    let emptied := { d with entries := d.entries.filter fun other _ => !isBelow place other }
    match emptied.removeEmptyDir p with
    | .ok d => .ok () d
    | .error .noEntry => .ok () emptied
    | .error e => .error e emptied

/-- The disk with one directory more; the one above has to be there. -/
def makeDir (d : Disk) (p : Path) : Except SystemError Disk := do
  let place ← d.locate p
  match d.entryAt? place with
  | some _ => throw .entryExists
  | none => return d.set place .dir

/-- Makes a directory that may be there already. -/
def ensureDir (p : Path) : EStateM SystemError Disk Unit := fun d =>
  match d.makeDir p with
  | .ok d => .ok () d
  | .error e => if d.isDir p then .ok () d else .error e d

/-- Makes a directory and those above it that are missing, given the row of them. -/
def makeDirs : List Path → EStateM SystemError Disk Unit
  | [] => throw .noTree
  | p :: above => do
    if p.isEmpty then return
    match (← get).makeDir p with
    | .ok d => MonadStateOf.set d
    | .error .noEntry =>
      makeDirs above
      ensureDir p
    | .error _ => ensureDir p

/-- The entries of a directory, each below the path it is listed by. -/
def list (d : Disk) (p : Path) : Except SystemError (List Path) := do
  let place ← d.findDir p
  return (d.entries.keys.filter fun other => other ≠ [] && other.dropLast = place).filterMap
    fun other => other.getLast?.map p.join

/-- A change of the disk as an action that leaves it alone when it fails. -/
def action (change : Disk → Except SystemError Disk) : EStateM FileError Disk Unit := fun d =>
  match change d with
  | .ok d => .ok () d
  | .error e => .error (.system e) d

instance : FileSystem Disk where
  size d := d.entries.size
  has d p := (d.find p).isOk
  isDir := isDir
  canonical d p := (d.canonical p).mapError .system
  read d p := (d.contents p).mapError .system
  list d p := (d.list p).mapError .system
  write p bytes := action (·.write p bytes)
  copy source target := action (·.copy source target)
  removeFile p := action (·.removeFile p)
  removeDir p := (removeDir p).adaptExcept .system
  createDir p := (makeDirs p.ancestors).adaptExcept .system

/-- A disk that holds a working directory and nothing else. -/
def ofWorking (place : Location) : Disk :=
  ⟨.ofList ((List.range place.length).map fun n => (place.take (n + 1), DiskEntry.dir)), place⟩

/-- The disk after an action, however the action ends. -/
def after (action : EStateM FileError Disk Unit) (d : Disk) : Disk :=
  match action d with
  | .ok _ d | .error _ d => d

/-- Adds a directory and every directory above it. -/
def addDir (d : Disk) (p : Path) : Disk := after (FileSystem.createDir p) d

/-- Adds a file and every directory above it. -/
def addFile (d : Disk) (p : Path) (bytes : Bytes) : Disk :=
  let d := match p.parent? with
    | some dir => d.addDir dir
    | none => d
  after (FileSystem.write p bytes) d

end Disk

end ImageScript
