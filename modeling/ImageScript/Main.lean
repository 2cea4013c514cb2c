import ImageScript.Command.Arguments
import ImageScript.Files.DiskChange

/-!
# The program

Runs one command in the working directory. The paths of the working directory come in on standard
input, one a line, as `find` writes them.
-/

open ImageScript

namespace ImageScript.Program

def usage : String :=
  "Usage: find . | glance (init NAME [-d DIR] [-f] | inspect INPUT [-f FORMAT] | "
    ++ "format INPUT [--check] | clean INPUT [--dry-run])"

/-- The lines of standard input. -/
partial def readLines (input : IO.FS.Stream) : IO (List String) := do
  let line ← input.getLine
  if line.isEmpty then return []
  return String.ofList (line.toList.filter (· ≠ '\n')) :: (← readLines input)

/-- Adds what a path leads to; what cannot be read as a file counts as a directory. -/
def addPath (working : Path) (d : Disk) (path : String) : IO Disk := do
  let p := working.join path.toList
  try
    return d.addFile p (← IO.FS.readBinFile path).toList
  catch _ => return d.addDir p

def carryOut : DiskChange → IO Unit
  | .removeFile p => IO.FS.removeFile (String.ofList p.text)
  | .removeDir p => IO.FS.removeDirAll (String.ofList p.text)
  | .makeDir p => IO.FS.createDirAll (String.ofList p.text)
  | .write p bytes => IO.FS.writeBinFile (String.ofList p.text) ⟨bytes.toArray⟩

/-- Runs a command, and returns the exit code. -/
def run (command : Command) : IO UInt32 := do
  let working := Path.ofString (toString (← IO.currentDir))
  let place := working.components.filterMap fun
    | .name n => some n
    | _ => none
  let before ← (← readLines (← IO.getStdin)).foldlM (addPath working) (Disk.ofWorking place)
  let (t, error?) := match command.run working ⟨before, []⟩ with
    | .ok _ t => (t, none)
    | .error e t => (t, some e)
  IO.print (String.ofList t.output)
  (before.changes t.files).forM carryOut
  match error? with
  | none => return 0
  | some e =>
    IO.eprintln ("\nError: " ++ String.ofList e.message ++ "\n")
    return 1

end ImageScript.Program

def main (args : List String) : IO UInt32 := do
  match Command.ofArgs? args with
  | some command => Program.run command
  | none =>
    IO.eprintln Program.usage
    return 2
