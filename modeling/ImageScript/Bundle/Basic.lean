import ImageScript.Files.FileSystem
import ImageScript.Text.Digits

/-!
# Bundles

A bundle is a folder that pairs one script with the images it names:

    demo.sikuli/
      demo.py
      btn.png
      _keep.png      never cleaned up
-/

namespace ImageScript

/-- Why an image name does not lead to a file. -/
inductive ResolveError where
  | notFound (name : Text) (folder : Path)
  | invalidName (name : Text)
deriving DecidableEq, Repr

def ResolveError.message : ResolveError → Text
  | notFound name folder =>
    "Image '".toList ++ name ++ "' not found in bundle ".toList ++ folder.text
  | invalidName name => "Invalid image name '".toList ++ name ++ "'".toList

inductive BundleError where
  | file (path : Path) (cause : FileError)
  | copyFailed (source target : Path) (cause : FileError)
  | notABundle (path : Path)
  | resolve (cause : ResolveError)
deriving DecidableEq, Repr

def BundleError.message : BundleError → Text
  | file path cause => "IO error at ".toList ++ path.text ++ ": ".toList ++ cause.message
  | copyFailed source target cause =>
    "Failed to copy ".toList ++ source.text ++ " to ".toList ++ target.text ++ ": ".toList
      ++ cause.message
  | notABundle path => "Not a bundle folder: ".toList ++ path.text
  | resolve cause => cause.message

structure Bundle where
  folder : Path
  script : Path
  /-- Whether the folder is discarded when the bundle is left. -/
  temporary : Bool
deriving DecidableEq, Repr

namespace Bundle

variable {σ : Type} [FileSystem σ]

/-- A file operation whose failure names the path it was meant for. -/
def naming {α : Type} (path : Path) (r : Except FileError α) : Except BundleError α :=
  r.mapError (.file path)

/-- A file action whose failure names the path it was meant for. -/
def doing {α : Type} (path : Path) (action : EStateM FileError σ α) : EStateM BundleError σ α :=
  action.adaptExcept (.file path)

def folderName (stem : Text) : Text := stem ++ ".sikuli".toList

def scriptName (stem : Text) : Text := stem ++ ".py".toList

def isScript (p : Path) : Bool := p.extension? = some "py".toList

/-- The bundle of a script file: the directory of the script holds the images. -/
def ofScript (script : Path) : Bundle :=
  ⟨script.parent?.getD (.ofString "."), script, false⟩

/-- The bundle in a folder. A script named like the folder goes before any other, and a script of
another name is taken when it is the only one. -/
def ofFolder (fs : σ) (folder : Path) : Except BundleError Bundle := do
  if !FileSystem.isDir fs folder then throw (.notABundle folder)
  let expected := folder.join (scriptName (folder.fileStem?.getD []))
  if FileSystem.has fs expected then return ⟨folder, expected, false⟩
  let entries ← naming folder (FileSystem.list fs folder)
  match entries.filter isScript with
  | [script] => return ⟨folder, script, false⟩
  | [] => return ⟨folder, expected, false⟩
  | _ => throw (.notABundle folder)

/-- Creates the folder of a bundle with an empty script, and keeps a script that is there. -/
def create (parent : Path) (name : Text) : EStateM BundleError σ Bundle := do
  let folder := parent.join (folderName name)
  let script := folder.join (scriptName name)
  doing folder (FileSystem.createDir folder)
  if !FileSystem.has (← get) script then
    doing script (FileSystem.write script [])
  return ⟨folder, script, false⟩

/-- The folder of the temporary bundle with a number. -/
def temporaryFolder (parent : Path) (n : Nat) : Path :=
  parent.join (folderName ("glance-".toList ++ Text.ofNat n))

/-- The first temporary folder from number `n` on that is free, among `steps` of them. -/
def freeFolder (fs : σ) (parent : Path) : Nat → Nat → Path
  | 0, n => temporaryFolder parent n
  | steps + 1, n =>
    let folder := temporaryFolder parent n
    if FileSystem.has fs folder then freeFolder fs parent steps (n + 1) else folder

/-- Creates a bundle that is discarded when it is left. -/
def createTemporary (parent : Path) : EStateM BundleError σ Bundle := do
  let fs ← get
  let folder := freeFolder fs parent (FileSystem.size fs) 0
  doing folder (FileSystem.createDir folder)
  return ⟨folder, folder.join (scriptName "untitled".toList), true⟩

/-- The name of the folder without its ending. -/
def name (b : Bundle) : Text := b.folder.fileStem?.getD []

def imagePath (b : Bundle) (name : Text) : Path := b.folder.join name

/-- Whether a path lies directly in the folder. -/
def contains (b : Bundle) (p : Path) : Bool := p.parent?.any (·.same b.folder)

/-- The image files directly in the folder, in order. -/
def imageFiles (b : Bundle) (fs : σ) : Except BundleError (List Path) := do
  let entries ← naming b.folder (FileSystem.list fs b.folder)
  return entries.filter fun p => !FileSystem.isDir fs p && p.fileName?.any ImageName.isImage

/-- The text of the script. -/
def readScript (b : Bundle) (fs : σ) : Except BundleError Text := do
  let bytes ← naming b.script (FileSystem.read fs b.script)
  return Text.decodeLossy bytes

def writeScript (b : Bundle) (s : Text) : EStateM BundleError σ Unit :=
  doing b.script (FileSystem.write b.script (Text.encode s))

/-- The files behind a switch from one bundle to another. The folder of a temporary bundle that is
left behind is removed unless it is the folder of the next one; a failure to remove it is passed
over. -/
def switch (previous next : Bundle) (fs : σ) : σ :=
  if previous.temporary && !previous.folder.same next.folder then
    match FileSystem.removeDir previous.folder fs with
    | .ok _ fs => fs
    | .error _ fs => fs
  else fs

/-- Makes another bundle active and returns the one that was left. -/
def activate (next : Bundle) : StateM (Bundle × σ) Bundle := fun (previous, fs) =>
  (previous, next, previous.switch next fs)

end Bundle

end ImageScript
