import ImageScript.Bundle.Cleanup
import ImageScript.Command.Inspect
import ImageScript.Command.Terminal
import ImageScript.Edit.Session

/-!
# Commands

What can be done with bundles from a command line: create one, show what its script holds, write
its script in canonical form, and clean it up.
-/

namespace ImageScript

/-- How an inspection is shown. -/
inductive InspectFormat where
  | lines
  | json
deriving DecidableEq, Repr

/-- Every word but `json` means lines. -/
def InspectFormat.ofText (word : Text) : InspectFormat :=
  if word = "json".toList then json else lines

inductive Command where
  /-- Creates a bundle, and the configuration file where there is none or `force` is set. -/
  | init (name : Text) (dir : Option Text) (force : Bool)
  | inspect (input : Text) (shown : InspectFormat)
  /-- Writes a script in canonical form; `check` only says whether it is in canonical form. -/
  | format (input : Text) (check : Bool)
  /-- Deletes the images that a script does not mention; `dryRun` only names them. -/
  | clean (input : Text) (dryRun : Bool)
deriving DecidableEq, Repr

namespace Command

variable {σ : Type} [FileSystem σ]

/-- The bundle of a folder or of a script. -/
def openBundle (working : Path) (input : Text) (fs : σ) : Except CommandError Bundle :=
  let p := working.join input
  if FileSystem.isDir fs p then (Bundle.ofFolder fs p).mapError .bundle
  else if Bundle.isScript p && FileSystem.has fs p then .ok (.ofScript p)
  else .error (.noScript input)

/-- Writes the configuration file if there is none or `force` is set. -/
def writeConfig (working : Path) (c : Config) (force : Bool) :
    EStateM CommandError (Terminal σ) Unit := do
  let file := working.join Config.fileName
  if !FileSystem.has (← get).files file || force then
    Terminal.perform .file (FileSystem.write file (Text.encode (Json.pretty c.toJson)))
    Terminal.say ("  ✓ Created ".toList ++ Config.fileName)

/-- What to do with a new bundle. -/
def nextSteps (b : Bundle) : List Text := [
  [], "✅ Bundle ready!".toList, [], "Next steps:".toList,
  "  1. Edit ".toList ++ b.script.text,
  "  2. Run: glance inspect ".toList ++ b.folder.text,
  "  3. Run: glance clean ".toList ++ b.folder.text ++ " --dry-run".toList]

def runInit (working : Path) (name : Text) (dir : Option Text) (force : Bool) :
    EStateM CommandError (Terminal σ) Unit := do
  let c ← Terminal.ask .config (Config.load working)
  let c := { c with scriptsDir := dir.getD c.scriptsDir }
  Terminal.say "📝 Initializing glance bundle...".toList
  let parent := c.scriptsPath working
  let existed := FileSystem.has (← get).files (parent.join (Bundle.folderName name))
  let b ← Terminal.perform .bundle (Bundle.create parent name)
  Terminal.say <|
    if existed then "  ⚠️ ".toList ++ b.folder.text ++ " already exists".toList
    else "  ✓ Created ".toList ++ b.folder.text
  writeConfig working c force
  Terminal.sayAll (nextSteps b)

def runInspect (working : Path) (input : Text) (shown : InspectFormat) :
    EStateM CommandError (Terminal σ) Unit := do
  let c ← Terminal.ask .config (Config.load working)
  let b ← Terminal.ask id (openBundle working input)
  let s ← Terminal.ask .edit (Session.load b c.editor)
  match shown with
  | .json => Terminal.say s.document.prettyJson
  | .lines =>
    Terminal.sayAll (("🔍 Inspecting ".toList ++ b.script.text) :: [] :: s.document.report)

def runFormat (working : Path) (input : Text) (check : Bool) :
    EStateM CommandError (Terminal σ) Unit := do
  let c ← Terminal.ask .config (Config.load working)
  let b ← Terminal.ask id (openBundle working input)
  let written ← Terminal.ask .bundle b.readScript
  let s ← Terminal.ask .edit (Session.load b c.editor)
  let canonical := s.document.text
  if canonical = written then
    Terminal.say ("  ✓ ".toList ++ b.script.text ++ " is canonical".toList)
  else if check then throw (.notCanonical b.script)
  else
    Terminal.perform .bundle (b.writeScript canonical)
    Terminal.say ("  ✓ Formatted ".toList ++ b.script.text)

/-- The lines that tell of a cleanup. -/
def cleanupLines (r : CleanupReport) (dryRun : Bool) : List Text :=
  r.kept.map ("  keep ".toList ++ ·)
    ++ r.deleted.map ((if dryRun then "  would delete ".toList else "  deleted ".toList) ++ ·)
    ++ [[], "   Kept: ".toList ++ Text.ofNat r.kept.length,
      (if dryRun then "   Unused: ".toList else "   Deleted: ".toList)
        ++ Text.ofNat r.deleted.length]

def runClean (working : Path) (input : Text) (dryRun : Bool) :
    EStateM CommandError (Terminal σ) Unit := do
  let b ← Terminal.ask id (openBundle working input)
  let text ← Terminal.ask .bundle b.readScript
  Terminal.sayAll ["🧹 Cleaning ".toList ++ b.folder.text, []]
  let r ←
    if dryRun then Terminal.ask .bundle (b.planCleanup text)
    else Terminal.perform .bundle (b.cleanUp text)
  match r.openString with
  | some o => throw (.openString o.line)
  | none => Terminal.sayAll (cleanupLines r dryRun)

/-- Runs a command in a working directory. -/
def run (working : Path) : Command → EStateM CommandError (Terminal σ) Unit
  | init name dir force => runInit working name dir force
  | inspect input shown => runInspect working input shown
  | format input check => runFormat working input check
  | clean input dryRun => runClean working input dryRun

end Command

end ImageScript
