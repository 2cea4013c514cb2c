import Std.Data.TreeSet
import ImageScript.Bundle.Basic
import ImageScript.Script.LiteralScan

/-!
# Cleanup

Images that the script mentions nowhere are deleted. Every string of the script counts as a
mention, also in comments and doc strings. Where a string is left open the mentions cannot be
trusted, and nothing is deleted.
-/

namespace ImageScript

/-- What a cleanup keeps and deletes. -/
structure CleanupReport where
  kept : List Text
  deleted : List Text
  /-- The open string because of which nothing is deleted. -/
  openString : Option OpenString
deriving DecidableEq, Repr

namespace Bundle

variable {σ : Type} [FileSystem σ]

/-- The name in this bundle that a string mentions. An absolute path counts only directly in the
folder. -/
def mentioned? (b : Bundle) (content : Text) : Option Text :=
  if !ImageName.isImage content then none
  else if Path.isAbsolute ⟨content⟩ then
    if b.contains ⟨content⟩ then Path.fileName? ⟨content⟩ else none
  else some content

/-- The image names that a text mentions. -/
def mentionedImages (b : Bundle) (s : Text) : Std.TreeSet Text :=
  .ofList ((scanLiterals s).literals.filterMap fun l => b.mentioned? l.content)

/-- Whether a name is exempt from cleanup. -/
def isExempt (name : Text) : Bool := name.head? = some '_'

/-- What `cleanUp` would delete. -/
def planCleanup (b : Bundle) (s : Text) (fs : σ) : Except BundleError CleanupReport := do
  let names := (← b.imageFiles fs).filterMap Path.fileName?
  match (scanLiterals s).openString with
  | some o => return ⟨names, [], some o⟩
  | none =>
    let used := b.mentionedImages s
    let (kept, deleted) := names.partition fun name => isExempt name || used.contains name
    return ⟨kept, deleted, none⟩

/-- Deletes files of the folder one after another, up to the first that cannot be deleted. -/
def deleteImages (b : Bundle) : List Text → EStateM BundleError σ Unit
  | [] => pure ()
  | name :: names => do
    doing (b.imagePath name) (FileSystem.removeFile (b.imagePath name))
    b.deleteImages names

/-- Deletes the images of the bundle that a text does not mention. -/
def cleanUp (b : Bundle) (s : Text) : EStateM BundleError σ CleanupReport := do
  match b.planCleanup s (← get) with
  | .error e => throw e
  | .ok report =>
    b.deleteImages report.deleted
    return report

end Bundle

end ImageScript
