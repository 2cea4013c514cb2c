import ImageScript.Bundle.Basic

/-!
# Image names and files

Which file of a bundle a name stands for, and how a file from elsewhere gets a name in a bundle: a
file of the same name and content is used again, and a name that is taken by other content is
counted up until one is free.
-/

namespace ImageScript.Bundle

variable {σ : Type} [FileSystem σ]

/-- The path a name stands for, whether there is a file or not. -/
def candidate? (b : Bundle) (name : Text) : Option Path :=
  if !ImageName.isImage name then none
  else if Path.isAbsolute ⟨name⟩ then some ⟨name⟩
  else if ImageName.isLeaf name then some (b.imagePath name)
  else none

/-- The file that an image name stands for. -/
def resolve (b : Bundle) (fs : σ) (name : Text) : Except ResolveError Path :=
  match b.candidate? name with
  | none => .error (.invalidName name)
  | some p =>
    if FileSystem.has fs p && !FileSystem.isDir fs p then .ok p
    else .error (.notFound name b.folder)

/-- An image file in a bundle. -/
structure Placed where
  name : Text
  path : Path
  /-- False where a file with the same content was there already. -/
  copied : Bool
deriving DecidableEq, Repr

/-- Whether the file got another name than the one given. -/
def Placed.isRenamed (p : Placed) (name : Text) : Bool := p.name ≠ name

/-- The place for a file: the first name from `name` on that is the file itself, is free or holds
the same bytes. At most `steps` names after it are tried. -/
def findPlace (b : Bundle) (fs : σ) (source : Path) (contents : Bytes) :
    Nat → Text → Except BundleError Placed
  | steps, name =>
    let target := b.imagePath name
    if target.same source then .ok ⟨name, target, false⟩
    else if !FileSystem.has fs target then .ok ⟨name, target, true⟩
    else
      match FileSystem.read fs target with
      | .error e => .error (.file target e)
      | .ok found =>
        if found = contents then .ok ⟨name, target, false⟩
        else
          match steps with
          | 0 => .error (.file target (.refused target))
          | steps + 1 => b.findPlace fs source contents steps (ImageName.next name)

/-- The name of an image file. -/
def imageFileName? (p : Path) : Option Text := p.fileName?.filter ImageName.isImage

/-- Copies an image file into a bundle under the first name that is free or holds the same. -/
def copyInto (b : Bundle) (source : Path) : EStateM BundleError σ Placed := do
  let fs ← get
  match imageFileName? source with
  | none => throw (.resolve (.invalidName source.text))
  | some name =>
    match FileSystem.read fs source with
    | .error e => throw (.file source e)
    | .ok contents =>
      match b.findPlace fs source contents (FileSystem.size fs) name with
      | .error e => throw e
      | .ok placed =>
        if placed.copied then
          (FileSystem.copy source placed.path).adaptExcept (.copyFailed source placed.path)
        return placed

end ImageScript.Bundle
