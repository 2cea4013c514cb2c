import Std.Data.TreeMap
import ImageScript.Document.Reparse
import ImageScript.Script.DeepWalk

/-!
# Clipboard

A copied range is its canonical text together with the files of the images it names. Pasting puts
these files into the active bundle first, and where one gets another name there, the strings of the
pasted text that name it are changed before the text is inserted.
-/

namespace ImageScript

structure ClipboardPayload where
  text : Text
  /-- The file of each image name in the text. -/
  images : Std.TreeMap Text Path

namespace ClipboardPayload

def plain (text : Text) : ClipboardPayload := ⟨text, ∅⟩

end ClipboardPayload

namespace Clipboard

variable {σ : Type} [FileSystem σ]

/-- The name and file of an image, if a file can be found. -/
def imageFile? (b : Bundle) (fs : σ) (name : Text) (known : Option Path) : Option (Text × Path) :=
  match known with
  | some path => some (name, path)
  | none =>
    match b.resolve fs name with
    | .ok path => some (name, path)
    | .error _ => none

/-- The images of a pattern: its own and the one of its mask. -/
def imagesOf (b : Bundle) (fs : σ) (p : Pattern) : List (Text × Path) :=
  if p.imageName = [] then []
  else
    (imageFile? b fs p.imageName p.resolvedPath).toList
      ++ match p.mask with
        | some (.image name) => (imageFile? b fs name none).toList
        | _ => []

/-- The images of a row of segments. -/
def imagesIn (b : Bundle) (fs : σ) (segments : List Segment) : List (Text × Path) :=
  segments.flatMap fun
    | .pattern p => imagesOf b fs p
    | _ => []

/-- The content of the clipboard for a range of a document. -/
def copy (d : Document) (lo hi : Nat) (b : Bundle) (fs : σ) :
    Except EditError ClipboardPayload := do
  let segments ← d.segmentsIn lo hi
  return ⟨Segment.joinText segments, .ofList (imagesIn b fs segments)⟩

/-- Copies a range and removes it. -/
def cut (d : Document) (lo hi : Nat) (b : Bundle) (fs : σ) :
    Except EditError (ClipboardPayload × Document) := do
  let payload ← copy d lo hi b fs
  let (_, d) ← d.removeRange lo hi
  return (payload, d)

/-- A part of a text to be replaced. -/
structure Replacement where
  start : Nat
  stop : Nat
  text : Text
deriving DecidableEq, Repr

/-- The text from byte `cursor` on with its replacements, which stand in order. -/
def replaceFrom (s : Text) (cursor : Nat) : List Replacement → Text
  | [] => Text.slice cursor (Text.byteLen s) s
  | r :: rs => Text.slice cursor r.start s ++ r.text ++ replaceFrom s r.stop rs

/-- The replacement for a string whose content is renamed. -/
def replacement? (renamed : Std.TreeMap Text Text) (t : Token) : Option Replacement := do
  let content ← t.content?
  let name ← renamed[content]?
  return ⟨t.offset + 1, t.stop - 1, name⟩

/-- Changes the content of every string that is renamed, at any depth, and nothing else. -/
def renameLiterals (s : Text) (renamed : Std.TreeMap Text Text) : Text :=
  replaceFrom s 0 ((deepTokens s).filterMap (replacement? renamed))

/-- Images that were put into a bundle, and the text to insert. -/
structure Prepared where
  text : Text
  placed : List Bundle.Placed
  /-- The new name of each image that got another one. -/
  renamed : Std.TreeMap Text Text

namespace Prepared

def empty : Prepared := ⟨[], [], ∅⟩

/-- Adds an image that was placed for a name. -/
def add (p : Prepared) (name : Text) (image : Bundle.Placed) : Prepared :=
  { p with
    placed := p.placed ++ [image]
    renamed := if image.name = name then p.renamed else p.renamed.insert name image.name }

/-- Removes every file that was copied. A file that cannot be removed is passed over. -/
def rollback (p : Prepared) (fs : σ) : σ :=
  (p.placed.filter (·.copied)).foldl (fun fs image =>
    match FileSystem.removeFile image.path fs with
    | .ok _ fs => fs
    | .error _ fs => fs) fs

end Prepared

/-- Puts images into a bundle one after another. Images whose file is gone are passed over; if one
fails, those copied before it are removed again. -/
def placeImages (b : Bundle) : List (Text × Path) → Prepared → EStateM BundleError σ Prepared
  | [], p => pure p
  | (name, source) :: rest, p => fun fs =>
    if FileSystem.has fs source then
      match b.copyInto source fs with
      | .ok image fs => placeImages b rest (p.add name image) fs
      | .error e fs => .error e (p.rollback fs)
    else placeImages b rest p fs

/-- Puts the images of a payload into a bundle and changes its text to their names there. -/
def prepare (payload : ClipboardPayload) (b : Bundle) : EStateM EditError σ Prepared := do
  let p ← (placeImages b payload.images.toList .empty).adaptExcept .bundle
  return { p with text := renameLiterals payload.text p.renamed }

/-- The range of positions that pasted content takes. -/
def pastedRange (pos : Nat) (before after : Document) : Nat × Nat :=
  (pos, pos + (after.len - before.len))

/-- Pastes into a document and recognizes the literals. -/
def paste (d : Document) (pos : Nat) (payload : ClipboardPayload) (b : Bundle) :
    EStateM EditError σ ((Nat × Nat) × Document) := do
  let p ← prepare payload b
  match d.insertText pos p.text with
  | .error e =>
    modify p.rollback
    throw e
  | .ok inserted =>
    let (_, reparsed) := inserted.reparse b (← get)
    return (pastedRange pos d reparsed, reparsed)

end Clipboard

end ImageScript
