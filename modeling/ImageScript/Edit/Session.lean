import ImageScript.Bundle.Cleanup
import ImageScript.Edit.Clipboard
import ImageScript.Edit.History
import ImageScript.Edit.Render
import ImageScript.Worker.Event

/-!
# Sessions

One open script: its bundle, its document with the history, and the options. Every text edit is
followed by a reparse, and what the reparse rebuilds belongs to the same step of the history.
-/

namespace ImageScript

structure Session where
  bundle : Bundle
  draft : Draft
  options : EditorOptions
deriving DecidableEq

/-- A session and the files it works on. -/
structure Desk (σ : Type) where
  session : Session
  files : σ

/-- What a save did. -/
structure SaveReport where
  path : Path
  cleanup : Option CleanupReport
deriving DecidableEq, Repr

namespace Rebuilt

/-- The two changes by which the history knows a rebuilt range: out with the old segments, and in
with the new ones. -/
def changes (r : Rebuilt) : List Change :=
  let removal (row : List Segment) := Mutation.removeRange r.pos (r.pos + Segment.totalLen row)
  [⟨removal r.removed, .insertSegments r.pos r.removed⟩,
    ⟨.insertSegments r.pos r.inserted, removal r.inserted⟩]

end Rebuilt

namespace Draft

variable {σ : Type} [FileSystem σ]

/-- Reads the changed lines again and records what was rebuilt. -/
def reparse (d : Draft) (b : Bundle) (fs : σ) : Draft :=
  let (rebuilt, document) := d.document.reparse b fs
  ⟨document, ((rebuilt.map Rebuilt.changes).getD []).foldl History.record d.history⟩

/-- Makes mutations and reparses, all in one step. If one mutation fails, those before it are
taken back. -/
def edit (d : Draft) (description : Text) (ms : List Mutation) (b : Bundle) (fs : σ) :
    Draft × Option EditError :=
  match applyAll ms { d with history := d.history.beginBatch description } with
  | (d, none) =>
    let d := d.reparse b fs
    ({ d with history := d.history.endBatch }, none)
  | (d, some e) =>
    let (batch, history) := d.history.abandonBatch
    match (batch.getD ⟨[], none⟩).revert d.document with
    | (document, none) => (⟨document.markClean, history⟩, some e)
    | (document, some e) => (⟨document, history⟩, some e)

end Draft

namespace Session

/-- How many steps a session can undo. -/
def undoLevels : Nat := 100

variable {σ : Type} [FileSystem σ]

/-- The text of a bundle's script; a script that is missing is empty. -/
def scriptText (b : Bundle) (fs : σ) : Except BundleError Text :=
  if FileSystem.has fs b.script then b.readScript fs else .ok []

/-- Opens the script of a bundle. -/
def load (b : Bundle) (options : EditorOptions) (fs : σ) : Except EditError Session := do
  let text ← (scriptText b fs).mapError .bundle
  return ⟨b, ⟨.ofText text b fs, .new undoLevels⟩, options⟩

def document (s : Session) : Document := s.draft.document

/-- Whether there is something to save. -/
def isModified (s : Session) : Bool := s.draft.history.isModified

def render (s : Session) : List RenderItem := s.document.render s.options.renderMode

/-- Changes the document by one step of text edits. -/
def edit (description : String) (ms : List Mutation) : EStateM EditError (Desk σ) Unit :=
  fun desk =>
    let s := desk.session
    match s.draft.edit description.toList ms s.bundle desk.files with
    | (draft, none) => .ok () { desk with session := { s with draft } }
    | (draft, some e) => .error e { desk with session := { s with draft } }

def insertText (pos : Nat) (text : Text) : EStateM EditError (Desk σ) Unit :=
  edit "Typing" [.insertText pos text]

def removeRange (lo hi : Nat) : EStateM EditError (Desk σ) Unit :=
  edit "Delete" [.removeRange lo hi]

def replaceRange (lo hi : Nat) (text : Text) : EStateM EditError (Desk σ) Unit :=
  edit "Replace" [.removeRange lo hi, .insertText lo text]

/-- Changes the session and leaves the files alone. -/
def onDraft {α : Type} (f : Draft → Draft × Except EditError α) :
    EStateM EditError (Desk σ) α := fun desk =>
  match f desk.session.draft with
  | (draft, .ok a) => .ok a { desk with session := { desk.session with draft } }
  | (draft, .error e) => .error e { desk with session := { desk.session with draft } }

/-- Makes a widget that waits for a capture; its id is taken in any case. -/
def newPlaceholder : Draft → Draft × Except EditError (Text × Segment) := fun d =>
  let (segment, ids) := Synthesis.placeholder d.document.ids
  ({ d with document := { d.document with ids } }, .ok (segment.id?.getD [], segment))

/-- Inserts a widget that waits for a capture and returns its id. -/
def insertCapture (pos : Nat) : EStateM EditError (Desk σ) Text := do
  let (id, segment) ← onDraft newPlaceholder
  edit "Insert capture" [.insertSegments pos [segment]]
  return id

/-- Makes a change of a widget as one step, if it changes anything. -/
def applyUpdate (id : Text) (update : Document → Option (Bool × Mutation)) (d : Draft) :
    Draft × Except EditError Bool :=
  match update d.document with
  | none => (d, .error (.segmentNotFound id))
  | some (false, _) => (d, .ok false)
  | some (true, m) =>
    match d.apply m with
    | .ok d => (d, .ok true)
    | .error e => (d, .error e)

/-- Changes the attributes of a pattern and says whether anything changed. -/
def updatePattern (id : Text) (f : Pattern → Bool × Pattern) : EStateM EditError (Desk σ) Bool :=
  onDraft <| applyUpdate id fun d => (d.pattern? id).map fun p =>
    let (changed, q) := f p
    (changed, .updatePattern id q)

/-- Changes the attributes of a region and says whether anything changed. -/
def updateRegion (id : Text) (f : Region → Bool × Region) : EStateM EditError (Desk σ) Bool :=
  onDraft <| applyUpdate id fun d => (d.region? id).map fun r =>
    let (changed, q) := f r
    (changed, .updateRegion id q)

/-- Puts a new widget in the place of a pattern and returns its id, which is taken in any case. -/
def replacePattern (id : Text) (p : Pattern) : EStateM EditError (Desk σ) Text :=
  onDraft fun d =>
    let (newId, document) := d.document.newId .pattern
    let d := { d with document }
    match d.apply (.replacePattern id { p with id := newId }) with
    | .ok d => (d, .ok newId)
    | .error e => (d, .error e)

def copy (lo hi : Nat) : EStateM EditError (Desk σ) ClipboardPayload := fun desk =>
  match Clipboard.copy desk.session.document lo hi desk.session.bundle desk.files with
  | .ok payload => .ok payload desk
  | .error e => .error e desk

/-- Copies a range and removes it. -/
def cut (lo hi : Nat) : EStateM EditError (Desk σ) ClipboardPayload := do
  let payload ← copy lo hi
  edit "Cut" [.removeRange lo hi]
  return payload

/-- Runs an action on the files alone. -/
def onFiles {α : Type} (action : EStateM EditError σ α) : EStateM EditError (Desk σ) α :=
  fun desk =>
    match action desk.files with
    | .ok a files => .ok a { desk with files }
    | .error e files => .error e { desk with files }

/-- Pastes at a position and returns the range that the content takes. -/
def paste (pos : Nat) (payload : ClipboardPayload) : EStateM EditError (Desk σ) (Nat × Nat) := do
  let before := (← get).session
  if before.document.len < pos then throw (before.document.invalid pos)
  let p ← onFiles (Clipboard.prepare payload before.bundle)
  fun desk =>
    match edit "Paste" [.insertText pos p.text] desk with
    | .ok _ desk => .ok (Clipboard.pastedRange pos before.document desk.session.document) desk
    | .error e desk => .error e { desk with files := p.rollback desk.files }

/-- A step of the history; where it succeeds, no literal is left to recognize. -/
def travel (f : Draft → Draft × Except EditError Bool) : EStateM EditError (Desk σ) Bool :=
  onDraft fun d =>
    match f d with
    | (d, .ok done) => ({ d with document := d.document.markClean }, .ok done)
    | (d, .error e) => (d, .error e)

def undo : EStateM EditError (Desk σ) Bool := travel Draft.undo

def redo : EStateM EditError (Desk σ) Bool := travel Draft.redo

/-- The first name from `name` on that is free in a bundle, among `steps` names after it. -/
def freeImage (b : Bundle) (fs : σ) : Nat → Text → Path
  | 0, name => b.imagePath name
  | steps + 1, name =>
    if FileSystem.has fs (b.imagePath name) then freeImage b fs steps (ImageName.next name)
    else b.imagePath name

/-- Where a new capture is to be stored. -/
def captureTarget (s : Session) (fs : σ) : Path :=
  freeImage s.bundle fs (FileSystem.size fs) "capture.png".toList

/-- Applies the result of a capture to its widget; all other events change nothing. -/
def receive (e : WorkerEvent) : EStateM EditError (Desk σ) Bool := do
  let b := (← get).session.bundle
  match e with
  | .captureDone id path =>
    match path.fileName?.filter fun _ => b.contains path with
    | none => updatePattern id (Pattern.setState .notFound)
    | some name =>
      updatePattern id fun p =>
        let (renamed, p) := p.setImage name (some path)
        let (ready, p) := p.setState .ready
        (ready || renamed, p)
  | .captureFailed id _ => updatePattern id (Pattern.setState .notFound)
  | _ => return false

/-- Writes the script, and cleans up the bundle where the options say so. -/
def save : EStateM EditError (Desk σ) SaveReport := do
  let s := (← get).session
  let text := s.document.text
  onFiles ((s.bundle.writeScript text).adaptExcept .bundle)
  let cleanup ←
    if s.options.cleanBundleOnSave then
      some <$> onFiles ((s.bundle.cleanUp text).adaptExcept .bundle)
    else pure none
  onDraft fun d => ({ d with history := d.history.markSaved }, .ok ())
  return ⟨s.bundle.script, cleanup⟩

/-- Makes another bundle active, opens its script and returns the bundle that was left. -/
def switchBundle (next : Bundle) : EStateM EditError (Desk σ) Bundle := fun desk =>
  match scriptText next desk.files with
  | .error e => .error (.bundle e) desk
  | .ok text =>
    let s := desk.session
    let (left, bundle, files) := next.activate (s.bundle, desk.files)
    .ok left
      ⟨{ s with
          bundle
          draft := ⟨.ofText text bundle files, s.draft.history.clear⟩ }, files⟩

end Session

end ImageScript
