import ImageScript.Edit.Mutation

/-!
# History

The steps that can be undone and redone. A step is a batch of mutations with their inverses; a new
step forgets what was undone, and beyond the greatest depth the oldest step is forgotten. The
history also knows at which depth the document was saved, so that undoing back to it leaves nothing
to save.
-/

namespace ImageScript

/-- A mutation together with the one that takes it back. -/
structure Change where
  mutation : Mutation
  inverse : Mutation
deriving DecidableEq

/-- Changes that are undone and redone together, in the order they were made. -/
structure Batch where
  changes : List Change
  description : Option Text
deriving DecidableEq

namespace Batch

/-- Takes back all changes, the newest first. -/
def revert (b : Batch) (d : Document) : Document × Option EditError :=
  Mutation.applyAll (b.changes.reverse.map Change.inverse) d

/-- Makes all changes again. -/
def replay (b : Batch) (d : Document) : Document × Option EditError :=
  Mutation.applyAll (b.changes.map Change.mutation) d

def add (b : Batch) (c : Change) : Batch := { b with changes := b.changes ++ [c] }

end Batch

structure History where
  /-- The steps that can be undone, the newest first. -/
  undoable : List Batch
  /-- The steps that can be redone, the last undone first. -/
  redoable : List Batch
  /-- The greatest number of steps to undo; zero stands for no bound. -/
  maxLevels : Nat
  /-- The batch that is being built. -/
  building : Option Batch
  /-- The number of steps at the last save; `none` once they cannot be reached any more. -/
  savedAt : Option Nat
deriving DecidableEq

namespace History

def new (maxLevels : Nat) : History := ⟨[], [], maxLevels, none, some 0⟩

/-- Adds a step. -/
def push (h : History) (b : Batch) : History :=
  let depth := h.undoable.length
  let savedAt := h.savedAt.filter (· ≤ depth)
  let undoable := b :: h.undoable
  if 0 < h.maxLevels ∧ h.maxLevels < undoable.length then
    { h with
      undoable := undoable.dropLast
      redoable := []
      savedAt := savedAt.bind fun n => if n = 0 then none else some (n - 1) }
  else { h with undoable, redoable := [], savedAt }

/-- Records a change that was made: in the batch being built, or as a step of its own. -/
def record (h : History) (c : Change) : History :=
  match h.building with
  | some b => { h with building := some (b.add c) }
  | none => h.push ⟨[c], none⟩

/-- Begins a batch; one that is being built is forgotten. -/
def beginBatch (h : History) (description : Text) : History :=
  { h with building := some ⟨[], some description⟩ }

/-- Ends the batch that is being built; one without changes is no step. -/
def endBatch (h : History) : History :=
  match h.building with
  | some b =>
    let h := { h with building := none }
    if b.changes = [] then h else h.push b
  | none => h

/-- Gives up the batch that is being built and returns it. -/
def abandonBatch (h : History) : Option Batch × History :=
  (h.building, { h with building := none })

def markSaved (h : History) : History := { h with savedAt := some h.undoable.length }

/-- Whether there is something to save. -/
def isModified (h : History) : Bool := h.savedAt ≠ some h.undoable.length

/-- Forgets all steps; the present state counts as saved. -/
def clear (h : History) : History := new h.maxLevels

end History

/-- A document together with its history. -/
structure Draft where
  document : Document
  history : History
deriving DecidableEq

namespace Draft

/-- Makes a change and records it. -/
def apply (d : Draft) (m : Mutation) : Except EditError Draft := do
  let inverse ← m.inverse d.document
  let document ← m.apply d.document
  return ⟨document, d.history.record ⟨m, inverse⟩⟩

/-- Makes changes up to the first that fails. -/
def applyAll : List Mutation → Draft → Draft × Option EditError
  | [], d => (d, none)
  | m :: ms, d =>
    match d.apply m with
    | .ok d => applyAll ms d
    | .error e => (d, some e)

/-- Undoes the newest step and says whether there was one. A step that cannot be undone wholly is
forgotten. -/
def undo (d : Draft) : Draft × Except EditError Bool :=
  match d.history.undoable with
  | [] => (d, .ok false)
  | b :: rest =>
    match b.revert d.document with
    | (document, none) =>
      (⟨document, { d.history with undoable := rest, redoable := b :: d.history.redoable }⟩,
        .ok true)
    | (document, some e) => (⟨document, { d.history with undoable := rest }⟩, .error e)

/-- Makes the step that was undone last again and says whether there was one. -/
def redo (d : Draft) : Draft × Except EditError Bool :=
  match d.history.redoable with
  | [] => (d, .ok false)
  | b :: rest =>
    match b.replay d.document with
    | (document, none) =>
      (⟨document, { d.history with undoable := b :: d.history.undoable, redoable := rest }⟩,
        .ok true)
    | (document, some e) => (⟨document, { d.history with redoable := rest }⟩, .error e)

end Draft

end ImageScript
