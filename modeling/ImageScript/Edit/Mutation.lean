import ImageScript.Document.Basic

/-!
# Mutations

Every edit that can be undone is a mutation. A mutation is valid for a document or not, and where it
is, it has an inverse there that takes the document back.
-/

namespace ImageScript

inductive Mutation where
  | insertText (pos : Nat) (text : Text)
  | removeRange (start stop : Nat)
  /-- Puts segments back as they were, ids included. -/
  | insertSegments (pos : Nat) (segments : List Segment)
  /-- Sets every attribute of a pattern but its id. -/
  | updatePattern (id : Text) (pattern : Pattern)
  /-- Puts another pattern with an id of its own in the place of one. -/
  | replacePattern (id : Text) (pattern : Pattern)
  /-- Sets every attribute of a region but its id. -/
  | updateRegion (id : Text) (region : Region)
deriving DecidableEq

namespace Mutation

def name : Mutation → String
  | insertText .. => "insert text"
  | removeRange .. => "remove range"
  | insertSegments .. => "insert segments"
  | updatePattern .. => "update pattern"
  | replacePattern .. => "replace pattern"
  | updateRegion .. => "update region"

/-- Whether a mutation fits a document: its position, range or widget has to be there. -/
def validate (m : Mutation) (d : Document) : Except EditError Unit :=
  match m with
  | insertText pos _ | insertSegments pos _ =>
    if d.len < pos then .error (d.invalid pos) else .ok ()
  | removeRange start stop => (d.segmentsIn start stop).map fun _ => ()
  | updatePattern id _ | replacePattern id _ => (d.findPattern id).map fun _ => ()
  | updateRegion id _ => (d.findRegion id).map fun _ => ()

/-- The document behind a mutation. -/
def apply (m : Mutation) (d : Document) : Except EditError Document := do
  m.validate d
  match m with
  | insertText pos text => d.insertText pos text
  | removeRange start stop => (d.removeRange start stop).map Prod.snd
  | insertSegments pos segments => d.insertSegments pos segments
  | updatePattern id pattern => (d.updatePattern id (Pattern.assign pattern)).map Prod.snd
  | replacePattern id pattern => (d.replacePattern id pattern).map Prod.snd
  | updateRegion id region => (d.updateRegion id (Region.assign region)).map Prod.snd

/-- The mutation that takes back this one, made before it is applied. -/
def inverse (m : Mutation) (d : Document) : Except EditError Mutation := do
  m.validate d
  match m with
  | insertText pos text => return removeRange pos (pos + Text.byteLen text)
  | removeRange start stop => return insertSegments start (← d.segmentsIn start stop)
  | insertSegments pos segments => return removeRange pos (pos + Segment.totalLen segments)
  | updatePattern id _ => return updatePattern id (← d.findPattern id)
  | replacePattern id pattern => return replacePattern pattern.id (← d.findPattern id)
  | updateRegion id _ => return updateRegion id (← d.findRegion id)

/-- Applies mutations in order up to the first that fails. -/
def applyAll : List Mutation → Document → Document × Option EditError
  | [], d => (d, none)
  | m :: ms, d =>
    match m.apply d with
    | .ok d => applyAll ms d
    | .error e => (d, some e)

end Mutation

end ImageScript
