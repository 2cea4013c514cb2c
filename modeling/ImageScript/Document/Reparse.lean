import ImageScript.Document.Basic
import ImageScript.Document.Extent
import ImageScript.Document.Layout

/-!
# Reparsing

Behind an edit, the lines that may have changed are read again and their segments built anew. A
widget that has the same text at the same offset as before is kept with its id and state.
-/

namespace ImageScript

/-- A row of segments replaced by another one. -/
structure Rebuilt where
  pos : Nat
  removed : List Segment
  inserted : List Segment
deriving DecidableEq

namespace Document

/-- The widgets of a row of segments with their offsets, the row beginning at `offset`. -/
def placedWidgets (offset : Nat) : List Segment → List (Nat × Segment)
  | [] => []
  | s :: rest =>
    let later := placedWidgets (offset + s.textLen) rest
    if s.isWidget then (offset, s) :: later else later

/-- Puts the old widget in the place of each new one with the same text at the same offset. -/
def keepIdentity (old : List (Nat × Segment)) (offset : Nat) : List Segment → List Segment
  | [] => []
  | s :: rest =>
    let kept :=
      if s.isWidget then
        match old.find? fun w => w.1 = offset ∧ w.2.toText = s.toText with
        | some w => w.2
        | none => s
      else s
    kept :: keepIdentity old (offset + s.textLen) rest

/-- The positions to be read again for a dirty range. -/
def rereadRange (d : Document) (lo hi : Nat) : Nat × Nat :=
  let e := Extent.widen d.text (Segment.offsetOf d.segments lo) (Segment.offsetOf d.segments hi)
  (Segment.posFloor d.segments e.start, Segment.posCeil d.segments e.stop)

variable {σ : Type} [FileSystem σ]

/-- Recognizes the literals of the dirty range. The ids of new widgets are taken in any case. -/
def reparse (d : Document) (b : Bundle) (fs : σ) : Option Rebuilt × Document :=
  match d.freshness with
  | .clean => (none, d)
  | .dirty lo hi =>
    let clean := d.markClean
    let (start, stop) := d.rereadRange lo hi
    match d.segmentsIn start stop with
    | .error _ => (none, clean)
    | .ok old =>
      let base := Segment.offsetOf d.segments start
      let (fresh, ids) :=
        Synthesis.segments b fs d.text base (Segment.offsetOf d.segments stop) d.ids
      let rebuilt := keepIdentity (placedWidgets base old) base fresh
      let clean := { clean with ids }
      if Segment.sameAll rebuilt old then (none, clean)
      else
        match d.splice? start stop rebuilt with
        | none => (none, clean)
        | some (_, segments) =>
          (some ⟨start, old, rebuilt⟩, { clean with segments, version := d.version + 1 })

end Document

end ImageScript
