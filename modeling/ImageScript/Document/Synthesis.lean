import ImageScript.Bundle.Resolve
import ImageScript.Script.Recognition
import ImageScript.Widget.Segment

/-!
# Synthesis

Recognized literals become widgets where their image is a file of the bundle; everything else stays
text. The segments of a range cover its text exactly.
-/

namespace ImageScript.Synthesis

variable {σ : Type} [FileSystem σ]

/-- The name within the bundle that an image literal stands for. -/
def widgetName? (b : Bundle) (image : Text) : Option Text :=
  if Path.isAbsolute ⟨image⟩ then
    if b.contains ⟨image⟩ then Path.fileName? ⟨image⟩ else none
  else if ImageName.isLeaf image then some image
  else none

/-- The widget of an image literal, if its image is there. An id is taken only for a widget. -/
def pattern? (b : Bundle) (fs : σ) (l : PatternLiteral) (ids : IdSource) :
    Option Segment × IdSource :=
  match widgetName? b l.image with
  | none => (none, ids)
  | some name =>
    match b.resolve fs name with
    | .error _ => (none, ids)
    | .ok path =>
      let (id, ids) := ids.next .pattern
      (some (.pattern { Pattern.ofLiteral id name l with resolvedPath := some path }), ids)

/-- A widget that waits for a capture. -/
def placeholder (ids : IdSource) : Segment × IdSource :=
  let (id, ids) := ids.next .pattern
  (.pattern (.pendingCapture id), ids)

/-- The widget of a recognized literal. -/
def widget? (b : Bundle) (fs : σ) (l : Literal) (ids : IdSource) : Option Segment × IdSource :=
  match l with
  | .marker =>
    let (s, ids) := placeholder ids
    (some s, ids)
  | .region r =>
    let (id, ids) := ids.next .region
    (some (.region (.ofLiteral id r)), ids)
  | .chain p => pattern? b fs p ids
  | .fileName name => pattern? b fs (.bare name) ids

/-- A run of text, or nothing for no text. -/
def run (s : Text) : List Segment := if s = [] then [] else [.text s]

/-- The segments from byte `cursor` to byte `hi`, given the literals between them. -/
def build (b : Bundle) (fs : σ) (s : Text) (hi : Nat) :
    Nat → List Match → IdSource → List Segment × IdSource
  | cursor, [], ids => (run (Text.slice cursor hi s), ids)
  | cursor, m :: ms, ids =>
    match widget? b fs m.literal ids with
    | (none, ids) => build b fs s hi cursor ms ids
    | (some w, ids) =>
      let (rest, ids) := build b fs s hi m.stop ms ids
      (run (Text.slice cursor m.start s) ++ w :: rest, ids)

/-- The segments of the bytes `lo` to `hi` of a text. -/
def segments (b : Bundle) (fs : σ) (s : Text) (lo hi : Nat) (ids : IdSource) :
    List Segment × IdSource :=
  build b fs s hi lo (recognize s lo hi) ids

/-- The segments of a whole text. -/
def allSegments (b : Bundle) (fs : σ) (s : Text) (ids : IdSource) : List Segment × IdSource :=
  segments b fs s 0 (Text.byteLen s) ids

end ImageScript.Synthesis
