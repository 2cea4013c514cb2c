import ImageScript.Document.Basic
import ImageScript.Edit.Options

/-!
# Rendering

What a view draws for each segment of a document.
-/

namespace ImageScript

inductive RenderItem where
  | text (s : Text)
  | thumbnail (path : Path) (badge : Option Text)
  | label (text : Text)
  | captureButton
  | notFound (name : Text)
  | region (text : Text)
deriving DecidableEq, Repr

namespace Pattern

/-- The similarity in hundredths, within the bounds of a 64-bit number. -/
def hundredths (p : Pattern) : Int :=
  Decimal.truncate (-0x8000000000000000) 0x7fffffffffffffff
    (Decimal.roundHalfAway (p.similarity * 100))

/-- What is shown of the similarity and the offset where they are not the defaults. -/
def hint (p : Pattern) : Text :=
  (if p.similarity == defaultSimilarity then [] else " .".toList ++ Text.ofInt p.hundredths)
    ++ if p.targetOffset = (0, 0) then []
      else
        " (".toList ++ Text.ofInt p.targetOffset.1.toInt ++ ',' :: Text.ofInt p.targetOffset.2.toInt
          ++ ")".toList

/-- The label of a pattern: `btn .90 (5,-3)`. -/
def label (p : Pattern) : Text :=
  (match Text.splitLast? '.' p.imageName with
    | some (stem, _) => if stem = [] then p.imageName else stem
    | none => p.imageName)
    ++ p.hint

/-- What is drawn for a pattern. -/
def render (p : Pattern) (mode : RenderMode) : RenderItem :=
  match p.state, p.resolvedPath with
  | .pendingCapture, _ => .captureButton
  | .notFound, _ | .ready, none => .notFound p.imageName
  | .ready, some path =>
    match mode with
    | .labels => .label p.label
    | _ => .thumbnail path (if p.hint = [] then none else some (p.hint.dropWhile (· = ' ')))

end Pattern

/-- What is drawn for a document. -/
def Document.render (d : Document) (mode : RenderMode) : List RenderItem :=
  match mode with
  | .plainText => [.text d.text]
  | _ =>
    d.segments.map fun
      | .text s => .text s
      | .pattern p => p.render mode
      | .region r => .region r.toText

end ImageScript
