import ImageScript.Widget.Pattern

/-!
# Options

The preferences of the editor.
-/

namespace ImageScript

inductive RenderMode where
  | thumbnails
  | labels
  | plainText
deriving DecidableEq, Repr

structure EditorOptions where
  /-- Thumbnails instead of labels. -/
  showThumbs : Bool
  /-- No widgets at all. -/
  plainText : Bool
  cleanBundleOnSave : Bool
  matchLimit : UInt64
  captureDelayMs : UInt64
deriving DecidableEq, Repr

namespace EditorOptions

def default : EditorOptions := ⟨true, false, true, Pattern.defaultMatchLimit, 500⟩

def renderMode (o : EditorOptions) : RenderMode :=
  if o.plainText then .plainText else if o.showThumbs then .thumbnails else .labels

end EditorOptions

end ImageScript
