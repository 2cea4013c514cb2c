import ImageScript.Files.Path

/-!
# Worker events

What background work reports to the editor.
-/

namespace ImageScript

/-- A place on the screen where an image was found. -/
structure ScreenMatch where
  x : Int32
  y : Int32
  w : Int32
  h : Int32
  score : Float
deriving DecidableEq, Repr

inductive WorkerEvent where
  | captureDone (patternId : Text) (path : Path)
  | captureCancelled (patternId : Text)
  | captureFailed (patternId : Text) (error : Text)
  | preview (generation : Nat) (patternId : Text) (found : List ScreenMatch)
  | previewFailed (generation : Nat) (patternId : Text) (error : Text)
deriving DecidableEq, Repr

/-- The preview an event belongs to. -/
def WorkerEvent.generation? : WorkerEvent → Option Nat
  | preview g _ _ | previewFailed g _ _ => some g
  | _ => none

end ImageScript
