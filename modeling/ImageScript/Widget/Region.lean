import ImageScript.Script.Literal

/-!
# Region widgets

A rectangle of the screen, with or without the mark of an offset.
-/

namespace ImageScript

structure Region where
  id : Text
  x : Int32
  y : Int32
  w : Int32
  h : Int32
  asOffset : Bool
deriving DecidableEq, Repr

namespace Region

def ofLiteral (id : Text) (l : RegionLiteral) : Region := ⟨id, l.x, l.y, l.w, l.h, l.asOffset⟩

def setRect (x y w h : Int32) (r : Region) : Bool × Region :=
  if r.x = x ∧ r.y = y ∧ r.w = w ∧ r.h = h then (false, r)
  else (true, { r with x, y, w, h })

def setAsOffset (asOffset : Bool) (r : Region) : Bool × Region :=
  if r.asOffset = asOffset then (false, r) else (true, { r with asOffset })

/-- Takes every attribute of another region but its id. -/
def assign (other r : Region) : Bool × Region :=
  let updated := { other with id := r.id }
  (r ≠ updated, updated)

/-- The canonical script text. -/
def toText (r : Region) : Text :=
  "Region(".toList ++ Text.ofInt r.x.toInt ++ ',' :: Text.ofInt r.y.toInt ++ ','
    :: Text.ofInt r.w.toInt ++ ',' :: Text.ofInt r.h.toInt ++ ")".toList
    ++ if r.asOffset then ".asOffset()".toList else []

end Region

end ImageScript
