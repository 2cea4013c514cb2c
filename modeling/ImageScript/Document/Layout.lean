import ImageScript.Widget.Segment

/-!
# Positions and offsets

A widget takes one position but as many bytes of the canonical text as its literal. These maps lead
from positions to byte offsets and back; an offset within the text of a widget leads to the position
before it or behind it.
-/

namespace ImageScript.Segment

/-- The byte offset of a position in the canonical text; positions past the end count as the end. -/
def offsetOf : List Segment → Nat → Nat
  | [], _ => 0
  | s :: rest, pos =>
    if pos < s.len then if s.isWidget then 0 else pos
    else s.textLen + offsetOf rest (pos - s.len)

/-- The position at a byte offset, or the start of the widget it falls in. -/
def posFloor : List Segment → Nat → Nat
  | [], _ => 0
  | s :: rest, offset =>
    if offset < s.textLen then if s.isWidget then 0 else offset
    else s.len + posFloor rest (offset - s.textLen)

/-- The position at a byte offset, or the position behind the widget it falls in. -/
def posCeil : List Segment → Nat → Nat
  | [], _ => 0
  | s :: rest, offset =>
    if offset < s.textLen then if s.isWidget then min offset 1 else offset
    else s.len + posCeil rest (offset - s.textLen)

end ImageScript.Segment
