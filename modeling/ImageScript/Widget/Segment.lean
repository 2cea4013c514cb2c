import ImageScript.Widget.Id
import ImageScript.Widget.Pattern
import ImageScript.Widget.Region

/-!
# Segments

A document is a row of segments: runs of text, and widgets. A run takes as many positions as it has
bytes, a widget takes one.
-/

namespace ImageScript

inductive Segment where
  | text (s : Text)
  | pattern (p : Pattern)
  | region (r : Region)
deriving DecidableEq

namespace Segment

/-- The positions a segment takes. -/
def len : Segment → Nat
  | text s => Text.byteLen s
  | pattern _ | region _ => 1

def isWidget : Segment → Bool
  | text _ => false
  | pattern _ | region _ => true

def id? : Segment → Option Text
  | text _ => none
  | pattern p => some p.id
  | region r => some r.id

/-- The canonical script text. -/
def toText : Segment → Text
  | text s => s
  | pattern p => p.toText
  | region r => r.toText

/-- The bytes of the canonical text. -/
def textLen (s : Segment) : Nat := Text.byteLen s.toText

/-- Equality up to the spelling of paths and the sign of zero. -/
def same : Segment → Segment → Bool
  | text a, text b => a = b
  | pattern p, pattern q => p.same q
  | region r, region s => r = s
  | _, _ => false

/-- The positions of a row of segments. -/
def totalLen : List Segment → Nat
  | [] => 0
  | s :: r => s.len + totalLen r

/-- The canonical text of a row of segments. -/
def joinText (segments : List Segment) : Text := segments.flatMap toText

/-- Whether two rows of segments are the same one by one. -/
def sameAll : List Segment → List Segment → Bool
  | [], [] => true
  | a :: as, b :: bs => same a b && sameAll as bs
  | _, _ => false

/-- Puts a segment before a row: an empty run vanishes, and two runs become one. -/
def attach : Segment → List Segment → List Segment
  | text a, rest =>
    if a = [] then rest
    else match rest with
      | text b :: rest => text (a ++ b) :: rest
      | rest => text a :: rest
  | widget, rest => widget :: rest

/-- Merges adjacent runs and drops empty ones. -/
def normalize (segments : List Segment) : List Segment := segments.foldr attach []

end Segment

end ImageScript
