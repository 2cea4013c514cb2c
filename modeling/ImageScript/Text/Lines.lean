import ImageScript.Text.Offset

/-!
# Lines

Lines end at a line feed. `lineNumber` counts from one; `LineCursor` gives the same numbers for
offsets visited one after another, and counts only the line feeds between two visits.
-/

namespace ImageScript.Text

/-- The line feeds whose byte lies at `lo` or after and before `hi`. -/
def breaksBetween : Text → Nat → Nat → Nat
  | [], _, _ => 0
  | c :: r, lo, hi =>
    (if c = '\n' ∧ lo = 0 ∧ 0 < hi then 1 else 0)
      + breaksBetween r (lo - c.utf8Size) (hi - c.utf8Size)

/-- The number of the line an offset lies on; an offset past the end counts as the end. -/
def lineNumber (s : Text) (offset : Nat) : Nat :=
  breaksBetween s 0 (min offset (byteLen s)) + 1

/-- The offset behind the last line feed before `offset`, or zero. -/
def lineStart : Text → Nat → Nat
  | [], _ => 0
  | c :: r, offset =>
    if offset < c.utf8Size then 0
    else
      let later := lineStart r (offset - c.utf8Size)
      if 0 < later then c.utf8Size + later
      else if c = '\n' then c.utf8Size else 0

/-- The offset of the first line feed at or after `offset`, or the length of the text. -/
def lineStop : Text → Nat → Nat
  | [], _ => 0
  | c :: r, offset =>
    if c = '\n' ∧ offset = 0 then 0 else c.utf8Size + lineStop r (offset - c.utf8Size)

/-- The number of lines, where a line feed at the very end opens no further line. -/
def lineCount (s : Text) : Nat :=
  s.count '\n' + if s = [] ∨ s.getLast? = some '\n' then 0 else 1

/-- A place in a text together with the number of its line. -/
structure LineCursor where
  text : Text
  offset : Nat
  line : Nat

namespace LineCursor

def start (s : Text) : LineCursor := ⟨s, 0, 1⟩

/-- Moves to another offset; going back starts over at the first line. -/
def moveTo (l : LineCursor) (offset : Nat) : LineCursor :=
  let target := min offset (byteLen l.text)
  if target < l.offset then
    { l with offset := target, line := 1 + breaksBetween l.text 0 target }
  else
    { l with offset := target, line := l.line + breaksBetween l.text l.offset target }

end LineCursor

end ImageScript.Text
