import ImageScript.Codec.Widget
import ImageScript.Edit.Render
import ImageScript.Text.Lines

/-!
# Inspection

What is told of the segments of a script: for each its position, and what stands there.
-/

namespace ImageScript

namespace PatternState

/-- The sign of a state. -/
def sign : PatternState → Char
  | ready => '✓'
  | pendingCapture => '…'
  | notFound => '✗'

end PatternState

namespace Segment

/-- A position, with blanks before it up to six columns. -/
def column (pos : Nat) : Text :=
  let digits := Text.ofNat pos
  List.replicate (6 - digits.length) ' ' ++ digits

/-- The lines that tell of a segment at a position. -/
def report (pos : Nat) : Segment → List Text
  | text s =>
    ["  ".toList ++ column pos ++ "  text ".toList ++ Text.ofNat (Text.byteLen s)
      ++ " bytes, ".toList ++ Text.ofNat (max 1 (Text.lineCount s)) ++ " lines".toList]
  | pattern p =>
    ("  ".toList ++ column pos ++ "  pattern ".toList ++ p.state.sign :: ' ' :: p.label
      ++ "  ".toList ++ p.toText)
    :: match p.resolvedPath with
      | some path => ["          → ".toList ++ path.text]
      | none => []
  | region r => ["  ".toList ++ column pos ++ "  region ".toList ++ r.toText]

/-- The lines that tell of segments from a position on. -/
def reportAll : Nat → List Segment → List Text
  | _, [] => []
  | pos, s :: r => s.report pos ++ reportAll (pos + s.len) r

end Segment

namespace Document

def regions (d : Document) : List Region :=
  d.segments.filterMap fun
    | .region r => some r
    | _ => none

/-- The lines that tell of a document. -/
def report (d : Document) : List Text :=
  Segment.reportAll 0 d.segments
    ++ [[], "   Patterns: ".toList ++ Text.ofNat d.patterns.length,
      "   Regions:  ".toList ++ Text.ofNat d.regions.length]

/-- The segments as indented JSON. -/
def prettyJson (d : Document) : Text := Json.pretty (.array (d.segments.map Segment.toJson))

end Document

end ImageScript
