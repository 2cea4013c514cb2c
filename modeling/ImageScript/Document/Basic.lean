import ImageScript.Bundle.Basic
import ImageScript.Document.Synthesis

/-!
# Documents

A document is a row of segments. Text edits note the range of positions in which literals may stand
that are not recognized yet; positions may cut a run of text only between two characters.
-/

namespace ImageScript

/-- Why an edit is refused. -/
inductive EditError where
  | invalidPosition (pos len : Nat)
  | invalidRange (start stop : Nat)
  | segmentNotFound (id : Text)
  | notAPattern (id : Text)
  | notARegion (id : Text)
  | bundle (cause : BundleError)
deriving DecidableEq, Repr

def EditError.message : EditError → Text
  | invalidPosition pos len =>
    "Invalid position ".toList ++ Text.ofNat pos ++ " (document length ".toList ++ Text.ofNat len
      ++ ")".toList
  | invalidRange start stop =>
    "Invalid range ".toList ++ Text.ofNat start ++ "..".toList ++ Text.ofNat stop
  | segmentNotFound id => "Segment not found: ".toList ++ id
  | notAPattern id => "Segment ".toList ++ id ++ " is not a pattern".toList
  | notARegion id => "Segment ".toList ++ id ++ " is not a region".toList
  | bundle cause => "Bundle error: ".toList ++ cause.message

/-- The positions between which a document may hold literals that are not recognized. -/
inductive Freshness where
  | clean
  | dirty (lo hi : Nat)
deriving DecidableEq, Repr

structure Document where
  segments : List Segment
  ids : IdSource
  freshness : Freshness
  /-- Counts the changes. -/
  version : Nat
deriving DecidableEq

namespace Segment

/-- Cuts a row of segments at a position; `none` behind the end and within a character. -/
def splitAt? : Nat → List Segment → Option (List Segment × List Segment)
  | 0, segments => some ([], segments)
  | _ + 1, [] => none
  | n + 1, s :: rest =>
    if s.len ≤ n + 1 then
      (splitAt? (n + 1 - s.len) rest).map fun (a, b) => (s :: a, b)
    else
      match s with
      | text t => (Text.splitAt? (n + 1) t).map fun (a, b) => ([text a], text b :: rest)
      | _ => none

/-- Copies of the segments between two positions, runs clipped; `none` where a run cannot be cut.
A range without length inside a run gives an empty run. -/
def clip? : Nat → Nat → List Segment → Option (List Segment)
  | _, _, [] => some []
  | lo, hi, s :: rest =>
    if s.len ≤ lo then clip? (lo - s.len) (hi - s.len) rest
    else if hi = 0 then some []
    else
      match s with
      | text t =>
        match Text.slice? lo (min hi s.len) t, clip? 0 (hi - s.len) rest with
        | some part, some parts => some (text part :: parts)
        | _, _ => none
      | widget => (clip? 0 (hi - s.len) rest).map (widget :: ·)

/-- The position of the first widget with an id. -/
def positionOf? (id : Text) : List Segment → Option Nat
  | [] => none
  | s :: rest => if s.id? = some id then some 0 else (positionOf? id rest).map (s.len + ·)

/-- Replaces the first widget with an id by what `f` makes of it. -/
def replaceFirst (id : Text) (f : Segment → Segment) : List Segment → List Segment
  | [] => []
  | s :: rest => if s.id? = some id then f s :: rest else s :: replaceFirst id f rest

end Segment

namespace Document

variable {σ : Type} [FileSystem σ]

/-- An empty document whose ids belong to a script. -/
def new (script : Text) : Document := ⟨[], .ofScript script, .clean, 0⟩

/-- The document of a script text in a bundle. -/
def ofText (s : Text) (b : Bundle) (fs : σ) : Document :=
  let empty := new b.script.text
  let (segments, ids) := Synthesis.allSegments b fs s empty.ids
  { empty with segments, ids }

def ofSegments (script : Text) (segments : List Segment) : Document :=
  { new script with segments := Segment.normalize segments }

/-- The number of positions. -/
def len (d : Document) : Nat := Segment.totalLen d.segments

/-- The canonical text. -/
def text (d : Document) : Text := Segment.joinText d.segments

def markClean (d : Document) : Document := { d with freshness := .clean }

/-- Hands out a new id. -/
def newId (d : Document) (kind : WidgetKind) : Text × Document :=
  let (id, ids) := d.ids.next kind
  (id, { d with ids })

def invalid (d : Document) (pos : Nat) : EditError := .invalidPosition pos d.len

/-- The error of a range that is no range of positions. -/
def rangeError? (d : Document) (lo hi : Nat) : Option EditError :=
  if hi < lo then some (.invalidRange lo hi) else if d.len < hi then some (d.invalid hi) else none

/-- Copies of the segments between two positions. -/
def segmentsIn (d : Document) (lo hi : Nat) : Except EditError (List Segment) :=
  match d.rangeError? lo hi with
  | some e => .error e
  | none =>
    match Segment.clip? lo hi d.segments with
    | some parts => .ok parts
    | none =>
      .error (d.invalid (if (Segment.splitAt? lo d.segments).isSome then hi else lo))

end Document

namespace Freshness

/-- Takes a range of positions into the dirty range. -/
def touch (lo hi : Nat) : Freshness → Freshness
  | clean => dirty lo hi
  | dirty a b => dirty (min a lo) (max b hi)

/-- The dirty range behind an insertion of `n` positions at `pos`. -/
def shiftInsert (pos n : Nat) : Freshness → Freshness
  | clean => clean
  | dirty a b => dirty (if pos ≤ a then a + n else a) (if pos ≤ b then b + n else b)

/-- A position behind the removal of a range. -/
def shiftBack (lo hi x : Nat) : Nat :=
  if hi ≤ x then x - (hi - lo) else if lo < x then lo else x

/-- The dirty range behind a removal. -/
def shiftRemove (lo hi : Nat) : Freshness → Freshness
  | clean => clean
  | dirty a b => dirty (shiftBack lo hi a) (shiftBack lo hi b)

end Freshness

namespace Document

/-- Puts segments between two positions that can be cut. -/
def splice? (d : Document) (lo hi : Nat) (inserted : List Segment) :
    Option (List Segment × List Segment) := do
  let (before, rest) ← Segment.splitAt? lo d.segments
  let (removed, after) ← Segment.splitAt? (hi - lo) rest
  return (removed, Segment.normalize (before ++ inserted ++ after))

/-- Inserts text; no text may be inserted anywhere. -/
def insertText (d : Document) (pos : Nat) (s : Text) : Except EditError Document :=
  if s = [] then .ok d
  else
    match d.splice? pos pos [.text s] with
    | none => .error (d.invalid pos)
    | some (_, segments) =>
      let n := Text.byteLen s
      .ok { d with
        segments
        freshness := (d.freshness.shiftInsert pos n).touch pos (pos + n)
        version := d.version + 1 }

/-- Inserts segments as they are; widgets keep their ids. -/
def insertSegments (d : Document) (pos : Nat) (inserted : List Segment) :
    Except EditError Document :=
  if inserted = [] then .ok d
  else
    match d.splice? pos pos inserted with
    | none => .error (d.invalid pos)
    | some (_, segments) =>
      .ok { d with
        segments
        freshness := d.freshness.shiftInsert pos (Segment.totalLen inserted)
        version := d.version + 1 }

/-- Removes what stands between two positions and returns it. -/
def removeRange (d : Document) (lo hi : Nat) : Except EditError (List Segment × Document) :=
  match d.rangeError? lo hi with
  | some e => .error e
  | none =>
    if lo = hi then .ok ([], d)
    else
      match d.segmentsIn lo hi, d.splice? lo hi [] with
      | .error e, _ => .error e
      | .ok _, none => .error (d.invalid lo)
      | .ok _, some (removed, segments) =>
        .ok (removed, { d with
          segments
          freshness := (d.freshness.shiftRemove lo hi).touch lo lo
          version := d.version + 1 })

/-- Replaces what stands between two positions by text. -/
def replaceRange (d : Document) (lo hi : Nat) (s : Text) :
    Except EditError (List Segment × Document) := do
  let (removed, d) ← d.removeRange lo hi
  let d ← d.insertText lo s
  return (removed, d)

/-- The widget with an id. -/
def widget? (d : Document) (id : Text) : Option Segment := d.segments.find? (·.id? = some id)

def pattern? (d : Document) (id : Text) : Option Pattern :=
  match d.widget? id with
  | some (.pattern p) => some p
  | _ => none

def region? (d : Document) (id : Text) : Option Region :=
  match d.widget? id with
  | some (.region r) => some r
  | _ => none

def positionOf? (d : Document) (id : Text) : Option Nat := Segment.positionOf? id d.segments

def patterns (d : Document) : List Pattern :=
  d.segments.filterMap fun
    | .pattern p => some p
    | _ => none

/-- The pattern with an id, or why there is none. -/
def findPattern (d : Document) (id : Text) : Except EditError Pattern :=
  match d.widget? id with
  | some (.pattern p) => .ok p
  | some _ => .error (.notAPattern id)
  | none => .error (.segmentNotFound id)

/-- The region with an id, or why there is none. -/
def findRegion (d : Document) (id : Text) : Except EditError Region :=
  match d.widget? id with
  | some (.region r) => .ok r
  | some _ => .error (.notARegion id)
  | none => .error (.segmentNotFound id)

/-- Changes the attributes of a pattern, and says whether anything changed. -/
def updatePattern (d : Document) (id : Text) (f : Pattern → Bool × Pattern) :
    Except EditError (Bool × Document) := do
  let p ← d.findPattern id
  let (changed, q) := f p
  return (changed, { d with
    segments := Segment.replaceFirst id (fun _ => .pattern q) d.segments
    version := if changed then d.version + 1 else d.version })

/-- Puts another pattern with an id of its own in the place of one. -/
def replacePattern (d : Document) (id : Text) (q : Pattern) :
    Except EditError (Pattern × Document) := do
  let p ← d.findPattern id
  return (p, { d with
    segments := Segment.replaceFirst id (fun _ => .pattern q) d.segments
    version := d.version + 1 })

/-- Changes the attributes of a region, and says whether anything changed. -/
def updateRegion (d : Document) (id : Text) (f : Region → Bool × Region) :
    Except EditError (Bool × Document) := do
  let r ← d.findRegion id
  let (changed, q) := f r
  return (changed, { d with
    segments := Segment.replaceFirst id (fun _ => .region q) d.segments
    version := if changed then d.version + 1 else d.version })

/-- The canonical text between two positions. -/
def write (d : Document) (lo hi : Nat) : Except EditError Text :=
  (d.segmentsIn lo hi).map Segment.joinText

end Document

end ImageScript
