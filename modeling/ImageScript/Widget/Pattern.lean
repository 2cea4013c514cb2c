import ImageScript.Decimal.Fixed
import ImageScript.Files.Path
import ImageScript.Script.Literal

/-!
# Pattern widgets

An image pattern with its search attributes. The canonical text leaves out every attribute that has
its default value; each mutator says whether it changed anything.
-/

namespace ImageScript

/-- Where the image of a pattern came from. -/
inductive SourceKind where
  | capture
  | file
deriving DecidableEq, Repr

inductive PatternState where
  | ready
  /-- Waiting for a screen capture. -/
  | pendingCapture
  | notFound
deriving DecidableEq, Repr

structure Pattern where
  id : Text
  imageName : Text
  resolvedPath : Option Path
  similarity : Float
  targetOffset : Int32 × Int32
  resizeFactor : Option Float
  mask : Option Mask
  source : SourceKind
  /-- How many matches a preview shows at most. -/
  matchLimit : UInt64
  state : PatternState
deriving DecidableEq

namespace Pattern

def defaultSimilarity : Float := 0.7

/-- The similarity from which on a pattern is written as exact. -/
def exactSimilarity : Float := 0.99

def defaultMatchLimit : UInt64 := 50

/-- A similarity as a pattern stores it: two decimals, at least zero, and exact from one on. -/
def clampSimilarity (x : Float) : Float :=
  let r := Decimal.roundToHundredths x
  if r < 0 ∨ r.isNaN then 0 else if 1 ≤ r then exactSimilarity else r

/-- A resize factor as a pattern stores it: two decimals and above zero. -/
def validFactor? (x : Float) : Option Float :=
  let r := Decimal.roundToHundredths x
  if 0 < r then some r else none

/-- A pattern whose attributes all have their defaults. -/
def new (id imageName : Text) : Pattern :=
  { id, imageName, resolvedPath := none, similarity := defaultSimilarity, targetOffset := (0, 0)
    resizeFactor := none, mask := none, source := .file, matchLimit := defaultMatchLimit
    state := .ready }

/-- A pattern that waits for a capture and has no image yet. -/
def pendingCapture (id : Text) : Pattern :=
  { new id [] with source := .capture, state := .pendingCapture }

/-- The pattern that a literal asks for. -/
def ofLiteral (id imageName : Text) (l : PatternLiteral) : Pattern :=
  { new id imageName with
    similarity :=
      if l.exact then exactSimilarity
      else match l.similarity with
        | some x => clampSimilarity x
        | none => defaultSimilarity
    targetOffset := l.targetOffset.getD (0, 0)
    resizeFactor := l.resize.bind validFactor?
    mask := l.mask }

def isExact (p : Pattern) : Bool := exactSimilarity ≤ p.similarity

/-- Whether the image name alone says everything about the search. -/
def isDefault (p : Pattern) : Bool :=
  p.similarity == defaultSimilarity && p.targetOffset = (0, 0) && p.resizeFactor.isNone
    && p.mask.isNone

/-- Equality of optional numbers, where both zeros are equal. -/
def sameNumber : Option Float → Option Float → Bool
  | none, none => true
  | some a, some b => a == b
  | _, _ => false

/-- Equality of optional paths by their components. -/
def samePath : Option Path → Option Path → Bool
  | none, none => true
  | some a, some b => a.same b
  | _, _ => false

/-- Whether two patterns agree in all attributes and their id. -/
def same (p q : Pattern) : Bool :=
  p.id = q.id && p.imageName = q.imageName && samePath p.resolvedPath q.resolvedPath
    && p.similarity == q.similarity && p.targetOffset = q.targetOffset
    && sameNumber p.resizeFactor q.resizeFactor && p.mask = q.mask && p.source = q.source
    && p.matchLimit = q.matchLimit && p.state = q.state

/-- Sets the similarity; values below zero become zero, and values from one on exact. -/
def setSimilarity (x : Float) (p : Pattern) : Bool × Pattern :=
  let x := clampSimilarity x
  if p.similarity == x then (false, p) else (true, { p with similarity := x })

def setExact (exact : Bool) (p : Pattern) : Bool × Pattern :=
  match exact, p.isExact with
  | true, false => (true, { p with similarity := exactSimilarity })
  | false, true => (true, { p with similarity := defaultSimilarity })
  | _, _ => (false, p)

def setTargetOffset (offset : Int32 × Int32) (p : Pattern) : Bool × Pattern :=
  if p.targetOffset = offset then (false, p) else (true, { p with targetOffset := offset })

/-- Sets or removes the resize factor; a factor that is not above zero is refused. -/
def setResizeFactor (factor : Option Float) (p : Pattern) : Bool × Pattern :=
  let valid := factor.bind validFactor?
  if factor.isSome ∧ valid.isNone then (false, p)
  else if sameNumber p.resizeFactor valid then (false, p)
  else (true, { p with resizeFactor := valid })

def setMask (mask : Option Mask) (p : Pattern) : Bool × Pattern :=
  if p.mask = mask then (false, p) else (true, { p with mask := mask })

def setMatchLimit (limit : UInt64) (p : Pattern) : Bool × Pattern :=
  if p.matchLimit = limit then (false, p) else (true, { p with matchLimit := limit })

/-- Points the pattern at another image. -/
def setImage (name : Text) (path : Option Path) (p : Pattern) : Bool × Pattern :=
  if p.imageName = name && samePath p.resolvedPath path then (false, p)
  else (true, { p with imageName := name, resolvedPath := path })

def setState (state : PatternState) (p : Pattern) : Bool × Pattern :=
  if p.state = state then (false, p) else (true, { p with state := state })

/-- Takes every attribute of another pattern but its id. -/
def assign (other p : Pattern) : Bool × Pattern :=
  let updated := { other with id := p.id }
  if p.same updated then (false, p) else (true, updated)

/-- A name in double quotes. -/
def quoted (name : Text) : Text := '"' :: name ++ ['"']

/-- A suffix call with its arguments. -/
def call (suffix : Suffix) (args : Text) : Text :=
  '.' :: suffix.name.toList ++ '(' :: args ++ [')']

/-- The suffix for the similarity. -/
def similarityText (p : Pattern) : Text :=
  if p.isExact then call .exact []
  else if p.similarity == defaultSimilarity then []
  else call .similar (Decimal.format p.similarity)

def offsetText (p : Pattern) : Text :=
  if p.targetOffset = (0, 0) then []
  else
    call .targetOffset
      (Text.ofInt p.targetOffset.1.toInt ++ ',' :: Text.ofInt p.targetOffset.2.toInt)

def resizeText (p : Pattern) : Text :=
  match p.resizeFactor with
  | some factor => call .resize (Decimal.format factor)
  | none => []

def maskText (p : Pattern) : Text :=
  match p.mask with
  | some .transparent => call .mask []
  | some (.image name) => call .mask (quoted name)
  | none => []

/-- The canonical script text. -/
def toText (p : Pattern) : Text :=
  if p.imageName = [] then quoted captureMarker
  else if p.isDefault then quoted p.imageName
  else
    "Pattern(".toList ++ quoted p.imageName ++ ")".toList ++ p.similarityText ++ p.offsetText
      ++ p.resizeText ++ p.maskText

end Pattern

end ImageScript
