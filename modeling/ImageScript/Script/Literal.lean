import ImageScript.Decimal.Shortest
import ImageScript.Text.Digits

/-!
# Image literals

The values that can become widgets, as a script writes them, and the ways in which the arguments
of a suffix call can be wrong.
-/

namespace ImageScript

/-- The text of the marker that asks for a screen capture. -/
def captureMarker : Text := "__CLICK-TO-CAPTURE__".toList

/-- The argument of a `.mask(...)` suffix. -/
inductive Mask where
  /-- The transparent pixels of the image itself. -/
  | transparent
  | image (name : Text)
deriving DecidableEq, Repr

/-- A `Pattern("name")` chain with the suffixes that were present. -/
structure PatternLiteral where
  image : Text
  similarity : Option Float
  exact : Bool
  targetOffset : Option (Int32 × Int32)
  resize : Option Float
  mask : Option Mask
deriving DecidableEq, Repr

/-- An image name without suffixes. -/
def PatternLiteral.bare (image : Text) : PatternLiteral := ⟨image, none, false, none, none, none⟩

/-- `Region(x, y, w, h)` with an optional `.asOffset()` marker. -/
structure RegionLiteral where
  x : Int32
  y : Int32
  w : Int32
  h : Int32
  asOffset : Bool
deriving DecidableEq, Repr

/-- The suffix calls of a pattern chain. -/
inductive Suffix where
  | exact
  | similar
  | targetOffset
  | resize
  | mask
deriving DecidableEq, Repr

namespace Suffix

def name : Suffix → String
  | exact => "exact"
  | similar => "similar"
  | targetOffset => "targetOffset"
  | resize => "resize"
  | mask => "mask"

def all : List Suffix := [exact, similar, targetOffset, resize, mask]

end Suffix

/-- Why a chain cannot become a widget. -/
inductive LiteralError where
  | malformedArgument (pos : Nat) (suffix : Suffix) (found : Text)
  | wrongArity (pos : Nat) (suffix : Suffix) (expected found : Nat)
  | outOfRange (pos : Nat) (suffix : Suffix) (value : Float)
  | unclosed (pos : Nat) (suffix : Suffix)
deriving DecidableEq, Repr

namespace LiteralError

def message : LiteralError → Text
  | malformedArgument pos suffix found =>
    "Malformed argument for .".toList ++ suffix.name.toList ++ "() at ".toList ++ Text.ofNat pos
      ++ ": ".toList ++ found
  | wrongArity pos suffix expected found =>
    "Wrong number of arguments for .".toList ++ suffix.name.toList ++ "() at ".toList
      ++ Text.ofNat pos ++ ": expected ".toList ++ Text.ofNat expected ++ ", found ".toList
      ++ Text.ofNat found
  | outOfRange pos suffix value =>
    "Value ".toList ++ Decimal.plain.write value ++ " out of range for .".toList
      ++ suffix.name.toList ++ "() at ".toList ++ Text.ofNat pos
  | unclosed pos suffix =>
    "Unclosed call to .".toList ++ suffix.name.toList ++ "() at ".toList ++ Text.ofNat pos

end LiteralError

end ImageScript
