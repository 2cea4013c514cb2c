import ImageScript.Text.Split
import ImageScript.Text.Digits

/-!
# Image names

Which strings name an image file, which are plain file names, and the next name to try where a
name is taken: a number behind the last dash counts up, any other stem gets the number one.
-/

namespace ImageScript.ImageName

/-- The endings of image files. -/
def extensions : List Text := ["png".toList, "jpg".toList, "jpeg".toList]

/-- Whether a name has a stem and ends like an image file, in any case. -/
def isImage (name : Text) : Bool :=
  match Text.splitLast? '.' name with
  | some (stem, ext) => stem ≠ [] && extensions.any (Text.sameLetters ext)
  | none => false

/-- Whether a name is a file name without directories. -/
def isLeaf (name : Text) : Bool :=
  name ≠ [] && name ≠ ".".toList && name ≠ "..".toList && !name.contains '/' && !name.contains '\\'

/-- A name cut at its last dot; a dot at the very start begins no extension. -/
def splitExtension (name : Text) : Text × Option Text :=
  match Text.splitLast? '.' name with
  | some (stem, ext) => if stem = [] then (name, none) else (stem, some ext)
  | none => (name, none)

/-- The stem behind `stem` in the row of names; numbers from 2^64 on do not count as numbers. The
greatest number that does, 2^64 - 1, counts up to 2^64, where a counter of 64 bits would stop or start
again. -/
def nextStem (stem : Text) : Text :=
  let first := stem ++ "-1".toList
  match Text.splitLast? '-' stem with
  | none => first
  | some (base, digits) =>
    match Text.toNat? digits with
    | some n => if n < UInt64.size then base ++ '-' :: Text.ofNat (n + 1) else first
    | none => first

/-- The name to try where `name` is taken. -/
def next (name : Text) : Text :=
  match splitExtension name with
  | (stem, some ext) => nextStem stem ++ '.' :: ext
  | (stem, none) => nextStem stem

end ImageScript.ImageName
