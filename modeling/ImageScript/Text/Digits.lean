import ImageScript.Text.Offset

/-!
# Whole numbers in text

Decimal digits of whole numbers, written without leading zeros and read with any number of them.
-/

namespace ImageScript.Text

/-- The decimal digits of a number. -/
def ofNat (n : Nat) : Text := Nat.toDigits 10 n

/-- The decimal digits of a number, after a minus sign when it is negative. -/
def ofInt : Int → Text
  | .ofNat n => ofNat n
  | .negSucc n => '-' :: ofNat (n + 1)

/-- The value of one decimal digit. -/
def digitValue (c : Char) : Nat := c.toNat - '0'.toNat

/-- The value of a row of decimal digits. -/
def digitsValue (s : Text) : Nat :=
  s.foldl (fun n c => 10 * n + digitValue c) 0

/-- Reads a number written in decimal digits alone. -/
def toNat? (s : Text) : Option Nat :=
  if s ≠ [] ∧ s.all Char.isDigit then some (digitsValue s) else none

/-- Hexadecimal digits, filled up with zeros to a width. -/
def hex (width n : Nat) : Text :=
  let digits := Nat.toDigits 16 n
  List.replicate (width - digits.length) '0' ++ digits

end ImageScript.Text
