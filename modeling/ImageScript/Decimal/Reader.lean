import ImageScript.Decimal.Binary
import ImageScript.Text.Split
import ImageScript.Text.Digits

/-!
# Reading decimal numbers

`number?` reads an optional sign, digits with an optional point among them, and an optional
exponent, and rounds the value once; `inf`, `infinity` and `nan` stand for themselves in any case.
-/

namespace ImageScript.Decimal

/-- Removes a sign. -/
def sign : Text → Bool × Text
  | '-' :: r => (true, r)
  | '+' :: r => (false, r)
  | s => (false, s)

/-- The double nearest to `digits * 10 ^ exponent`; powers beyond every double are not computed. -/
def nearest (digits : Nat) (exponent : Int) : Float :=
  if digits = 0 then 0
  else
    let top := exponent + (Nat.toDigits 10 digits).length
    if 400 < top then 1 / 0
    else if top < -400 then 0
    else
      match exponent with
      | .ofNat e => OfScientific.ofScientific digits false e
      | .negSucc e => OfScientific.ofScientific digits true (e + 1)

/-- Reads an exponent behind its letter, or no text as the exponent zero. -/
def exponent? : Text → Option Int
  | [] => some 0
  | c :: r =>
    if c = 'e' ∨ c = 'E' then
      let (negative, digits) := sign r
      (Text.toNat? digits).map fun n => if negative then -n else n
    else none

/-- Reads an unsigned decimal number. -/
def unsigned? (s : Text) : Option Float :=
  let whole := s.takeWhile Char.isDigit
  let (fraction, rest) := match s.dropWhile Char.isDigit with
    | '.' :: r => (r.takeWhile Char.isDigit, r.dropWhile Char.isDigit)
    | r => ([], r)
  if whole = [] ∧ fraction = [] then none
  else
    (exponent? rest).map fun e =>
      nearest (Text.digitsValue (whole ++ fraction)) (e - fraction.length)

/-- Reads a decimal number. -/
def number? (s : Text) : Option Float :=
  let (negative, r) := sign s
  if Text.sameLetters r "inf".toList ∨ Text.sameLetters r "infinity".toList then
    some (withSign negative (1 / 0))
  else if Text.sameLetters r "nan".toList then some (Float.ofBits 0x7ff8000000000000)
  else (unsigned? r).map (withSign negative)

end ImageScript.Decimal
