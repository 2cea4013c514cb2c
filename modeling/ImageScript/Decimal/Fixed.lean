import ImageScript.Decimal.Binary
import ImageScript.Text.Digits

/-!
# Two decimal places

A value in script text has at most two places after the point and no zero at the end of them.
Halves of the last place go to the even neighbour of the exact binary value.
-/

namespace ImageScript.Decimal

/-- The quotient rounded to the nearest whole number, to the even one of two. -/
def divideToEven (num den : Nat) : Nat :=
  let q := num / den
  let r := num % den
  if 2 * r < den then q
  else if den < 2 * r then q + 1
  else if q % 2 = 0 then q else q + 1

/-- The hundredths nearest to `m * 2 ^ e`. -/
def hundredths (m : Nat) : Int → Nat
  | .ofNat k => (m <<< k) * 100
  | .negSucc k => divideToEven (m * 100) (1 <<< (k + 1))

/-- A number of hundredths, without zeros behind the last digit that counts. -/
def hundredthsText (n : Nat) : Text :=
  let whole := Text.ofNat (n / 100)
  let rest := n % 100
  if rest = 0 then whole
  else if rest % 10 = 0 then whole ++ '.' :: Text.ofNat (rest / 10)
  else whole ++ '.' :: (Text.ofNat (rest / 10) ++ Text.ofNat (rest % 10))

def signText (negative : Bool) : Text := if negative then ['-'] else []

/-- A value as script text writes it. -/
def format (x : Float) : Text :=
  match read x with
  | .nan => "NaN".toList
  | .infinite negative => signText negative ++ "inf".toList
  | .finite negative m e => signText negative ++ hundredthsText (hundredths m e)

/-- A value rounded to the hundredths that `format` can express. -/
def roundToHundredths (x : Float) : Float := roundHalfAway (x * 100) / 100

end ImageScript.Decimal
