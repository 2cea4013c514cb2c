import ImageScript.Decimal.Binary
import ImageScript.Text.Digits

/-!
# Shortest digits

The fewest decimal digits from which a double reads back, and of those the nearest to its value.
A `Style` says how the digits are laid out.
-/

namespace ImageScript.Decimal

/-- Which of two equally near digit strings to take. -/
inductive Tie where
  | up
  | even
deriving DecidableEq, Repr

/-- The value `digits * 10 ^ exponent`. -/
structure Scaled where
  digits : Nat
  exponent : Int
deriving DecidableEq, Repr

/-- The least and the greatest value that round to `m * 2 ^ q`, in quarters of `2 ^ q`; both ends
count exactly when `m` is even. -/
def quarters (m : Nat) (q : Int) : Nat × Nat :=
  (if m = 0x10000000000000 ∧ -1074 < q then 4 * m - 1 else 4 * m - 2, 4 * m + 2)

/-- A quotient times a power of ten as a fraction. -/
def scaleBy (num den : Nat) : Int → Nat × Nat
  | .ofNat k => (num * Nat.pow 10 k, den)
  | .negSucc k => (num, den * Nat.pow 10 (k + 1))

/-- The exponent of the leading decimal digit of a positive fraction. -/
def leadingExponent (num den : Nat) : Int :=
  let guess : Int := (Nat.toDigits 10 num).length - (Nat.toDigits 10 den).length
  let scaled := scaleBy num den (-guess)
  if scaled.1 < scaled.2 then guess - 1 else guess

/-- The digits of length `n` within the interval from `low / den` to `high / den`, nearest to the
value `4 * m / den`, if there are any; `ends` says whether the interval holds its ends. -/
def candidate? (tie : Tie) (ends : Bool) (m low high den : Nat) (top : Int) (n : Nat) :
    Option Scaled :=
  let exponent := top - n + 1
  let at4 := scaleBy (4 * m) den (-exponent)
  let d := at4.1 / at4.2
  let inside (c : Nat) : Bool :=
    let lo := scaleBy low den (-exponent)
    let hi := scaleBy high den (-exponent)
    if ends then lo.1 ≤ c * lo.2 ∧ c * hi.2 ≤ hi.1
    else lo.1 < c * lo.2 ∧ c * hi.2 < hi.1
  match inside d, inside (d + 1) with
  | false, false => none
  | true, false => some ⟨d, exponent⟩
  | false, true => some ⟨d + 1, exponent⟩
  | true, true =>
    let below := at4.1 - d * at4.2
    let above := (d + 1) * at4.2 - at4.1
    if below < above then some ⟨d, exponent⟩
    else if above < below then some ⟨d + 1, exponent⟩
    else match tie with
      | .up => some ⟨d + 1, exponent⟩
      | .even => some ⟨if d % 2 = 0 then d else d + 1, exponent⟩

/-- Moves zeros from the end of the digits into the exponent. -/
def Scaled.trim : Nat → Scaled → Scaled
  | 0, s => s
  | n + 1, s =>
    if s.digits ≠ 0 ∧ s.digits % 10 = 0 then Scaled.trim n ⟨s.digits / 10, s.exponent + 1⟩ else s

/-- The shortest digits of the positive value `m * 2 ^ q`. -/
def shortest (tie : Tie) (m : Nat) (q : Int) : Scaled :=
  let (num, den) : Nat × Nat := match q with
    | .ofNat k => (1 <<< k, 1)
    | .negSucc k => (1, 1 <<< (k + 1))
  let (low, high) := quarters m q
  let top := leadingExponent (m * num) den
  let found := ((List.range 17).map (· + 1)).findSome?
    (candidate? tie (m % 2 = 0) (m * num) (low * num) (high * num) (4 * den) top)
  (found.getD ⟨m * num / den, 0⟩).trim 17

/-- How digits become text: positional while the point stands from `first` to `last` digits behind
the leading place, with an exponent elsewhere, `plus` written before an exponent that is not
negative, and `whole` behind a whole number. -/
structure Style where
  tie : Tie
  first : Option Int
  last : Option Int
  plus : Text
  whole : Text

/-- The digits of a value laid out by a style. -/
def Style.layOut (style : Style) (s : Scaled) : Text :=
  let digits := Text.ofNat s.digits
  let point : Int := digits.length + s.exponent
  let positional := style.first.all (· ≤ point) && style.last.all (point ≤ ·)
  if positional then
    if 0 ≤ s.exponent then digits ++ List.replicate s.exponent.toNat '0' ++ style.whole
    else if 0 < point then digits.take point.toNat ++ '.' :: digits.drop point.toNat
    else '0' :: '.' :: (List.replicate (-point).toNat '0' ++ digits)
  else
    let lead := match digits with
      | [] => []
      | [d] => [d]
      | d :: ds => d :: '.' :: ds
    lead ++ 'e' :: (if point < 1 then [] else style.plus) ++ Text.ofInt (point - 1)

/-- A finite or infinite value laid out by a style. -/
def Style.write (style : Style) (x : Float) : Text :=
  let sign (negative : Bool) : Text := if negative then ['-'] else []
  match read x with
  | .nan => "NaN".toList
  | .infinite negative => sign negative ++ "inf".toList
  | .finite negative m e =>
    if m = 0 then sign negative ++ '0' :: style.whole
    else sign negative ++ style.layOut (shortest style.tie m e)

/-- Values in messages never take an exponent, and whole ones have no point. -/
def plain : Style := ⟨.up, none, none, [], []⟩

end ImageScript.Decimal
