import ImageScript.Json.Basic
import ImageScript.Decimal.Reader

/-!
# Numbers in JSON

A number without point and exponent is a whole number while it fits 64 bits. Any other number keeps
the leading digits that fit 64 bits and is scaled once by a power of ten; one that grows beyond
every double is refused.
-/

namespace ImageScript.Json

inductive Number where
  | whole (value : Int)
  | double (value : Float)

namespace Number

/-- Digits kept so far, and the power of ten they are to be multiplied by. -/
structure Kept where
  digits : Nat
  exponent : Int

/-- Keeps the digits of a whole part; digits that do not fit raise the exponent. -/
def keepWhole : Bool → Kept → Text → Kept
  | _, k, [] => k
  | full, k, c :: r =>
    let next := k.digits * 10 + Text.digitValue c
    if full ∨ UInt64.size ≤ next then keepWhole true { k with exponent := k.exponent + 1 } r
    else keepWhole false { k with digits := next } r

/-- Keeps the digits of a fraction; digits that do not fit are dropped. -/
def keepFraction : Kept → Text → Kept
  | k, [] => k
  | k, c :: r =>
    let next := k.digits * 10 + Text.digitValue c
    if UInt64.size ≤ next then k else keepFraction ⟨next, k.exponent - 1⟩ r

/-- A power of ten up to 10^308. -/
def powerOfTen (n : Nat) : Float := Decimal.nearest 1 n

/-- Divides by 10^308 until at most that power is left, then by the rest. -/
def divide : Nat → Float → Nat → Float
  | 0, x, _ => x
  | fuel + 1, x, n =>
    if n ≤ 308 then x / powerOfTen n
    else if x = 0 ∨ x = -0 then x
    else divide fuel (x / powerOfTen 308) (n - 308)

/-- The double of kept digits; `none` beyond every double. -/
def Kept.toFloat? (k : Kept) : Option Float :=
  let x := k.digits.toUInt64.toFloat
  match k.exponent with
  | .ofNat n =>
    if n ≤ 308 then
      let y := x * powerOfTen n
      if y.isInf then none else some y
    else if x = 0 then some x else none
  | .negSucc n => some (divide (n / 308 + 2) x (n + 1))

/-- Adds a written exponent; one beyond 32 bits counts as infinite. -/
def scale? (k : Kept) (negative : Bool) (digits : Text) : Option Float :=
  let n := Text.digitsValue digits
  if 0x80000000 ≤ n then
    if k.digits ≠ 0 ∧ !negative then none else some 0
  else
    let shifted : Int := if negative then k.exponent - n else k.exponent + n
    Kept.toFloat? ⟨k.digits, max (-0x80000000) (min 0x7fffffff shifted)⟩

/-- Reads an unsigned number that is no whole number of 64 bits. -/
def unsignedDouble? (whole rest : Text) : Option Float :=
  let kept := keepWhole false ⟨0, 0⟩ whole
  let (kept, rest) := match rest with
    | '.' :: r => (keepFraction kept (r.takeWhile Char.isDigit), r.dropWhile Char.isDigit)
    | r => (kept, r)
  match rest with
  | [] => kept.toFloat?
  | _ :: r =>
    let (negative, digits) := Decimal.sign r
    scale? kept negative digits

/-- What a written number stands for. Minus zero is a double. -/
def ofText? (s : Text) : Option Number :=
  let (negative, s) := match s with
    | '-' :: r => (true, r)
    | r => (false, r)
  let whole := s.takeWhile Char.isDigit
  let rest := s.dropWhile Char.isDigit
  let n := Text.digitsValue whole
  if rest = [] ∧ n < UInt64.size then
    if !negative then some (.whole n)
    else if n = 0 ∨ 0x8000000000000000 < n then some (.double (-n.toUInt64.toFloat))
    else some (.whole (-n))
  else (unsignedDouble? whole rest).map fun x => .double (Decimal.withSign negative x)

end Number

/-- The whole number a value is, if it lies between two bounds. -/
def int? (lo hi : Int) : Json → Option Int
  | .number t =>
    match Number.ofText? t with
    | some (.whole n) => if lo ≤ n ∧ n ≤ hi then some n else none
    | _ => none
  | _ => none

/-- The double a value is; a whole number is rounded to one. -/
def float? : Json → Option Float
  | .number t =>
    match Number.ofText? t with
    | some (.double x) => some x
    | some (.whole (.ofNat n)) => some n.toUInt64.toFloat
    | some (.whole (.negSucc n)) => some (-(n + 1).toUInt64.toFloat)
    | none => none
  | _ => none

end ImageScript.Json
