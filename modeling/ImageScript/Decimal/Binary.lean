/-!
# Binary fractions

A finite double is a whole number times a power of two. Everything this library prints or rounds
starts from that exact value.
-/

namespace ImageScript.Decimal

/-- What the bits of a double stand for. -/
inductive Reading where
  | nan
  | infinite (negative : Bool)
  /-- The value `mantissa * 2 ^ exponent`, with its sign. -/
  | finite (negative : Bool) (mantissa : Nat) (exponent : Int)
deriving DecidableEq, Repr

/-- The exact value of a double. -/
def read (x : Float) : Reading :=
  let bits := x.toBits.toNat
  let negative := bits >>> 63 = 1
  let biased : Nat := (bits >>> 52) % 0x800
  let fraction : Nat := bits % 0x10000000000000
  if biased = 2047 then
    if fraction = 0 then .infinite negative else .nan
  else if biased = 0 then .finite negative fraction (-1074)
  else .finite negative (0x10000000000000 + fraction) ((biased : Int) - 1075)

/-- Gives a value the sign that `negative` asks for. -/
def withSign (negative : Bool) (x : Float) : Float := if negative then -x else x

/-- The nearest whole number, away from zero where two are equally near. -/
def roundHalfAway (x : Float) : Float :=
  match read x with
  | .finite negative m (.negSucc k) =>
    withSign negative (Float.ofNat ((m + (1 <<< k)) >>> (k + 1)))
  | _ => x

/-- The whole number from `low` to `high` that comes nearest to a double without its fraction, also
to an infinite one; zero for no number. -/
def truncate (low high : Int) (x : Float) : Int :=
  match read x with
  | .nan => 0
  | .infinite negative => if negative then low else high
  | .finite negative m e =>
    let n : Int := match e with
      | .ofNat k => m <<< k
      | .negSucc k => m >>> (k + 1)
    max low (min high (if negative then -n else n))

end ImageScript.Decimal
