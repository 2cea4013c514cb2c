import ImageScript.Text.Offset

/-!
# UTF-8

The bytes of a text and the reading of bytes as text. `decode?` accepts well-formed UTF-8 only;
`decodeLossy` reads anything and puts one replacement character for every maximal part of a
character that breaks off.
-/

namespace ImageScript

/-- The contents of a file. -/
abbrev Bytes := List UInt8

namespace Text

/-- The bytes of one character. -/
def encodeChar (c : Char) : Bytes :=
  let n := c.toNat
  if n < 0x80 then [n.toUInt8]
  else if n < 0x800 then [(0xC0 + n / 0x40).toUInt8, (0x80 + n % 0x40).toUInt8]
  else if n < 0x10000 then
    [(0xE0 + n / 0x1000).toUInt8, (0x80 + n / 0x40 % 0x40).toUInt8, (0x80 + n % 0x40).toUInt8]
  else
    [(0xF0 + n / 0x40000).toUInt8, (0x80 + n / 0x1000 % 0x40).toUInt8,
      (0x80 + n / 0x40 % 0x40).toUInt8, (0x80 + n % 0x40).toUInt8]

/-- The UTF-8 form of a text. -/
def encode (s : Text) : Bytes := s.flatMap encodeChar

/-- The bytes that may follow a first byte: how many, and the range of the first of them. -/
def continuation? (b : UInt8) : Option (Nat × Nat × Nat) :=
  let n := b.toNat
  if 0xC2 ≤ n ∧ n ≤ 0xDF then some (1, 0x80, 0xBF)
  else if n = 0xE0 then some (2, 0xA0, 0xBF)
  else if 0xE1 ≤ n ∧ n ≤ 0xEC ∨ n = 0xEE ∨ n = 0xEF then some (2, 0x80, 0xBF)
  else if n = 0xED then some (2, 0x80, 0x9F)
  else if n = 0xF0 then some (3, 0x90, 0xBF)
  else if 0xF1 ≤ n ∧ n ≤ 0xF3 then some (3, 0x80, 0xBF)
  else if n = 0xF4 then some (3, 0x80, 0x8F)
  else none

/-- Reads up to `count` bytes that continue a character whose bits so far are `value`. -/
def continueChar : Nat → Nat → Nat → Nat → Bytes → Option Nat × Bytes
  | 0, _, _, value, bs => (some value, bs)
  | _ + 1, _, _, _, [] => (none, [])
  | count + 1, lo, hi, value, b :: bs =>
    if lo ≤ b.toNat ∧ b.toNat ≤ hi then
      continueChar count 0x80 0xBF (value * 0x40 + (b.toNat - 0x80)) bs
    else (none, b :: bs)

theorem continueChar_length (count lo hi value : Nat) (bs : Bytes) :
    (continueChar count lo hi value bs).2.length ≤ bs.length := by
  fun_induction continueChar count lo hi value bs with
  | case1 => simp
  | case2 => simp
  | case3 _ _ _ _ _ _ _ ih => simp only [List.length_cons]; omega
  | case4 => simp

/-- The characters of some bytes; `none` stands for a maximal part of a character that breaks
off. -/
def decodeParts : Bytes → List (Option Char)
  | [] => []
  | b :: bs =>
    if b.toNat < 0x80 then some (Char.ofNat b.toNat) :: decodeParts bs
    else
      match continuation? b with
      | none => none :: decodeParts bs
      | some (count, lo, hi) =>
        let value := b.toNat % (if count = 1 then 0x20 else if count = 2 then 0x10 else 0x08)
        let r := continueChar count lo hi value bs
        r.1.map Char.ofNat :: decodeParts r.2
termination_by bs => bs.length
decreasing_by
  · exact Nat.lt_succ_self _
  · exact Nat.lt_succ_self _
  · exact Nat.lt_succ_of_le (continueChar_length _ _ _ _ _)

/-- The text of well-formed UTF-8. -/
def decode? (bs : Bytes) : Option Text := (decodeParts bs).mapM id

/-- The text of any bytes, with U+FFFD for each part that is no character. -/
def decodeLossy (bs : Bytes) : Text := (decodeParts bs).map fun c => c.getD '\uFFFD'

end Text

end ImageScript
