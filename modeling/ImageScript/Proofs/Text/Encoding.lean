import ImageScript.Text.Utf8

/-!
# Reading what was encoded

The bytes of a text are well-formed, so that they are read as the text, character by character.

Main statement: `decodeLossy_encode`.
-/

namespace ImageScript.Text

theorem toNat_toUInt8 {n : Nat} (h : n < 256) : n.toUInt8.toNat = n := by
  rw [Nat.toUInt8, UInt8.toNat_ofNat']
  omega

theorem continueChar_succ {count lo hi value n : Nat} {bs : Bytes} (hlo : lo ≤ n) (hhi : n ≤ hi)
    (hbyte : n < 256) : continueChar (count + 1) lo hi value (n.toUInt8 :: bs) =
      continueChar count 0x80 0xBF (value * 0x40 + (n - 0x80)) bs := by
  rw [continueChar, toNat_toUInt8 hbyte, if_pos ⟨hlo, hhi⟩]

/-- The first part of bytes of which the first begins a character of several bytes. -/
theorem decodeParts_cons {n count lo hi value : Nat} {bs rest : Bytes} {c : Char} (bound : Nat)
    (hbyte : n < 256) (hn : 0x80 ≤ n) (h : continuation? n.toUInt8 = some (count, lo, hi))
    (hbound : (if count = 1 then 0x20 else if count = 2 then 0x10 else 0x08) = bound)
    (hread : continueChar count lo hi (n % bound) bs = (some value, rest))
    (hc : Char.ofNat value = c) : decodeParts (n.toUInt8 :: bs) = some c :: decodeParts rest := by
  rw [decodeParts, toNat_toUInt8 hbyte, if_neg (by omega), h]
  dsimp only
  rw [hbound, hread, Option.map_some, hc]

/-- The second of three bytes is in the range that the first one allows. -/
theorem continuation?_of_three {n : Nat} (h : 0x800 ≤ n) (hn : n < 0x10000)
    (hvalid : n < 0xD800 ∨ 0xDFFF < n) :
    ∃ lo hi, continuation? (0xE0 + n / 0x1000).toUInt8 = some (2, lo, hi)
      ∧ lo ≤ 0x80 + n / 0x40 % 0x40 ∧ 0x80 + n / 0x40 % 0x40 ≤ hi := by
  rw [continuation?, toNat_toUInt8 (by omega), if_neg (by omega)]
  by_cases hlow : 0xE0 + n / 0x1000 = 0xE0
  · exact ⟨0xA0, 0xBF, if_pos hlow, by omega, by omega⟩
  rw [if_neg hlow]
  by_cases hmiddle : 0xE0 + n / 0x1000 = 0xED
  · rw [if_neg (by omega), if_pos hmiddle]
    exact ⟨0x80, 0x9F, rfl, by omega, by omega⟩
  · rw [if_pos (by omega)]
    exact ⟨0x80, 0xBF, rfl, by omega, by omega⟩

/-- The second of four bytes is in the range that the first one allows. -/
theorem continuation?_of_four {n : Nat} (h : 0x10000 ≤ n) (hn : n < 0x110000) :
    ∃ lo hi, continuation? (0xF0 + n / 0x40000).toUInt8 = some (3, lo, hi)
      ∧ lo ≤ 0x80 + n / 0x1000 % 0x40 ∧ 0x80 + n / 0x1000 % 0x40 ≤ hi := by
  rw [continuation?, toNat_toUInt8 (by omega), if_neg (by omega), if_neg (by omega),
    if_neg (by omega), if_neg (by omega)]
  by_cases hlow : 0xF0 + n / 0x40000 = 0xF0
  · exact ⟨0x90, 0xBF, if_pos hlow, by omega, by omega⟩
  rw [if_neg hlow]
  by_cases hmiddle : 0xF0 + n / 0x40000 ≤ 0xF3
  · exact ⟨0x80, 0xBF, if_pos (by omega), by omega, by omega⟩
  · rw [if_neg (by omega), if_pos (by omega)]
    exact ⟨0x80, 0x8F, rfl, by omega, by omega⟩

/-- The first part of the bytes of a character is the character. -/
theorem decodeParts_encodeChar (c : Char) (bs : Bytes) :
    decodeParts (encodeChar c ++ bs) = some c :: decodeParts bs := by
  have hvalid : c.toNat < 0xD800 ∨ 0xDFFF < c.toNat ∧ c.toNat < 0x110000 := c.valid
  have hc : Char.ofNat c.toNat = c := Char.ofNat_toNat c
  unfold encodeChar
  dsimp only
  generalize c.toNat = n at hvalid hc ⊢
  have hfinal : ∀ {lo hi value}, lo ≤ 0x80 + n % 0x40 → 0x80 + n % 0x40 ≤ hi →
      value * 0x40 + n % 0x40 = n →
      continueChar 1 lo hi value ((0x80 + n % 0x40).toUInt8 :: bs) = (some n, bs) := by
    intro lo hi value hlo hhi hvalue
    rw [continueChar_succ hlo hhi (by omega), continueChar, Nat.add_sub_cancel_left, hvalue]
  split
  · rw [List.singleton_append, decodeParts, toNat_toUInt8 (by omega), if_pos ‹_›, hc]
  split
  · have hfirst : continuation? (0xC0 + n / 0x40).toUInt8 = some (1, 0x80, 0xBF) := by
      rw [continuation?, toNat_toUInt8 (by omega), if_pos (by omega)]
    refine decodeParts_cons 0x20 (by omega) (by omega) hfirst rfl ?_ hc
    exact hfinal (by omega) (by omega) (by omega)
  split
  · obtain ⟨lo, hi, hfirst, hlo, hhi⟩ := continuation?_of_three (n := n) (by omega) ‹_› (by omega)
    refine decodeParts_cons 0x10 (by omega) (by omega) hfirst rfl ?_ hc
    refine (continueChar_succ hlo hhi (by omega)).trans ?_
    exact hfinal (by omega) (by omega) (by omega)
  · obtain ⟨lo, hi, hfirst, hlo, hhi⟩ := continuation?_of_four (n := n) (by omega) (by omega)
    refine decodeParts_cons 0x08 (by omega) (by omega) hfirst rfl ?_ hc
    refine (continueChar_succ hlo hhi (by omega)).trans ?_
    refine (continueChar_succ (by omega) (by omega) (by omega)).trans ?_
    exact hfinal (by omega) (by omega) (by omega)

theorem decodeParts_encode (s : Text) : decodeParts (encode s) = s.map some := by
  induction s with
  | nil => rw [encode, List.flatMap_nil, decodeParts, List.map_nil]
  | cons c s ih =>
    rw [encode, List.flatMap_cons, decodeParts_encodeChar, ← encode, ih, List.map_cons]

/-- Bytes that were written for a text are read as the text. -/
theorem decodeLossy_encode (s : Text) : decodeLossy (encode s) = s := by
  rw [decodeLossy, decodeParts_encode, List.map_map]
  exact List.map_id s

theorem encode_append (a b : Text) : encode (a ++ b) = encode a ++ encode b :=
  List.flatMap_append

theorem length_encodeChar (c : Char) : (encodeChar c).length = c.utf8Size := by
  have hle (n : Nat) (h : n < UInt32.size) : c.val ≤ UInt32.ofNatLT n h ↔ c.toNat < n + 1 := by
    rw [UInt32.le_iff_toNat_le, UInt32.toNat_ofNatLT]
    exact Nat.lt_succ_iff.symm
  simp only [encodeChar, Char.utf8Size, hle]
  split
  · rfl
  split
  · rfl
  split <;> rfl

/-- A text has as many bytes as its offsets count. -/
theorem length_encode (s : Text) : (encode s).length = byteLen s := by
  induction s with
  | nil => rfl
  | cons c s ih =>
    rw [encode, List.flatMap_cons, List.length_append, length_encodeChar, ← encode, ih,
      byteLen_cons]

end ImageScript.Text
