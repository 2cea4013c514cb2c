import Mathlib
import ImageScript.Proofs.Decimal.Hundredths

/-!
# The sign of a number that was written

A value above zero is written without a sign, and digits without a sign are read as a value that is
not below zero. So what is read back of a value above zero is above zero, unless it is zero itself.

Main statements: `number?_unsigned`, `read_of_pos`, `not_le_zero_of_rounded`.
-/

namespace ImageScript.Decimal

open Float.Model Float.Model.UnpackedFloat

/-- Whether a value carries no minus sign. -/
def IsUnsigned : UnpackedFloat → Prop
  | .notANumber => True
  | .infinity s | .zero s | .finite s .. => s = .positive

instance decidablePositive : (s : Sign) → Decidable (s = .positive)
  | .positive => .isTrue rfl
  | .negative => .isFalse nofun

instance decidableUnsigned : (a : UnpackedFloat) → Decidable (IsUnsigned a)
  | .notANumber => .isTrue trivial
  | .infinity s | .zero s | .finite s .. => inferInstanceAs (Decidable (s = .positive))

variable {a b : UnpackedFloat}

theorem isUnsigned_round (m : Nat) (e : Int) (accuracy : Accuracy) :
    IsUnsigned (roundWithAccuracy Format.binary64 .positive m e accuracy) := by
  unfold roundWithAccuracy
  dsimp only
  split <;> rfl

theorem IsUnsigned.mul (ha : IsUnsigned a) (hb : IsUnsigned b) :
    IsUnsigned (UnpackedFloat.mul Format.binary64 a b) := by
  cases a <;> cases b <;> simp only [IsUnsigned] at ha hb <;> subst_vars <;>
    first | trivial | rfl | exact isUnsigned_round _ _ _

theorem IsUnsigned.div (ha : IsUnsigned a) (hb : IsUnsigned b) :
    IsUnsigned (UnpackedFloat.div Format.binary64 a b) := by
  cases a <;> cases b <;> simp only [IsUnsigned] at ha hb <;> subst_vars <;>
    first | trivial | rfl | exact isUnsigned_round _ _ _

theorem isUnsigned_unpack (e : BitVec 11) (m : BitVec 52) :
    IsUnsigned (unpack Format.binary64 (packComponents Format.binary64 .positive e m)) := by
  have hsign :
      Sign.ofBitVec (unpackSign (packComponents Format.binary64 .positive e m)) = .positive := by
    rw [unpackSign_packComponents]
    rfl
  unfold UnpackedFloat.unpack
  dsimp only
  rw [hsign]
  split
  · split
    · rfl
    · trivial
  · split
    · split <;> rfl
    · rfl

/-- A value keeps its sign in its bits. -/
theorem IsUnsigned.unpack_pack (h : IsUnsigned a) :
    IsUnsigned (unpack Format.binary64 (UnpackedFloat.pack Format.binary64 a)) := by
  cases a with
  | notANumber => exact isUnsigned_unpack _ _
  | infinity s =>
    obtain rfl : s = .positive := h
    exact isUnsigned_unpack _ _
  | zero s =>
    obtain rfl : s = .positive := h
    exact isUnsigned_unpack _ _
  | finite s m e hm =>
    obtain rfl : s = .positive := h
    unfold UnpackedFloat.pack
    dsimp only
    split
    · exact isUnsigned_unpack _ _
    · split <;> exact isUnsigned_unpack _ _

/-- Whether a double carries no minus sign. -/
def Unsigned (x : Float) : Prop := IsUnsigned x.toModel.unpack

theorem unsigned_pack (h : IsUnsigned a) : Unsigned ⟨.pack a⟩ := h.unpack_pack

theorem Unsigned.mul {x y : Float} (hx : Unsigned x) (hy : Unsigned y) : Unsigned (x * y) :=
  unsigned_pack (IsUnsigned.mul hx hy)

theorem Unsigned.div {x y : Float} (hx : Unsigned x) (hy : Unsigned y) : Unsigned (x / y) :=
  unsigned_pack (IsUnsigned.div hx hy)

theorem isUnsigned_ofScientific (m : Nat) (e : Int) :
    IsUnsigned (UnpackedFloat.ofScientific Format.binary64 m e) := by
  unfold UnpackedFloat.ofScientific
  split
  · rfl
  split
  · rfl
  split
  · rfl
  split
  · exact IsUnsigned.mul rfl rfl
  · exact IsUnsigned.div rfl rfl

theorem unsigned_toFloat (n : UInt64) : Unsigned n.toFloat := by
  refine unsigned_pack ?_
  unfold UnpackedFloat.ofUInt64 UnpackedFloat.ofNat UnpackedFloat.ofInt UnpackedFloat.normalize
  split
  · next h =>
    have hlt := Int.compare_eq_lt.1 h
    omega
  · rfl
  · exact isUnsigned_round _ _ _

theorem unsigned_powersOfTen (e : Nat) (h : e < Float.exactlyRepresentablePowersOfTen.size) :
    Unsigned Float.exactlyRepresentablePowersOfTen[e] := by
  have hall : ∀ e : Fin 23, IsUnsigned Float.exactlyRepresentablePowersOfTen[e].toModel.unpack := by
    decide +kernel
  exact hall ⟨e, h⟩

theorem unsigned_ofScientific (m : Nat) (negative : Bool) (e : Nat) :
    Unsigned (OfScientific.ofScientific m negative e) := by
  change Unsigned (Float.ofScientific m negative e)
  unfold Float.ofScientific
  split
  · dsimp only
    split
    · exact (unsigned_toFloat _).div (unsigned_powersOfTen _ _)
    · exact (unsigned_toFloat _).mul (unsigned_powersOfTen _ _)
  · exact unsigned_pack (isUnsigned_ofScientific _ _)

theorem unsigned_nearest (digits : Nat) (exponent : Int) : Unsigned (nearest digits exponent) := by
  have hzero : Unsigned 0 := rfl
  have hone : Unsigned 1 := rfl
  unfold nearest
  dsimp only
  split
  · exact hzero
  split
  · exact hone.div hzero
  split
  · exact hzero
  split
  · exact unsigned_ofScientific _ _ _
  · exact unsigned_ofScientific _ _ _

/-! ### Digits -/

theorem toLower_of_isDigit {c : Char} (h : c.isDigit = true) : c.toLower = c := by
  simp only [Char.isDigit, Bool.and_eq_true, decide_eq_true_eq, ge_iff_le,
    UInt32.le_iff_toNat_le] at h
  change 48 ≤ c.toNat ∧ c.toNat ≤ 57 at h
  unfold Char.toLower
  rw [dif_neg]
  rintro ⟨hle, -⟩
  simp only [ge_iff_le, UInt32.le_iff_toNat_le] at hle
  change 65 ≤ c.toNat at hle
  omega

/-- What begins with a digit has no sign and is not the name of a value. -/
theorem number?_of_isDigit {c : Char} (hc : c.isDigit = true) (ds : Text) :
    number? (c :: ds) = unsigned? (c :: ds) := by
  have hne : ∀ d : Char, d.isDigit = false → c ≠ d := by
    rintro d hd rfl
    rw [hc] at hd
    cases hd
  have hsign : sign (c :: ds) = (false, c :: ds) := by
    unfold sign
    split
    · next heq => exact absurd (List.cons.inj heq).1 (hne '-' (by decide))
    · next heq => exact absurd (List.cons.inj heq).1 (hne '+' (by decide))
    · rfl
  have hletters : ∀ d s, d.isDigit = false → d.toLower = d →
      ¬ Text.sameLetters (c :: ds) (d :: s) = true := by
    intro d s hd hlower
    simp [Text.sameLetters, toLower_of_isDigit hc, hlower, hne d hd]
  have hinf : ¬ Text.sameLetters (c :: ds) "inf".toList = true :=
    hletters 'i' "nf".toList (by decide) (by decide)
  have hinfinity : ¬ Text.sameLetters (c :: ds) "infinity".toList = true :=
    hletters 'i' "nfinity".toList (by decide) (by decide)
  have hnan : ¬ Text.sameLetters (c :: ds) "nan".toList = true :=
    hletters 'n' "an".toList (by decide) (by decide)
  unfold number?
  rw [hsign]
  dsimp only
  rw [if_neg (not_or.2 ⟨hinf, hinfinity⟩), if_neg hnan]
  cases unsigned? (c :: ds) <;> rfl

/-- Digits without a sign are read as a value without one. -/
theorem number?_unsigned {c : Char} (hc : c.isDigit = true) {ds : Text} {v : Float}
    (h : number? (c :: ds) = some v) : Unsigned v := by
  rw [number?_of_isDigit hc] at h
  unfold unsigned? at h
  dsimp only at h
  split at h
  all_goals
    split at h
    · cases h
    · obtain ⟨e, -, rfl⟩ := Option.map_eq_some_iff.1 h
      exact unsigned_nearest _ _

/-! ### Values above zero -/

theorem lt_iff (x y : Float) : x < y ↔ x.toModel.unpack.lt y.toModel.unpack = true := by
  change decide (x.toModel.unpack.lt y.toModel.unpack = true) = true ↔ _
  rw [decide_eq_true_eq]

/-- A value above zero has the positive sign and is a number. -/
theorem unpack_of_pos {x : Float} (h : 0 < x) :
    let bits := x.toModel.toBits.toBitVec
    @unpackSign Format.binary64 bits = 0#1
      ∧ (@unpackExponent Format.binary64 bits = -1#11 →
        @unpackMantissa Format.binary64 bits = 0#52) := by
  rw [lt_iff, unpack_zero] at h
  change UnpackedFloat.lt (.zero .positive)
    (unpack Format.binary64 x.toModel.toBits.toBitVec) = true at h
  generalize x.toModel.toBits.toBitVec = bits at h
  unfold UnpackedFloat.unpack at h
  dsimp only at h ⊢
  have hpositive : ∀ {f : Sign → UnpackedFloat},
      UnpackedFloat.lt (.zero .positive) (f (.ofBitVec (@unpackSign Format.binary64 bits))) = true →
      UnpackedFloat.lt (.zero .positive) (f .negative) = false →
      @unpackSign Format.binary64 bits = 0#1 := by
    intro f hlt hnegative
    by_contra hsign
    rw [Sign.ofBitVec, if_neg hsign, hnegative] at hlt
    cases hlt
  -- The exponent field tells which form is unpacked, and each form has the sign for itself.
  split at h
  · split at h
    · next hm => exact ⟨hpositive h rfl, fun _ => hm⟩
    · cases h
  · next he =>
    refine ⟨?_, fun h => absurd h he⟩
    split at h
    · split at h
      · cases h
      · exact hpositive (f := fun s => .finite s _ _ _) h rfl
    · exact hpositive (f := fun s => .finite s _ _ _) h rfl

/-- A value above zero is written without a sign. -/
theorem read_of_pos {x : Float} (h : 0 < x) :
    (∃ m e, read x = .finite false m e) ∨ read x = .infinite false := by
  obtain ⟨hsign, hnumber⟩ := unpack_of_pos h
  have hlt := x.toBits.toNat_lt
  have hnegative : x.toBits.toNat >>> 63 = 0 := by
    have hvalue := congrArg BitVec.toNat hsign
    change (x.toBits.toNat >>> 63) % 2 = 0 at hvalue
    rw [Nat.shiftRight_eq_div_pow] at hvalue ⊢
    omega
  have hfraction :
      (x.toBits.toNat >>> 52) % 0x800 = 2047 → x.toBits.toNat % 0x10000000000000 = 0 := by
    intro he
    have hm := hnumber (BitVec.eq_of_toNat_eq he)
    exact congrArg BitVec.toNat hm
  unfold read
  dsimp only
  rw [hnegative]
  split
  · next he =>
    rw [if_pos (hfraction he)]
    exact Or.inr rfl
  · split
    · exact Or.inl ⟨_, _, rfl⟩
    · exact Or.inl ⟨_, _, rfl⟩

/-- Digits whose value is above zero when it is rounded do not have the value zero. -/
theorem not_le_zero_of_rounded {v : Float} (hv : Unsigned v) (h : 0 < roundToHundredths v) :
    ¬ v ≤ 0 := by
  intro hle
  rw [le_iff, unpack_zero] at hle
  have hzero : v.toModel.unpack = .zero .positive := by
    unfold Unsigned at hv
    cases hx : v.toModel.unpack with
    | notANumber =>
      rw [hx] at hle
      cases hle
    | infinity s =>
      rw [hx] at hv hle
      obtain rfl : s = .positive := hv
      cases hle
    | zero s =>
      rw [hx] at hv
      obtain rfl : s = .positive := hv
      rfl
    | finite s m e hm =>
      rw [hx] at hv hle
      obtain rfl : s = .positive := hv
      cases hle
  have hproduct : v * 100 = 0 * 100 := by
    change (⟨.pack (UnpackedFloat.mul Format.binary64 v.toModel.unpack (100 : Float).toModel.unpack)⟩
      : Float) = _
    rw [hzero]
    rfl
  have hround : ¬ 0 < roundToHundredths 0 := by decide +kernel
  rw [roundToHundredths, hproduct] at h
  exact hround h

end ImageScript.Decimal
