import Mathlib
import ImageScript.Decimal.Reader
import ImageScript.Widget.Pattern

/-!
# Numbers from zero to one

A number from zero to one is at most one hundred hundredths, also where the product with one hundred
is rounded up. The similarity that a pattern stores is therefore one of few values, and each of them
is read back from its text.

Main statement: `Pattern.clampSimilarity_settled`.
-/

namespace ImageScript

open Float.Model Float.Model.UnpackedFloat

namespace Decimal

/-! ### Rounding of a product -/

theorem mantissa_shiftRight (em : ExtendedMantissa) (n : Nat) :
    (em >>> n).mantissa = em.mantissa / 2 ^ n := by
  induction n with
  | zero => simp [HShiftRight.hShiftRight, Nat.repeat]
  | succ n ih =>
    change (em >>> n).mantissa / 2 = _
    rw [ih, Nat.div_div_eq_div_mul, Nat.pow_succ]

theorem roundedMantissa_le (em : ExtendedMantissa) : em.roundedMantissa ≤ em.mantissa + 1 := by
  obtain ⟨m, roundBit, stickyBit⟩ := em
  cases roundBit <;> cases stickyBit <;>
    simp only [ExtendedMantissa.roundedMantissa, ExtendedMantissa.accuracy,
      Accuracy.roundToNearestEven] <;> omega

/-- A value below 128 has at least 46 binary places left when its mantissa is cut. -/
theorem exists_shiftToTargetExponent {m k : Nat} (hk : 46 ≤ k) (h : m < 2 ^ (k + 7)) :
    ∃ j n, k = j + n ∧ 46 ≤ j ∧ shiftToTargetExponent Format.binary64 m (-k) .exact =
      ((⟨m, false, false⟩ : ExtendedMantissa) >>> n, -(j : Int)) := by
  have hlog : m.log2 < k + 7 := by
    by_cases hm : m = 0
    · rw [hm, Nat.log2_zero]
      omega
    · exact (Nat.log2_lt hm).2 h
  refine ⟨k - (Format.binary64.targetExponent (totalExponent m (-k)) - -k).toNat,
    (Format.binary64.targetExponent (totalExponent m (-k)) - -k).toNat, ?_⟩
  have htarget : Format.binary64.targetExponent (totalExponent m (-k)) ≤ -46 := by
    simp only [Format.targetExponent, totalExponent, Format.mantissaBits, Format.minExponent]
    omega
  refine ⟨by omega, by omega, ?_⟩
  simp only [shiftToTargetExponent, shiftToExponent, ExtendedMantissa.ofMantissaAndAccuracy,
    Prod.mk.injEq, true_and]
  omega

/-- Whether a value is zero, or positive and at most one hundred and one unit of its last place. -/
def IsAboutHundred : UnpackedFloat → Prop
  | .zero _ => True
  | .finite .positive m e _ => ∃ k : Nat, e = -k ∧ 46 ≤ k ∧ m ≤ 100 * 2 ^ k + 1
  | .finite .negative .. | .infinity _ | .notANumber => False

/-- A value of at most one hundred is rounded to one that is hardly greater. -/
theorem isAboutHundred_round {m k : Nat} (hk : 46 ≤ k) (h : m ≤ 100 * 2 ^ k) :
    IsAboutHundred (roundWithAccuracy Format.binary64 .positive m (-k) .exact) := by
  have hlt : ∀ {j r : Nat}, 46 ≤ j → r ≤ 100 * 2 ^ j + 1 → r < 2 ^ (j + 7) := by
    intro j r hj hr
    have hpow : 2 ^ (j + 7) = 128 * 2 ^ j := by rw [Nat.pow_add, Nat.mul_comm]
    have hpos := Nat.two_pow_pos j
    omega
  have hm : m < 2 ^ (k + 7) := hlt hk (Nat.le_succ_of_le h)
  obtain ⟨j, n, rfl, hj, hfirst⟩ := exists_shiftToTargetExponent hk hm
  have hround : ((⟨m, false, false⟩ : ExtendedMantissa) >>> n).roundedMantissa ≤ 100 * 2 ^ j + 1 := by
    refine Nat.le_trans (roundedMantissa_le _) (Nat.add_le_add_right ?_ 1)
    rw [mantissa_shiftRight]
    refine Nat.div_le_of_le_mul ?_
    rwa [Nat.mul_comm, Nat.mul_assoc, ← Nat.pow_add]
  obtain ⟨i, n', rfl, hi, hsecond⟩ := exists_shiftToTargetExponent hj (hlt hj hround)
  unfold roundWithAccuracy
  dsimp only
  split
  · exact trivial
  · refine ⟨i, ?_, hi, ?_⟩
    · rw [hfirst, hsecond]
    · rw [hfirst, hsecond, mantissa_shiftRight]
      refine Nat.div_le_of_le_mul (Nat.le_trans hround ?_)
      have hone := Nat.two_pow_pos n'
      rw [Nat.pow_add, Nat.mul_add, Nat.mul_one, ← Nat.mul_assoc 100, Nat.mul_comm (2 ^ n')]
      omega

/-! ### The bits of a double -/

theorem toNat_packComponents (s : Sign) (e : BitVec 11) (m : BitVec 52) :
    (packComponents Format.binary64 s e m).toNat =
      s.toBitVec.toNat * 2 ^ 63 + e.toNat * 2 ^ 52 + m.toNat := by
  simp only [packComponents, BitVec.toNat_append]
  rw [← Nat.shiftLeft_add_eq_or_of_lt e.isLt, ← Nat.shiftLeft_add_eq_or_of_lt m.isLt]
  simp only [Nat.shiftLeft_eq]
  omega

/-- What bits with a sign, an exponent and a fraction stand for. -/
theorem read_packComponents {x : Float} {s : Sign} {e : BitVec 11} {m : BitVec 52}
    (h : x.toBits.toNat = (packComponents Format.binary64 s e m).toNat) (he : e.toNat < 2047) :
    read x = if e.toNat = 0 then .finite (s.toBitVec.toNat = 1) m.toNat (-1074)
      else .finite (s.toBitVec.toNat = 1) (0x10000000000000 + m.toNat) (e.toNat - 1075) := by
  have hm := m.isLt
  have hs := s.toBitVec.isLt
  rw [toNat_packComponents] at h
  have hexponent : (x.toBits.toNat >>> 52) % 0x800 = e.toNat := by
    rw [h, Nat.shiftRight_eq_div_pow]
    omega
  have hfraction : x.toBits.toNat % 0x10000000000000 = m.toNat := by
    rw [h]
    omega
  have hnegative : x.toBits.toNat >>> 63 = s.toBitVec.toNat := by
    rw [h, Nat.shiftRight_eq_div_pow]
    omega
  simp only [read, hexponent, hfraction, hnegative]
  rw [if_neg (by omega)]

/-- The exponent and the fraction of a positive value in 46 or more binary places. -/
theorem exists_pack_eq {m k : Nat} (hm : 0 < m) (hk : 46 ≤ k) :
    ∃ e : BitVec 11, e.toNat ≤ 1029 ∧ (e.toNat = 0 ∨ e.toNat = 1075 - k ∧ m / 2 ^ 52 = 1)
      ∧ Float.Model.UnpackedFloat.pack Format.binary64 (.finite .positive m (-(k : Int)) hm) =
        packComponents Format.binary64 .positive e (BitVec.ofNat 52 m) := by
  have hbiased : (-(k : Int) + Format.binary64.exponentBias + (52 : Nat)).toNat = 1075 - k := by
    change (-(k : Int) + 1023 + 52).toNat = _
    omega
  have hsmall : ¬ 2 ^ 11 ≤ 1075 - k + 1 := by omega
  by_cases hnormal : m.log2 + 1 = Format.binary64.mantissaBits
  · have hlog : m.log2 = 52 := Nat.succ.inj hnormal
    refine ⟨BitVec.ofNat 11 (1075 - k), ?_, Or.inr ⟨?_, ?_⟩, ?_⟩
    · rw [BitVec.toNat_ofNat]
      omega
    · rw [BitVec.toNat_ofNat]
      omega
    · have hlow := Nat.log2_self_le (Nat.ne_of_gt hm)
      have hhigh := Nat.lt_log2_self (n := m)
      rw [hlog] at hlow hhigh
      omega
    · unfold Float.Model.UnpackedFloat.pack
      dsimp only
      rw [hbiased, if_neg hsmall, if_pos hnormal]
  · refine ⟨0#11, by decide, Or.inl rfl, ?_⟩
    unfold Float.Model.UnpackedFloat.pack
    dsimp only
    rw [hbiased, if_neg hsmall, if_neg hnormal]

theorem exists_read_pack {m k : Nat} (hm : 0 < m) (hk : 46 ≤ k) (h : m ≤ 100 * 2 ^ k + 1) :
    ∃ n j, read ⟨.pack (.finite .positive m (-(k : Int)) hm)⟩ = .finite false n (.negSucc j)
      ∧ 1 ≤ j ∧ n ≤ 100 * 2 ^ (j + 1) + 1 := by
  obtain ⟨e, he, hshape, hpack⟩ := exists_pack_eq hm hk
  have hread := read_packComponents (x := ⟨.pack (.finite .positive m (-(k : Int)) hm)⟩)
    (congrArg BitVec.toNat hpack) (by omega)
  have hfraction : (BitVec.ofNat 52 m).toNat = m % 2 ^ 52 := BitVec.toNat_ofNat ..
  by_cases hzero : e.toNat = 0
  · rw [if_pos hzero] at hread
    have hwide : ∀ j, 51 ≤ j → 2 ^ 52 ≤ 100 * 2 ^ (j + 1) + 1 := by
      intro j hj
      have hpow : 2 ^ 52 ≤ 2 ^ (j + 1) := Nat.pow_le_pow_right (by decide) (by omega)
      omega
    refine ⟨_, 1073, hread, by decide, Nat.le_trans ?_ (hwide 1073 (by decide))⟩
    rw [hfraction]
    omega
  · obtain ⟨hexponent, hnormal⟩ := hshape.resolve_left hzero
    obtain ⟨j, rfl⟩ : ∃ j, k = j + 1 := ⟨k - 1, by omega⟩
    have hmantissa : 0x10000000000000 + (BitVec.ofNat 52 m).toNat = m := by
      rw [hfraction]
      omega
    have hplaces : (e.toNat : Int) - 1075 = .negSucc j := by
      rw [Int.negSucc_eq]
      omega
    rw [if_neg hzero, hmantissa, hplaces] at hread
    exact ⟨m, j, hread, by omega, h⟩

/-- Whether bits stand for zero, or for a positive value of hardly more than one hundred. -/
def ReadsAboutHundred (x : Float) : Prop :=
  (∃ negative, read x = .finite negative 0 (-1074))
    ∨ ∃ n j, read x = .finite false n (.negSucc j) ∧ 1 ≤ j ∧ n ≤ 100 * 2 ^ (j + 1) + 1

/-- A value of about one hundred is read from its bits as one. -/
theorem IsAboutHundred.read_pack {f : UnpackedFloat} (hf : IsAboutHundred f) :
    ReadsAboutHundred ⟨.pack f⟩ := by
  match f, hf with
  | .zero .positive, _ => exact Or.inl ⟨false, rfl⟩
  | .zero .negative, _ => exact Or.inl ⟨true, rfl⟩
  | .finite .positive m _ hm, ⟨k, rfl, hk, h⟩ => exact Or.inr (exists_read_pack hm hk h)

/-! ### Numbers from zero to one -/

theorem unpack_zero : (0 : Float).toModel.unpack = .zero .positive := rfl

theorem unpack_one : (1 : Float).toModel.unpack = .finite .positive (2 ^ 52) (-52) (by decide) :=
  rfl

theorem unpack_hundred :
    (100 : Float).toModel.unpack = .finite .positive (25 * 2 ^ 48) (-46) (by decide) := rfl

theorem le_iff (x y : Float) : x ≤ y ↔ x.toModel.unpack.le y.toModel.unpack = true := by
  change decide (x.toModel.unpack.le y.toModel.unpack = true) = true ↔ _
  rw [decide_eq_true_eq]

/-- The mantissa of a double has 53 bits. -/
theorem mantissa_lt {x : Float} {s : Sign} {m : Nat} {e : Int} {hm : 0 < m}
    (h : x.toModel.unpack = .finite s m e hm) : m < 2 ^ 53 := by
  unfold Float.Model.unpack Float.Model.UnpackedFloat.unpack at h
  dsimp only at h
  split at h
  · split at h <;> cases h
  · split at h
    · split at h
      · cases h
      · cases h
        exact Nat.lt_trans (BitVec.isLt _) (by decide)
    · cases h
      exact BitVec.isLt _

/-- A number from zero to one is zero, or a positive fraction. -/
theorem unpack_of_unit {x : Float} (h₀ : 0 ≤ x) (h₁ : x ≤ 1) :
    (∃ s, x.toModel.unpack = .zero s)
      ∨ ∃ (m k : Nat) (hm : 0 < m), m ≤ 2 ^ k
        ∧ x.toModel.unpack = .finite .positive m (-(k : Int)) hm := by
  rw [le_iff, unpack_zero] at h₀
  rw [le_iff, unpack_one] at h₁
  cases hx : x.toModel.unpack with
  | notANumber =>
    rw [hx] at h₁
    cases h₁
  | infinity s =>
    rw [hx] at h₀ h₁
    cases s with
    | negative => cases h₀
    | positive => cases h₁
  | zero s => exact Or.inl ⟨s, rfl⟩
  | finite s m e hm =>
    rw [hx] at h₀ h₁
    cases s with
    | negative => cases h₀
    | positive =>
      have hlt := mantissa_lt hx
      have hcompare : ((compare e (-52)).then (compare m (2 ^ 52))).isLE = true := h₁
      rw [Ordering.isLE_then_iff_or, Int.compare_eq_lt, Int.compare_eq_eq, Nat.isLE_compare] at hcompare
      obtain ⟨k, rfl⟩ : ∃ k : Nat, e = -k := ⟨(-e).toNat, by omega⟩
      refine Or.inr ⟨m, k, hm, ?_, rfl⟩
      rcases hcompare with hsmall | ⟨hk, hle⟩
      · have hpow : 2 ^ 53 ≤ 2 ^ k := Nat.pow_le_pow_right (by decide) (by omega)
        omega
      · obtain rfl : k = 52 := by omega
        exact hle

/-- The hundredfold of a number from zero to one is about one hundred at most. -/
theorem readsAboutHundred {x : Float} (h₀ : 0 ≤ x) (h₁ : x ≤ 1) : ReadsAboutHundred (x * 100) := by
  have hproduct : x * 100 =
      ⟨.pack (mul Format.binary64 x.toModel.unpack (100 : Float).toModel.unpack)⟩ := rfl
  rw [hproduct, unpack_hundred]
  refine IsAboutHundred.read_pack ?_
  rcases unpack_of_unit h₀ h₁ with ⟨s, hx⟩ | ⟨m, k, hm, hle, hx⟩
  · rw [hx]
    exact trivial
  · have hplaces : -(k : Int) + -46 = -((k + 46 : Nat) : Int) := by omega
    have hbound : m * (25 * 2 ^ 48) ≤ 100 * 2 ^ (k + 46) := by
      rw [Nat.pow_add]
      omega
    have habout := isAboutHundred_round (Nat.le_add_left 46 k) hbound
    rw [← hplaces] at habout
    rw [hx]
    exact habout

/-- A number from zero to one has from zero to one hundred hundredths. -/
theorem exists_roundToHundredths {x : Float} (h₀ : 0 ≤ x) (h₁ : x ≤ 1) :
    (∃ n < 101, roundToHundredths x = Float.ofNat n / 100)
      ∨ roundToHundredths x = -Float.ofNat 0 / 100 := by
  rcases readsAboutHundred h₀ h₁ with ⟨negative, hread⟩ | ⟨m, j, hread, hj, hle⟩
  · have hnone : ∀ k, (0 + 1 <<< k) >>> (k + 1) = 0 := by
      intro k
      rw [Nat.zero_add, Nat.shiftLeft_eq, Nat.one_mul, Nat.shiftRight_eq_div_pow]
      exact Nat.div_eq_of_lt (Nat.pow_lt_pow_succ (by decide))
    have hround : roundHalfAway (x * 100) = withSign negative (Float.ofNat 0) := by
      rw [roundHalfAway, hread]
      exact congrArg (fun n => withSign negative (Float.ofNat n)) (hnone 1073)
    rw [roundToHundredths, hround]
    cases negative with
    | false => exact Or.inl ⟨0, by decide, rfl⟩
    | true => exact Or.inr rfl
  · refine Or.inl ⟨(m + 1 <<< j) >>> (j + 1), ?_, ?_⟩
    · have hpow : 2 ^ (j + 1) = 2 * 2 ^ j := Nat.pow_succ'
      have hpos : 2 ≤ 2 ^ j := Nat.le_trans (by decide) (Nat.pow_le_pow_right (by decide) hj)
      rw [Nat.shiftLeft_eq, Nat.one_mul, Nat.shiftRight_eq_div_pow, Nat.div_lt_iff_lt_mul (by omega)]
      omega
    · rw [roundToHundredths, roundHalfAway, hread]
      rfl

/-- The number that the text of a finite value is read as. -/
def reread? (x : Float) : Option Float :=
  match read x with
  | .finite negative m e => (number? (hundredthsText (hundredths m e))).map (withSign negative)
  | .nan | .infinite _ => none

end Decimal

namespace Pattern

/-- Whether a similarity is stored, written and read back without a change, also where it is written
as exact or, as the default, not at all. -/
structure IsSettledSimilarity (x : Float) : Prop where
  reread : Decimal.reread? x = some x
  nonneg : 0 ≤ x
  le_one : x ≤ 1
  stored : clampSimilarity x = x
  exact : exactSimilarity ≤ x → x = exactSimilarity
  default : (x == defaultSimilarity) = true → x = defaultSimilarity

instance (x : Float) : Decidable (IsSettledSimilarity x) :=
  decidable_of_iff (Decimal.reread? x = some x ∧ 0 ≤ x ∧ x ≤ 1 ∧ clampSimilarity x = x
      ∧ (exactSimilarity ≤ x → x = exactSimilarity)
      ∧ ((x == defaultSimilarity) = true → x = defaultSimilarity))
    ⟨fun h => ⟨h.1, h.2.1, h.2.2.1, h.2.2.2.1, h.2.2.2.2.1, h.2.2.2.2.2⟩,
      fun h => ⟨h.reread, h.nonneg, h.le_one, h.stored, h.exact, h.default⟩⟩

theorem exactSimilarity_settled : IsSettledSimilarity exactSimilarity := by decide +kernel

theorem defaultSimilarity_settled : IsSettledSimilarity defaultSimilarity := by decide +kernel

/-- What a pattern stores of a number from zero to one is read back from its text. -/
theorem clampSimilarity_settled {x : Float} (h₀ : 0 ≤ x) (h₁ : x ≤ 1) :
    IsSettledSimilarity (clampSimilarity x) := by
  let clamp (r : Float) : Float := if r < 0 ∨ r.isNaN then 0 else if 1 ≤ r then exactSimilarity else r
  have hclamp : clampSimilarity x = clamp (Decimal.roundToHundredths x) := rfl
  have hsettled : ∀ n < 101, IsSettledSimilarity (clamp (Float.ofNat n / 100)) := by decide +kernel
  rw [hclamp]
  rcases Decimal.exists_roundToHundredths h₀ h₁ with ⟨n, hn, heq⟩ | heq
  · rw [heq]
    exact hsettled n hn
  · rw [heq]
    decide +kernel

end Pattern

end ImageScript
