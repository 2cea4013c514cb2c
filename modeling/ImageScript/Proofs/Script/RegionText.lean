import ImageScript.Proofs.Script.Spelling

/-!
# Regions read from their text

The text of a region is one literal with the numbers of the region, unless one of them is the least
number of 32 bits. The digits of that number do not fit 32 bits with a sign, so they are no argument
of a region, and the text holds no literal at all.

Main statement: `Region.recognizeAll_toText`.
-/

namespace ImageScript

namespace Recognition

/-- Every number of 32 bits but the least one can be written as an argument. -/
theorem isArgument_iff {i : Int32} : IsArgument i ↔ i ≠ Int32.minValue := by
  have hle := Int32.le_toInt i
  have hmin : Int32.minValue.toInt = -0x80000000 := rfl
  rw [IsArgument, Ne, ← Int32.toInt_inj, hmin]
  omega

/-- The digits of the least number do not fit. -/
theorem ne_minValue_of_int? {o : Nat} {i j : Int32} (h : int? (numberTokens o i.toInt) = some j) :
    Int32.minValue ≠ i := by
  rintro rfl
  have hmin : Int32.minValue.toInt = .negSucc 0x7FFFFFFF := rfl
  have hsigned : signedNumber? (numberTokens o (.negSucc 0x7FFFFFFF)) =
      some (true, Text.ofNat 0x80000000) := rfl
  rw [hmin, int?, hsigned, Option.bind_some] at h
  dsimp only at h
  rw [Text.toNat?_ofNat, Option.bind_some, if_neg (Nat.lt_irrefl _)] at h
  cases h

/-- A text in which no token begins a literal holds none. -/
theorem literals_of_not_opens {ts : List Token} (h : ∀ t ∈ ts, t.opens = false) :
    literals ts = [] := by
  induction ts with
  | nil => simp [literals, scan]
  | cons t ts ih =>
    rw [literals_of_none (here?_of_not_opens (h t (List.mem_cons_self ..)) ts)]
    exact ih fun u hu => h u (List.mem_cons_of_mem t hu)

end Recognition

/-- No literal begins with a number. -/
theorem opens_of_mem_numberTokens {o : Nat} {i : Int} {t : Token} (h : t ∈ numberTokens o i) :
    t.opens = false := by
  have hdigits : ∀ o n, Token.opens ⟨.other, Text.ofNat n, o⟩ = false := by
    intro o n
    have hword : ∀ s : String, (∃ c ∈ s.toList, c.isDigit = false) →
        Token.is ⟨.other, Text.ofNat n, o⟩ s = false := by
      rintro s ⟨c, hc, hdigit⟩
      refine Bool.eq_false_iff.2 fun his => ?_
      rw [← Token.text_of_is his] at hc
      rw [Text.isDigit_of_mem_ofNat hc] at hdigit
      cases hdigit
    simp [Token.opens, Token.isDoubleQuoted, hword "Pattern" ⟨'P', by decide, by decide⟩,
      hword "Region" ⟨'R', by decide, by decide⟩]
  cases i with
  | ofNat n =>
    rw [List.mem_singleton.1 h]
    exact hdigits o n
  | negSucc n =>
    rcases List.mem_cons.1 h with rfl | h
    · rfl
    · rw [List.mem_singleton.1 h]
      exact hdigits (o + 1) (n + 1)

namespace Region

open Recognition

variable {r : Region}

theorem isWritable_iff : r.IsWritable ↔ Int32.minValue ∉ [r.x, r.y, r.w, r.h] := by
  simp only [List.mem_cons, List.not_mem_nil, or_false, not_or]
  constructor
  · rintro ⟨hx, hy, hw, hh⟩
    exact ⟨(isArgument_iff.1 hx).symm, (isArgument_iff.1 hy).symm, (isArgument_iff.1 hw).symm,
      (isArgument_iff.1 hh).symm⟩
  · rintro ⟨hx, hy, hw, hh⟩
    exact ⟨isArgument_iff.2 (Ne.symm hx), isArgument_iff.2 (Ne.symm hy), isArgument_iff.2 (Ne.symm hw),
      isArgument_iff.2 (Ne.symm hh)⟩

/-- The tokens behind the name of a region: the arguments of a call, and the marker. -/
theorem exists_tokens_toText (r : Region) : ∃ o₁ o₂ o₃ o₄ k₁ k₂ k₃ k₄ k, tokenize r.toText =
    ⟨.other, "Region".toList, 0⟩ :: sign '(' 6
      :: (numberTokens o₁ r.x.toInt ++ sign ',' k₁ :: (numberTokens o₂ r.y.toInt ++ sign ',' k₂
      :: (numberTokens o₃ r.w.toInt ++ sign ',' k₃ :: (numberTokens o₄ r.h.toInt ++ sign ')' k₄
      :: Cursor.tokens ⟨k, r.tail⟩)))) := by
  rw [tokenize, toText_eq, tokens_call, Cursor.tokens_argument _ _ (Or.inl rfl),
    Cursor.tokens_argument _ _ (Or.inl rfl), Cursor.tokens_argument _ _ (Or.inl rfl),
    Cursor.tokens_argument _ _ (Or.inr rfl)]
  exact ⟨_, _, _, _, _, _, _, _, _, rfl⟩

/-- No literal begins within the marker of a region. -/
theorem opens_of_mem_tail {o : Nat} {t : Token} (h : t ∈ Cursor.tokens ⟨o, r.tail⟩) :
    t.opens = false := by
  unfold tail at h
  split at h
  · rw [tokens_asOffset] at h
    simp only [List.mem_cons, List.not_mem_nil, or_false] at h
    rcases h with rfl | rfl | rfl | rfl <;> rfl
  · rw [Cursor.tokens_nil] at h
    exact absurd h List.not_mem_nil

/-- The text of a region with the least number holds no literal. -/
theorem recognizeAll_of_minValue (h : Int32.minValue ∈ [r.x, r.y, r.w, r.h]) :
    recognizeAll r.toText = [] := by
  obtain ⟨o₁, o₂, o₃, o₄, k₁, k₂, k₃, k₄, k, htokens⟩ := exists_tokens_toText r
  rw [recognizeAll_eq_literals, htokens]
  have hread := CallArguments.read?_numbers o₁ o₂ o₃ o₄ k₁ k₂ k₃ k₄ r.x.toInt r.y.toInt r.w.toInt
    r.h.toInt (Cursor.tokens ⟨k, r.tail⟩)
  have hnone : here? (⟨.other, "Region".toList, 0⟩ :: sign '(' 6
      :: (numberTokens o₁ r.x.toInt ++ sign ',' k₁ :: (numberTokens o₂ r.y.toInt ++ sign ',' k₂
      :: (numberTokens o₃ r.w.toInt ++ sign ',' k₃ :: (numberTokens o₄ r.h.toInt ++ sign ')' k₄
      :: Cursor.tokens ⟨k, r.tail⟩))))) = none := by
    have hcall : (Token.is ⟨.other, "Region".toList, 0⟩ "Region" && (sign '(' 6).is "(") = true := rfl
    rw [here?_of_region rfl, region?, if_pos hcall, hread, Option.bind_some]
    split
    · next x y w h' heq =>
      simp only [List.map_cons, List.map_nil, List.cons.injEq, and_true] at heq
      obtain ⟨hx, hy, hw, hh⟩ := heq
      simp only [List.mem_cons, List.not_mem_nil, or_false] at h
      rcases h with h | h | h | h
      · exact absurd h (ne_minValue_of_int? hx)
      · exact absurd h (ne_minValue_of_int? hy)
      · exact absurd h (ne_minValue_of_int? hw)
      · exact absurd h (ne_minValue_of_int? hh)
    · rfl
  rw [literals_of_none hnone]
  refine literals_of_not_opens fun t ht => ?_
  simp only [List.mem_cons, List.mem_append] at ht
  rcases ht with rfl | ht | rfl | ht | rfl | ht | rfl | ht | rfl | ht
  all_goals first
    | rfl
    | exact opens_of_mem_numberTokens ht
    | exact opens_of_mem_tail ht

/-- The text of a region is one literal that gives back the region, or none where a number is the
least one. -/
theorem recognizeAll_toText (r : Region) : recognizeAll r.toText =
    if Int32.minValue ∈ [r.x, r.y, r.w, r.h] then []
    else [⟨0, Text.byteLen r.toText, .region ⟨r.x, r.y, r.w, r.h, r.asOffset⟩⟩] := by
  split
  · next h => exact recognizeAll_of_minValue h
  · next h =>
    have hhere := here?_toText (isWritable_iff.2 h) 0
    rw [Nat.zero_add] at hhere
    rw [recognizeAll_eq_literals]
    exact literals_of_here? hhere

end Region

end ImageScript
