import ImageScript.Script.LiteralScan

/-!
# What the literal scan finds

The scan counts lines with a cursor and stops at the first string that is left open. Main statements:
the open string it reports is the first unterminated token, on the line of its offset, and the
contents it collects are those of the tokens before.
-/

namespace ImageScript

namespace Text

/-- The line feeds before an offset are counted in two parts. -/
theorem breaksBetween_add (s : Text) {a b : Nat} (h : a ≤ b) :
    breaksBetween s 0 a + breaksBetween s a b = breaksBetween s 0 b := by
  induction s generalizing a b with
  | nil => rfl
  | cons c r ih =>
    have hr := ih (a := a - c.utf8Size) (b := b - c.utf8Size) (by omega)
    simp only [breaksBetween, Nat.zero_sub]
    by_cases hc : c = '\n'
    · rcases Nat.eq_zero_or_pos a with h0 | h0
      · simp [hc, h0] at hr ⊢
        omega
      · have hb : 0 < b := by omega
        simp only [hc, h0, hb, Nat.ne_of_gt h0, and_true, if_true, and_false, if_false] at hr ⊢
        omega
    · simp only [hc, false_and, if_false]
      omega

namespace LineCursor

/-- Whether the line of a cursor is the one its offset lies on. -/
structure Counts (l : LineCursor) (s : Text) : Prop where
  text_eq : l.text = s
  offset_le : l.offset ≤ byteLen s
  line_eq : l.line = breaksBetween s 0 l.offset + 1

theorem counts_start (s : Text) : (start s).Counts s := by
  refine ⟨rfl, Nat.zero_le _, ?_⟩
  have h := breaksBetween_add s (Nat.le_refl 0)
  simp only [start]
  omega

theorem Counts.moveTo {l : LineCursor} {s : Text} (h : l.Counts s) (offset : Nat) :
    (l.moveTo offset).Counts s := by
  obtain ⟨htext, hoffset, hline⟩ := h
  have hle : min offset (byteLen s) ≤ byteLen s := Nat.min_le_right ..
  simp only [LineCursor.moveTo, htext]
  split
  · exact ⟨rfl, hle, Nat.add_comm ..⟩
  · next hge =>
    refine ⟨rfl, hle, ?_⟩
    have hadd := breaksBetween_add s (Nat.le_of_not_lt hge)
    simp only
    omega

theorem Counts.line_moveTo {l : LineCursor} {s : Text} (h : l.Counts s) (offset : Nat) :
    (l.moveTo offset).line = lineNumber s offset := by
  have hoffset : (l.moveTo offset).offset = min offset (byteLen s) := by
    simp only [LineCursor.moveTo, h.text_eq]
    split <;> rfl
  rw [(h.moveTo offset).line_eq, hoffset, lineNumber]

end LineCursor

end Text

namespace Token

/-- Whether a token is a string that is never closed. -/
def isOpen (t : Token) : Bool := t.kind = .unterminated

end Token

namespace LiteralScan

/-- Where an open string stands. -/
def place (s : Text) (t : Token) : OpenString := ⟨t.offset, Text.lineNumber s t.offset⟩

/-- The scan reports the first string that is left open. -/
theorem openString_ofTokens {lines : Text.LineCursor} {s : Text} (h : lines.Counts s)
    (ts : List Token) : (ofTokens lines ts).openString = (ts.find? Token.isOpen).map (place s) := by
  induction ts generalizing lines with
  | nil => rfl
  | cons t ts ih =>
    simp only [ofTokens, List.find?_cons]
    by_cases ht : t.kind = .unterminated
    · simp [ht, Token.isOpen, place, h.line_moveTo]
    · rw [if_neg ht]
      have hopen : t.isOpen = false := by simpa [Token.isOpen] using ht
      rw [hopen]
      split
      · exact ih h
      · exact ih (h.moveTo t.offset)

/-- How a string is reported, with the line on which it begins. -/
def literal? (s : Text) (t : Token) : Option StringLiteral :=
  t.content?.map fun content => ⟨content, t.offset, Text.lineNumber s t.offset⟩

/-- The scan collects the strings before the first open one. -/
theorem literals_ofTokens {lines : Text.LineCursor} {s : Text} (h : lines.Counts s)
    (ts : List Token) : (ofTokens lines ts).literals
      = (ts.takeWhile (!·.isOpen)).filterMap (literal? s) := by
  induction ts generalizing lines with
  | nil => rfl
  | cons t ts ih =>
    simp only [ofTokens]
    by_cases ht : t.kind = .unterminated
    · have hopen : t.isOpen = true := by simpa [Token.isOpen] using ht
      simp [ht, hopen]
    · have hopen : t.isOpen = false := by simpa [Token.isOpen] using ht
      rw [if_neg ht, List.takeWhile_cons_of_pos (by simp [hopen])]
      cases hc : t.content? with
      | none => simpa [literal?, hc] using ih h
      | some content => simpa [literal?, hc, h.line_moveTo] using ih (h.moveTo t.offset)

end LiteralScan

/-- The open string of a text is its first unterminated token at any depth. -/
theorem openString_scanLiterals (s : Text) :
    (scanLiterals s).openString
      = ((deepTokens s).find? Token.isOpen).map (LiteralScan.place s) :=
  LiteralScan.openString_ofTokens (Text.LineCursor.counts_start s) _

/-- The strings of a text are those of the tokens before the first unterminated one. -/
theorem literals_scanLiterals (s : Text) : (scanLiterals s).literals
    = ((deepTokens s).takeWhile (!·.isOpen)).filterMap (LiteralScan.literal? s) :=
  LiteralScan.literals_ofTokens (Text.LineCursor.counts_start s) _

theorem contents_scanLiterals (s : Text) :
    (scanLiterals s).literals.map StringLiteral.content
      = ((deepTokens s).takeWhile (!·.isOpen)).filterMap Token.content? := by
  rw [literals_scanLiterals, List.map_filterMap]
  congr 1
  funext t
  rw [LiteralScan.literal?, Option.map_map]
  cases t.content? <;> rfl

end ImageScript
