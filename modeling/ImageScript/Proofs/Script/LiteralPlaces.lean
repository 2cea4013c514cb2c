import Mathlib.Data.List.Forall2
import ImageScript.Proofs.Script.LiteralScan
import ImageScript.Proofs.Script.Lossless
import ImageScript.Proofs.Script.SuffixReading

/-!
# Where the literals of a text are found

The scan for literals misses no string at any depth of a text: up to the first string that is left
open it reports each of them once, with its content, its offset and its line, and it reports an open
string exactly where there is one. The cursor that counts the lines may be moved to and fro and past
the end of the text.

Main statements: `Text.lineNumber_eq_count`, `Text.LineCursor.Counts.visit_eq`,
`scanLiterals_complete`.
-/

namespace ImageScript

/-! ### Lines -/

namespace Text

/-- A line feed is a byte of its own and no part of another character. -/
theorem not_mem_encodeChar {c : Char} (h : c ≠ '\n') : 0x0A ∉ encodeChar c := by
  have hvalid : c.toNat < 0xD800 ∨ 0xDFFF < c.toNat ∧ c.toNat < 0x110000 := c.valid
  have hcode : c.toNat ≠ 0x0A := by
    intro hc
    have heq : c = Char.ofNat 0x0A := by rw [← hc, Char.ofNat_toNat]
    exact h heq
  have hbyte : ∀ n, n < 256 → n ≠ 0x0A → (0x0A : UInt8) ≠ n.toUInt8 := by
    intro n hn hne heq
    have hnat := congrArg UInt8.toNat heq
    rw [toNat_toUInt8 hn] at hnat
    exact hne hnat.symm
  unfold encodeChar
  dsimp only
  split
  · exact List.not_mem_cons_of_ne_of_not_mem (hbyte _ (by omega) hcode) List.not_mem_nil
  -- all bytes of a longer character are at least 0x80
  split
  · simp only [List.mem_cons, List.not_mem_nil, or_false, not_or]
    exact ⟨hbyte _ (by omega) (by omega), hbyte _ (by omega) (by omega)⟩
  split
  · simp only [List.mem_cons, List.not_mem_nil, or_false, not_or]
    exact ⟨hbyte _ (by omega) (by omega), hbyte _ (by omega) (by omega),
      hbyte _ (by omega) (by omega)⟩
  · simp only [List.mem_cons, List.not_mem_nil, or_false, not_or]
    exact ⟨hbyte _ (by omega) (by omega), hbyte _ (by omega) (by omega),
      hbyte _ (by omega) (by omega), hbyte _ (by omega) (by omega)⟩

theorem count_take_encodeChar (c : Char) (n : Nat) :
    ((encodeChar c).take n).count 0x0A = if c = '\n' ∧ 0 < n then 1 else 0 := by
  by_cases hc : c = '\n'
  · subst hc
    have hcode : encodeChar '\n' = [0x0A] := by decide
    rw [hcode]
    cases n <;> simp
  · rw [if_neg fun h => hc h.1]
    refine List.count_eq_zero_of_not_mem fun hmem => ?_
    exact not_mem_encodeChar hc (List.mem_of_mem_take hmem)

/-- The line feeds before an offset are the line feed bytes before it. -/
theorem breaksBetween_eq_count (s : Text) (n : Nat) :
    breaksBetween s 0 n = ((encode s).take n).count 0x0A := by
  induction s generalizing n with
  | nil => simp [breaksBetween, encode]
  | cons c s ih =>
    rw [encode, List.flatMap_cons, List.take_append, List.count_append, length_encodeChar, ← encode,
      ← ih, count_take_encodeChar, breaksBetween, Nat.zero_sub]
    simp

/-- The line of an offset is told by the line feed bytes before it. -/
theorem lineNumber_eq_count (s : Text) (offset : Nat) :
    lineNumber s offset = ((encode s).take offset).count 0x0A + 1 := by
  rw [lineNumber, breaksBetween_eq_count, ← length_encode, ← List.take_eq_take_min]

namespace LineCursor

/-- The lines of some offsets, visited one after another. -/
def visit (l : LineCursor) : List Nat → List Nat
  | [] => []
  | offset :: offsets => (l.moveTo offset).line :: visit (l.moveTo offset) offsets

/-- In whatever order offsets are visited, each has its line. -/
theorem Counts.visit_eq {l : LineCursor} {s : Text} (h : l.Counts s) (offsets : List Nat) :
    l.visit offsets = offsets.map (lineNumber s) := by
  induction offsets generalizing l with
  | nil => rfl
  | cons offset offsets ih => rw [visit, List.map_cons, h.line_moveTo, ih (h.moveTo offset)]

/-- Forth, back to the start, and past the end. -/
example : (start "a\n\nb".toList).visit [3, 0, 9, 2] = [3, 1, 3, 2] := by decide

end LineCursor

end Text

/-! ### Strings -/

theorem Cursor.isRead_of_mem_nestedTokens (p : Cursor) : ∀ t ∈ p.nestedTokens, t.IsRead := by
  fun_induction nestedTokens p with
  | case1 => exact fun t ht => absurd ht List.not_mem_nil
  | case2 p t q hnext hbody ih =>
    intro u hu
    rcases List.mem_cons.1 hu with rfl | hu
    · exact isRead_of_next? hnext
    · exact ih u hu
  | case3 p t q hnext body hbody ihbody ih =>
    intro u hu
    rcases List.mem_cons.1 hu with rfl | hu
    · exact isRead_of_next? hnext
    · exact (List.mem_append.1 hu).elim (ihbody u) (ih u)

namespace LiteralScan

/-- Whether a literal tells what a token holds and where it stands in a text. -/
structure Tells (s : Text) (l : StringLiteral) (t : Token) : Prop where
  content_eq : t.content? = some l.content
  offset_eq : l.offset = t.offset
  line_eq : l.line = Text.lineNumber s t.offset

theorem offset_of_literal? {s : Text} {t : Token} {l : StringLiteral} (h : literal? s t = some l) :
    l.offset = t.offset := by
  obtain ⟨content, -, rfl⟩ := Option.map_eq_some_iff.1 h
  rfl

/-- Each string among some tokens is reported, and nothing else. -/
theorem forall₂_filterMap_literal? (s : Text) {ts : List Token} (hread : ∀ t ∈ ts, t.IsRead) :
    List.Forall₂ (Tells s) (ts.filterMap (literal? s)) (ts.filter (·.kind = .string)) := by
  induction ts with
  | nil => exact .nil
  | cons t ts ih =>
    have hlater := ih fun u hu => hread u (List.mem_cons_of_mem t hu)
    by_cases ht : t.kind = .string
    · obtain ⟨content, hcontent⟩ :=
        Option.isSome_iff_exists.1 ((hread t List.mem_cons_self).content ht)
      have hliteral : literal? s t = some ⟨content, t.offset, Text.lineNumber s t.offset⟩ := by
        rw [literal?, hcontent, Option.map_some]
      rw [List.filterMap_cons_some hliteral, List.filter_cons_of_pos (by simpa using ht)]
      exact .cons ⟨hcontent, rfl, rfl⟩ hlater
    · have hliteral : literal? s t = none := by simp [literal?, Token.content?, ht]
      rwa [List.filterMap_cons_none hliteral, List.filter_cons_of_neg (by simpa using ht)]

/-- Whether a token is a string before the open one, where there is an open one. -/
def isBefore (o : Option OpenString) (t : Token) : Bool :=
  t.kind = .string && o.all fun o => t.offset < o.offset

/-- Where tokens stand in order, those before the first open string are told by their offsets. -/
theorem filter_takeWhile_isOpen (s : Text) {ts : List Token}
    (hts : ts.Pairwise fun t u => t.offset < u.offset) :
    (ts.takeWhile (!·.isOpen)).filter (·.kind = .string)
      = ts.filter (isBefore ((ts.find? Token.isOpen).map (place s))) := by
  cases hfind : ts.find? Token.isOpen with
  | none =>
    have hclosed : ∀ t ∈ ts, (!t.isOpen) = true := by simpa using List.find?_eq_none.1 hfind
    have hbefore : isBefore none = fun t => decide (t.kind = .string) := by
      funext t
      exact Bool.and_true _
    rw [List.takeWhile_eq_self_iff.2 hclosed, Option.map_none, hbefore]
  | some u =>
    obtain ⟨hopen, before, behind, rfl, hbefore⟩ := List.find?_eq_some_iff_append.1 hfind
    have htaken : (before ++ u :: behind).takeWhile (!·.isOpen) = before := by
      rw [List.takeWhile_append_of_pos hbefore, List.takeWhile_cons_of_neg (by simp [hopen]),
        List.append_nil]
    obtain ⟨-, hbehind, hcross⟩ := List.pairwise_append.1 hts
    have hkept : ∀ t ∈ before,
        isBefore (some (place s u)) t = decide (t.kind = .string) := by
      intro t ht
      simp [isBefore, place, hcross t ht u List.mem_cons_self]
    have hdropped : (u :: behind).filter (isBefore (some (place s u))) = [] := by
      refine List.filter_eq_nil_iff.2 fun t ht => ?_
      have hle : u.offset ≤ t.offset := by
        rcases List.mem_cons.1 ht with rfl | ht
        · exact Nat.le_refl _
        · exact Nat.le_of_lt ((List.pairwise_cons.1 hbehind).1 t ht)
      simp [isBefore, place, hle]
    rw [htaken, Option.map_some, List.filter_append, hdropped, List.append_nil]
    exact List.filter_congr fun t ht => (hkept t ht).symm

/-- What the scan of a text tells of it. -/
structure Complete (s : Text) (scan : LiteralScan) : Prop where
  ambiguous_iff : scan.isAmbiguous = true ↔ ∃ t ∈ deepTokens s, t.kind = .unterminated
  /-- The open string that is reported is the one with the least offset, on its line. -/
  least : ∀ o, scan.openString = some o → ∃ t ∈ deepTokens s, t.kind = .unterminated
    ∧ o.offset = t.offset ∧ o.line = Text.lineNumber s t.offset
    ∧ ∀ u ∈ deepTokens s, u.kind = .unterminated → t.offset ≤ u.offset
  /-- The literals are the strings of the walk before that one, each told with its line. -/
  literals : List.Forall₂ (Tells s) scan.literals
    ((deepTokens s).filter (isBefore scan.openString))
  increasing : scan.literals.Pairwise fun l m => l.offset < m.offset

end LiteralScan

/-- The tokens of the walk begin one behind another. -/
theorem pairwise_offset_deepTokens (s : Text) :
    (deepTokens s).Pairwise fun t u => t.offset < u.offset := by
  rw [deepTokens_eq]
  exact (Cursor.pairwise_nestedTokens ⟨0, s⟩).imp And.left

theorem literals_tell (s : Text) : List.Forall₂ (LiteralScan.Tells s) (scanLiterals s).literals
    ((deepTokens s).filter (LiteralScan.isBefore (scanLiterals s).openString)) := by
  have hread : ∀ t ∈ deepTokens s, t.IsRead := by
    rw [deepTokens_eq]
    exact Cursor.isRead_of_mem_nestedTokens ⟨0, s⟩
  rw [openString_scanLiterals, literals_scanLiterals,
    ← LiteralScan.filter_takeWhile_isOpen s (pairwise_offset_deepTokens s)]
  exact LiteralScan.forall₂_filterMap_literal? s fun t ht =>
    hread t ((List.takeWhile_sublist _).subset ht)

/-- The scan for literals misses nothing of a text, and each line it tells is the one that the line
feeds before the offset give. -/
theorem scanLiterals_complete (s : Text) :
    LiteralScan.Complete s (scanLiterals s)
      ∧ (∀ offsets, (Text.LineCursor.start s).visit offsets = offsets.map (Text.lineNumber s))
      ∧ ∀ offset, Text.lineNumber s offset = ((Text.encode s).take offset).count 0x0A + 1 := by
  have hordered := pairwise_offset_deepTokens s
  have hopen := openString_scanLiterals s
  have htell := literals_tell s
  refine ⟨⟨?_, ?_, htell, ?_⟩, (Text.LineCursor.counts_start s).visit_eq,
    Text.lineNumber_eq_count s⟩
  · rw [LiteralScan.isAmbiguous, hopen, Option.isSome_map, List.find?_isSome]
    simp [Token.isOpen]
  · intro o ho
    rw [hopen] at ho
    obtain ⟨t, hfind, rfl⟩ := Option.map_eq_some_iff.1 ho
    obtain ⟨hkind, before, behind, hsplit, hbefore⟩ := List.find?_eq_some_iff_append.1 hfind
    refine ⟨t, List.mem_of_find?_eq_some hfind, by simpa [Token.isOpen] using hkind, rfl, rfl, ?_⟩
    intro u hu hunterminated
    rw [hsplit] at hu hordered
    rcases List.mem_append.1 hu with hu | hu
    · simpa [Token.isOpen, hunterminated] using hbefore u hu
    · rcases List.mem_cons.1 hu with rfl | hu
      · exact Nat.le_refl _
      · have hbehind := (List.pairwise_append.1 hordered).2.1
        exact Nat.le_of_lt ((List.pairwise_cons.1 hbehind).1 u hu)
  · rw [literals_scanLiterals, List.pairwise_filterMap]
    refine (hordered.sublist (List.takeWhile_sublist _)).imp ?_
    intro t u hlt l hl m hm
    rwa [LiteralScan.offset_of_literal? hl, LiteralScan.offset_of_literal? hm]

end ImageScript
