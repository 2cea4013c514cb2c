import ImageScript.Proofs.Script.Relocation

/-!
# Cutting between tokens

A lexeme that ends before the end of a text is read alike where the text goes on. So a text that is
cut across no token has the tokens of its two parts.

Main statement: `tokenize_append`.
-/

namespace ImageScript

namespace Lexeme

variable {r t m : Text}

/-- What is left over from a text is not longer than the text. -/
theorem eq_nil_of_left {a : Text} (h : a ++ (m ++ t) = t) : a = [] ∧ m = [] := by
  have hlen := congrArg List.length h
  simp only [List.length_append] at hlen
  exact ⟨List.eq_nil_of_length_eq_zero (by omega), List.eq_nil_of_length_eq_zero (by omega)⟩

theorem span_cut {p : Char → Bool} (h : (r ++ t).dropWhile p = m ++ t) :
    r.takeWhile p = (r ++ t).takeWhile p ∧ r.dropWhile p = m := by
  induction r with
  | nil =>
    have hall : t.takeWhile p ++ t.dropWhile p = t := List.takeWhile_append_dropWhile
    rw [List.nil_append] at h ⊢
    rw [h] at hall
    obtain ⟨htaken, hm⟩ := eq_nil_of_left hall
    rw [htaken, hm]
    exact ⟨rfl, rfl⟩
  | cons c r ih =>
    by_cases hc : p c = true
    · simp only [List.cons_append, List.dropWhile_cons, List.takeWhile_cons, if_pos hc] at h ⊢
      obtain ⟨htaken, hrest⟩ := ih h
      exact ⟨by rw [htaken], hrest⟩
    · simp only [List.cons_append, List.dropWhile_cons, List.takeWhile_cons, if_neg hc] at h ⊢
      rw [← List.cons_append] at h
      exact ⟨trivial, List.append_cancel_right h⟩

theorem readWhile_cut {kind : LexemeKind} {taken : Text} {p : Char → Bool}
    (h : (readWhile kind taken p (r ++ t)).rest = m ++ t) :
    readWhile kind taken p r = ⟨kind, (readWhile kind taken p (r ++ t)).text, m⟩ := by
  obtain ⟨htaken, hrest⟩ := span_cut h
  simp only [readWhile, htaken, hrest]

theorem readLine_rest_le (quote : Char) (s : Text) :
    (readLine quote s).rest.length ≤ s.length := by
  have hlen := congrArg List.length (readLine_append quote s)
  rw [List.length_append] at hlen
  omega

theorem readBlock_rest_le (quote : Char) (s : Text) :
    (readBlock quote s).rest.length ≤ s.length := by
  have hlen := congrArg List.length (readBlock_append quote s)
  rw [List.length_append] at hlen
  omega

theorem readLine_cons (quote : Char) {c : Char} {r : Text}
    (h : ∀ d r', c = '\\' → r = d :: r' → False) : readLine quote (c :: r) =
      if c = '\n' then ⟨.unclosed, [], c :: r⟩
      else if c = quote then ⟨.closed, [c], r⟩ else push c (readLine quote r) := by
  rw [readLine]
  exact h

/-- The first of two texts begins with a character behind which as much is left as in the second. -/
theorem exists_cons_of_left {c : Char} {s rest : Text} (hs : c :: s = r ++ t) (h : rest = m ++ t)
    (hle : rest.length ≤ s.length) : ∃ r', r = c :: r' ∧ s = r' ++ t := by
  cases r with
  | nil =>
    rw [List.nil_append] at hs
    rw [h, ← hs, List.length_append, List.length_cons] at hle
    omega
  | cons d r =>
    obtain ⟨rfl, hs'⟩ := List.cons.inj hs
    exact ⟨r, rfl, hs'⟩

/-- A string that ends within the first of two texts is read alike without the second. -/
theorem readLine_cut (quote : Char) {s : Text} (hs : s = r ++ t)
    (h : (readLine quote s).rest = m ++ t) :
    readLine quote r = ⟨(readLine quote s).termination, (readLine quote s).text, m⟩ := by
  fun_induction readLine quote s generalizing r with
  | case1 =>
    obtain ⟨rfl, rfl⟩ := List.append_eq_nil_iff.1 hs.symm
    obtain ⟨rfl, -⟩ := List.append_eq_nil_iff.1 h.symm
    rfl
  | case2 c s ih =>
    have hle := readLine_rest_le quote s
    obtain ⟨r, rfl, hs'⟩ := exists_cons_of_left hs h (Nat.le_succ_of_le hle)
    obtain ⟨r, rfl, rfl⟩ := exists_cons_of_left hs' h hle
    simp only [readLine, ih rfl h, push]
  | case3 s hescape =>
    cases r with
    | nil =>
      rw [List.nil_append] at hs
      rw [hs] at h
      have hm : m = [] := (eq_nil_of_left (a := []) h.symm).2
      rw [hm]
      rfl
    | cons d r =>
      simp only [List.cons_append, List.cons.injEq] at hs
      obtain ⟨rfl, rfl⟩ := hs
      rw [← List.cons_append] at h
      rw [← List.append_cancel_right h]
      simp [readLine]
  | case4 s hescape hline =>
    obtain ⟨r, rfl, rfl⟩ := exists_cons_of_left hs h (Nat.le_refl _)
    rw [readLine_cons, if_neg hline, if_pos rfl, List.append_cancel_right h]
    rintro d r' hd rfl
    exact hescape d (r' ++ t) hd rfl
  | case5 c s hescape hline hquote ih =>
    obtain ⟨r, rfl, rfl⟩ := exists_cons_of_left hs h (readLine_rest_le quote s)
    rw [readLine_cons, if_neg hline, if_neg hquote, ih rfl h]
    · rfl
    · rintro d r' hd rfl
      exact hescape d (r' ++ t) hd rfl

theorem readBlock_cons (quote : Char) {c : Char} {r : Text}
    (h : ∀ d r', c = '\\' → r = d :: r' → False) : readBlock quote (c :: r) =
      if c = quote ∧ [quote, quote].isPrefixOf r then ⟨.closed, [c, quote, quote], r.drop 2⟩
      else push c (readBlock quote r) := by
  rw [readBlock]
  exact h

/-- A beginning of the first of two texts is one of both. -/
theorem isPrefixOf_append {a : Text} (h : a.isPrefixOf r) : a.isPrefixOf (r ++ t) := by
  rw [List.isPrefixOf_iff_prefix] at h ⊢
  exact h.trans (List.prefix_append r t)

/-- A pair of characters at the head of two texts stands in the first one, where the texts behind
the pair end with the second. -/
theorem isPrefixOf_of_append {c : Char} (h : [c, c].isPrefixOf (r ++ t))
    (hdrop : t.length + 2 ≤ (r ++ t).length) : [c, c].isPrefixOf r := by
  rw [List.length_append] at hdrop
  match r with
  | [] =>
    simp only [List.length_nil] at hdrop
    omega
  | [_] =>
    simp only [List.length_cons, List.length_nil] at hdrop
    omega
  | a :: d :: r =>
    simp only [List.cons_append, List.isPrefixOf_cons_cons, Bool.and_eq_true] at h ⊢
    exact ⟨h.1, h.2.1, by simp⟩

/-- A doc string that ends within the first of two texts is read alike without the second. -/
theorem readBlock_cut (quote : Char) {s : Text} (hs : s = r ++ t)
    (h : (readBlock quote s).rest = m ++ t) :
    readBlock quote r = ⟨(readBlock quote s).termination, (readBlock quote s).text, m⟩ := by
  fun_induction readBlock quote s generalizing r with
  | case1 =>
    obtain ⟨rfl, rfl⟩ := List.append_eq_nil_iff.1 hs.symm
    obtain ⟨rfl, -⟩ := List.append_eq_nil_iff.1 h.symm
    rfl
  | case2 c s ih =>
    have hle := readBlock_rest_le quote s
    obtain ⟨r, rfl, hs'⟩ := exists_cons_of_left hs h (Nat.le_succ_of_le hle)
    obtain ⟨r, rfl, rfl⟩ := exists_cons_of_left hs' h hle
    simp only [readBlock, ih rfl h, push]
  | case3 c s hescape hclose =>
    have hlen := congrArg List.length h
    have htwo := (List.isPrefixOf_iff_prefix.1 hclose.2).length_le
    obtain ⟨r, rfl, rfl⟩ := exists_cons_of_left hs h (List.drop_sublist 2 s).length_le
    simp only [List.length_append, List.length_drop, List.length_cons, List.length_nil] at hlen htwo
    have hpair := isPrefixOf_of_append hclose.2 (by rw [List.length_append]; omega)
    have hdrop : (r ++ t).drop 2 = r.drop 2 ++ t := List.drop_append_of_le_length (by omega)
    dsimp only at h
    rw [hdrop] at h
    rw [readBlock_cons, if_pos ⟨hclose.1, hpair⟩, List.append_cancel_right h]
    rintro d r' hd rfl
    exact hescape d (r' ++ t) hd rfl
  | case4 c s hescape hopen ih =>
    obtain ⟨r, rfl, rfl⟩ := exists_cons_of_left hs h (readBlock_rest_le quote s)
    rw [readBlock_cons, if_neg, ih rfl h]
    · rfl
    · exact fun hclose => hopen ⟨hclose.1, isPrefixOf_append hclose.2⟩
    · rintro d r' hd rfl
      exact hescape d (r' ++ t) hd rfl

/-- What is left of two texts, where it is not shorter than the second, ends with the second. -/
theorem exists_left {a b : Text} (h : a ++ b = r ++ t) (hle : t.length ≤ b.length) :
    ∃ l, b = l ++ t := by
  rcases List.append_eq_append_iff.1 h with ⟨l, -, hb⟩ | ⟨l, -, ht⟩
  · exact ⟨l, hb⟩
  · rw [ht, List.length_append] at hle
    have hl : l = [] := List.eq_nil_of_length_eq_zero (by omega)
    exact ⟨[], by rw [ht, hl]; rfl⟩

theorem readNumber_of_dot {c : Char} {s f : Text}
    (h : (readWhile .number [c] Char.isDigit s).rest = '.' :: f) : readNumber c s =
      readWhile .number ((readWhile .number [c] Char.isDigit s).text ++ ['.']) Char.isDigit f := by
  simp only [readNumber, h]

theorem readNumber_of_not_dot {c : Char} {s : Text}
    (h : ∀ f, (readWhile .number [c] Char.isDigit s).rest ≠ '.' :: f) :
    readNumber c s = readWhile .number [c] Char.isDigit s := by
  unfold readNumber
  dsimp only
  split
  · next f hf => exact absurd hf (h f)
  · rfl

/-- A number that ends within the first of two texts is read alike without the second. -/
theorem readNumber_cut (c : Char) (h : (readNumber c (r ++ t)).rest = m ++ t) :
    readNumber c r = ⟨(readNumber c (r ++ t)).kind, (readNumber c (r ++ t)).text, m⟩ := by
  by_cases hdot : ∃ f, (readWhile .number [c] Char.isDigit (r ++ t)).rest = '.' :: f
  · obtain ⟨f, hf⟩ := hdot
    rw [readNumber_of_dot hf] at h ⊢
    have hspan : (r ++ t).takeWhile Char.isDigit ++ '.' :: f = r ++ t := by
      rw [← hf]
      exact List.takeWhile_append_dropWhile
    have hle : t.length ≤ f.length := by
      have hlen := congrArg List.length h
      have hsub := (List.dropWhile_sublist (l := f) Char.isDigit).length_le
      simp only [readWhile, List.length_append] at hlen
      omega
    obtain ⟨l, hl⟩ := exists_left hspan (by rw [List.length_cons]; omega)
    -- The point stands in the first text, since as much as the second one is left behind it.
    cases l with
    | nil =>
      have hlen := congrArg List.length hl
      simp only [List.length_cons, List.nil_append] at hlen
      omega
    | cons d l =>
      obtain ⟨rfl, rfl⟩ := List.cons.inj hl
      have hwhole : (readWhile .number [c] Char.isDigit (r ++ t)).rest = ('.' :: l) ++ t := hf
      have hcut := readWhile_cut hwhole
      rw [readNumber_of_dot (congrArg Lexeme.rest hcut), hcut]
      exact readWhile_cut h
  · have hnot : ∀ f, (readWhile .number [c] Char.isDigit (r ++ t)).rest ≠ '.' :: f :=
      fun f hf => hdot ⟨f, hf⟩
    rw [readNumber_of_not_dot hnot] at h ⊢
    have hcut := readWhile_cut h
    rw [readNumber_of_not_dot, hcut]
    · rfl
    · intro f hf
      rw [hcut] at hf
      dsimp only at hf
      rw [hf] at h
      exact hnot _ h

/-- A lexeme that ends within the first of two texts is read alike without the second. -/
theorem read_cut (c : Char) (h : (read c (r ++ t)).rest = m ++ t) :
    read c r = ⟨(read c (r ++ t)).kind, (read c (r ++ t)).text, m⟩ := by
  unfold read at h ⊢
  by_cases hcomment : c = '#'
  · simp only [if_pos hcomment] at h ⊢
    exact readWhile_cut h
  simp only [if_neg hcomment] at h ⊢
  by_cases hquote : isQuote c = true
  · simp only [if_pos hquote] at h ⊢
    by_cases hblock : [c, c].isPrefixOf (r ++ t) = true
    · simp only [if_pos hblock] at h ⊢
      have hlen := congrArg List.length h
      have hle := readBlock_rest_le c ((r ++ t).drop 2)
      have htwo := (List.isPrefixOf_iff_prefix.1 hblock).length_le
      simp only [List.length_append, List.length_drop, List.length_cons, List.length_nil]
        at hlen hle htwo
      have hpair := isPrefixOf_of_append hblock (by rw [List.length_append]; omega)
      have hdrop : (r ++ t).drop 2 = r.drop 2 ++ t := List.drop_append_of_le_length (by omega)
      simp only [if_pos hpair, readBlock_cut c hdrop h]
    · simp only [if_neg hblock] at h ⊢
      have hshort : ¬ [c, c].isPrefixOf r = true := fun hpair => hblock (isPrefixOf_append hpair)
      simp only [if_neg hshort, readLine_cut c rfl h]
  simp only [if_neg hquote] at h ⊢
  by_cases hword : isWordStart c = true
  · simp only [if_pos hword] at h ⊢
    exact readWhile_cut h
  simp only [if_neg hword] at h ⊢
  by_cases hdigit : c.isDigit = true
  · simp only [if_pos hdigit] at h ⊢
    exact readNumber_cut c h
  simp only [if_neg hdigit] at h ⊢
  cases r with
  | nil =>
    by_cases hpoint : c = '.' ∧ (([] ++ t).head?.any Char.isDigit) = true
    · -- A point takes a digit behind it, so not all of the second text would be left.
      simp only [if_pos hpoint] at h
      have hspan : t.takeWhile Char.isDigit ++ (m ++ t) = t := by
        rw [← h]
        exact List.takeWhile_append_dropWhile
      have hnone := (eq_nil_of_left hspan).1
      cases t with
      | nil => simp at hpoint
      | cons d t =>
        have hd : d.isDigit = true := by simpa using hpoint.2
        rw [List.takeWhile_cons, if_pos hd] at hnone
        simp at hnone
    · simp only [if_neg hpoint] at h ⊢
      have hm : m = [] := (eq_nil_of_left (a := []) h.symm).2
      simp [hm]
  | cons d r =>
    by_cases hpoint : c = '.' ∧ ((d :: r).head?.any Char.isDigit) = true
    · have hboth : c = '.' ∧ ((d :: r ++ t).head?.any Char.isDigit) = true := hpoint
      simp only [if_pos hboth, if_pos hpoint] at h ⊢
      exact readWhile_cut h
    · have hboth : ¬ (c = '.' ∧ ((d :: r ++ t).head?.any Char.isDigit) = true) := hpoint
      simp only [if_neg hboth, if_neg hpoint] at h ⊢
      rw [← List.append_cancel_right h]

end Lexeme

/-- Whether a token lies across an offset. -/
def Token.Crosses (t : Token) (n : Nat) : Prop := t.offset < n ∧ n < t.stop

namespace Cursor

theorem nextLexeme?_append_of_none {offset : Nat} {r : Text} (h : nextLexeme? offset r = none)
    (t : Text) : nextLexeme? offset (r ++ t) = nextLexeme? (offset + Text.byteLen r) t := by
  induction r generalizing offset with
  | nil => rfl
  | cons c r ih =>
    simp only [nextLexeme?] at h
    split at h
    · next hblank =>
      rw [List.cons_append, nextLexeme?, if_pos hblank, ih h, Text.byteLen_cons, Nat.add_assoc]
    · simp at h

/-- Behind the same blanks the first lexeme of every text begins. -/
theorem exists_of_nextLexeme? {offset o : Nat} {r : Text} {l : Lexeme}
    (h : nextLexeme? offset r = some (o, l)) : ∃ blanks c r', r = blanks ++ c :: r'
      ∧ l = Lexeme.read c r' ∧ o = offset + Text.byteLen blanks
      ∧ ∀ s, nextLexeme? offset (blanks ++ c :: s) = some (o, Lexeme.read c s) := by
  induction r generalizing offset with
  | nil => simp [nextLexeme?] at h
  | cons c r ih =>
    simp only [nextLexeme?] at h
    split at h
    · next hblank =>
      obtain ⟨blanks, d, r', rfl, hl, ho, hall⟩ := ih h
      refine ⟨c :: blanks, d, r', rfl, hl, ?_, ?_⟩
      · rw [ho, Text.byteLen_cons, Nat.add_assoc]
      · intro s
        rw [List.cons_append, nextLexeme?, if_pos hblank, hall]
    · next hblank =>
      simp only [Option.some.injEq, Prod.mk.injEq] at h
      obtain ⟨rfl, rfl⟩ := h
      refine ⟨[], c, r, rfl, rfl, rfl, ?_⟩
      intro s
      rw [List.nil_append, nextLexeme?, if_neg hblank]

theorem exists_left_of_byteLen {a b s t : Text} (h : a ++ b = s ++ t)
    (hle : Text.byteLen a ≤ Text.byteLen s) : ∃ l, b = l ++ t := by
  rcases List.append_eq_append_iff.1 h with ⟨l, -, hb⟩ | ⟨l, ha, ht⟩
  · exact ⟨l, hb⟩
  · have hl : l = [] := by
      by_cases hl : l = []
      · exact hl
      · have hpos := Text.byteLen_pos hl
        rw [ha, Text.byteLen_append] at hle
        omega
    subst hl
    exact ⟨[], ht.symm⟩

/-- Where the text goes on the first token is the same, unless it reaches into what follows. -/
theorem next?_append {p q : Cursor} {u : Token} (h : p.next? = some (u, q)) (t : Text) :
    (∃ v q', next? ⟨p.offset, p.rest ++ t⟩ = some (v, q')
        ∧ v.Crosses (p.offset + Text.byteLen p.rest))
      ∨ next? ⟨p.offset, p.rest ++ t⟩ = some (u, ⟨q.offset, q.rest ++ t⟩)
        ∧ q.offset + Text.byteLen q.rest = p.offset + Text.byteLen p.rest := by
  obtain ⟨⟨o, l⟩, hl, hq⟩ := Option.map_eq_some_iff.1 h
  obtain ⟨blanks, c, r, hr, rfl, rfl, hall⟩ := exists_of_nextLexeme? hl
  simp only [Prod.mk.injEq] at hq
  obtain ⟨rfl, rfl⟩ := hq
  have hlen : Text.byteLen p.rest = Text.byteLen blanks + Text.byteLen (c :: r) := by
    rw [hr, Text.byteLen_append]
  have hpos := Text.byteLen_pos (List.cons_ne_nil c r)
  have hnext : next? ⟨p.offset, p.rest ++ t⟩ =
      some (⟨.ofLexeme (Lexeme.read c (r ++ t)).kind, (Lexeme.read c (r ++ t)).text,
        p.offset + Text.byteLen blanks⟩,
        ⟨p.offset + Text.byteLen blanks + Text.byteLen (Lexeme.read c (r ++ t)).text,
          (Lexeme.read c (r ++ t)).rest⟩) := by
    rw [hr, List.append_assoc, List.cons_append]
    simp only [next?, hall, Option.map_some]
    rfl
  by_cases hstop : Text.byteLen (Lexeme.read c (r ++ t)).text ≤ Text.byteLen (c :: r)
  · right
    obtain ⟨m, hm⟩ := exists_left_of_byteLen
      ((Lexeme.read_text_append c (r ++ t)).trans (List.cons_append ..).symm) hstop
    have hcut := Lexeme.read_cut c hm
    have hbytes := congrArg Text.byteLen (Lexeme.read_text_append c r)
    rw [Text.byteLen_append] at hbytes
    constructor
    · rw [hnext, hm, hcut]
      rfl
    · simp only [Token.stop]
      omega
  · left
    refine ⟨_, _, hnext, ?_⟩
    simp only [Token.Crosses, Token.stop]
    omega

theorem tokens_append_of_none {p : Cursor} (h : p.next? = none) (t : Text) :
    tokens ⟨p.offset, p.rest ++ t⟩ = tokens ⟨p.offset + Text.byteLen p.rest, t⟩ := by
  have hblank : nextLexeme? p.offset p.rest = none := by simpa [next?] using h
  refine tokens_eq_of_next? ?_
  simp only [next?, nextLexeme?_append_of_none hblank]

/-- Where no token lies across the place between two texts they are read one after the other. -/
theorem tokens_append (p : Cursor) (t : Text)
    (h : ∀ u ∈ tokens ⟨p.offset, p.rest ++ t⟩, ¬ u.Crosses (p.offset + Text.byteLen p.rest)) :
    tokens ⟨p.offset, p.rest ++ t⟩ =
      p.tokens ++ tokens ⟨p.offset + Text.byteLen p.rest, t⟩ := by
  fun_induction tokens p with
  | case1 p hnext =>
    rw [tokens_append_of_none hnext]
    rfl
  | case2 p u q hnext ih =>
    rcases next?_append hnext t with ⟨v, q', hnext', hcross⟩ | ⟨hnext', hlen⟩
    · rw [tokens_of_some hnext'] at h
      exact absurd hcross (h v (List.mem_cons_self ..))
    · rw [tokens_of_some hnext'] at h ⊢
      rw [List.cons_append, ih, hlen]
      intro v hv
      rw [hlen]
      exact h v (List.mem_cons_of_mem _ hv)

end Cursor

/-- A text that is cut across no token has the tokens of its two parts. -/
theorem tokenize_append {s t : Text} (h : ∀ u ∈ tokenize (s ++ t), ¬ u.Crosses (Text.byteLen s)) :
    tokenize (s ++ t) = tokenize s ++ (tokenize t).map (Token.shift (Text.byteLen s)) := by
  have huncrossed : ∀ u ∈ Cursor.tokens ⟨0, s ++ t⟩, ¬ u.Crosses (0 + Text.byteLen s) := by
    rw [Nat.zero_add]
    exact h
  have happend := Cursor.tokens_append ⟨0, s⟩ t huncrossed
  have hshift := Cursor.tokens_shift (Text.byteLen s) ⟨0, t⟩
  rw [Nat.zero_add] at happend
  rw [Nat.add_zero] at hshift
  unfold tokenize
  rw [happend, hshift]

end ImageScript
