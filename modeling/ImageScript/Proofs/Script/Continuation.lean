import ImageScript.Proofs.Script.Cutting

/-!
# What may follow a token

A token looks at no more than one character behind its end, and a closed one at none. So the tokens
of a text stay as they are where other text of the same beginning follows, or a quote in the place
of a letter, unless the quote makes a doc string of an empty string.

Main statement: `Parts.carry`.
-/

namespace ImageScript

namespace Lexeme

variable {m y y' s : Text} {quote : Char} {t : Termination}

theorem ne_of_isQuote {c d : Char} (hc : isQuote c = true) (hd : isQuote d = false) : c ≠ d := by
  rintro rfl
  rw [hc] at hd
  exact Bool.noConfusion hd

/-- A run of characters ends where it did when what follows cannot be added to it. -/
theorem readWhile_carry {kind : LexemeKind} {taken : Text} {p : Char → Bool}
    (h : (readWhile kind taken p (m ++ y)).rest = y) (hstop : ∀ c ∈ y'.head?, p c = false) :
    readWhile kind taken p (m ++ y') = ⟨kind, taken ++ m, y'⟩ := by
  have hspan : (m ++ y).takeWhile p ++ (m ++ y).dropWhile p = m ++ y :=
    List.takeWhile_append_dropWhile
  rw [show (m ++ y).dropWhile p = y from h] at hspan
  have hall : ∀ c ∈ m, p c = true := by
    rw [← List.append_cancel_right hspan]
    exact fun c hc => List.all_eq_true.1 List.all_takeWhile c hc
  have hnone : y'.takeWhile p = [] ∧ y'.dropWhile p = y' := by
    cases y' with
    | nil => exact ⟨rfl, rfl⟩
    | cons c y' =>
      have hc : p c = false := hstop c rfl
      simp [hc]
  simp only [readWhile, List.takeWhile_append_of_pos hall, List.dropWhile_append_of_pos hall,
    hnone.1, hnone.2, List.append_nil]

/-- What follows a run of characters cannot be added to it. -/
theorem readWhile_stops {kind : LexemeKind} {taken : Text} {p : Char → Bool}
    (h : (readWhile kind taken p (m ++ y)).rest = y) : ∀ c ∈ y.head?, p c = false := by
  intro c hc
  have hrest : (m ++ y).dropWhile p = y := h
  rw [← hrest] at hc
  have hnot := List.head?_dropWhile_not p (m ++ y)
  rw [Option.mem_def.1 hc] at hnot
  simpa using hnot

theorem push_eq {c : Char} {q : Quoted} (h : push c q = ⟨t, m, y⟩) :
    ∃ m', m = c :: m' ∧ q = ⟨t, m', y⟩ := by
  cases q
  cases h
  exact ⟨_, rfl, rfl⟩

/-- A string that is not closed ends with its line. -/
theorem readLine_unclosed (h : readLine quote s = ⟨.unclosed, m, y⟩) :
    ∀ c ∈ y.head?, c = '\n' := by
  fun_induction readLine quote s generalizing m with
  | case1 => cases h; simp
  | case2 c s ih =>
    obtain ⟨m₁, -, hpush⟩ := push_eq h
    obtain ⟨m₂, -, hs⟩ := push_eq hpush
    exact ih hs
  | case3 s => cases h; simp
  | case4 => cases h
  | case5 c s hescape hline hquote ih =>
    obtain ⟨m', -, hs⟩ := push_eq h
    exact ih hs

/-- A closed string stays one whatever follows, and an open one where the line ends as before. -/
theorem readLine_carry (hquote : quote ≠ '\\') (h : readLine quote s = ⟨t, m, y⟩)
    (hy : t = .closed ∨ y'.head? = y.head?) : readLine quote (m ++ y') = ⟨t, m, y'⟩ := by
  fun_induction readLine quote s generalizing m with
  | case1 =>
    cases h
    have hnil : y' = [] := by simpa using hy
    rw [hnil]
    rfl
  | case2 c s ih =>
    obtain ⟨m₁, rfl, hpush⟩ := push_eq h
    obtain ⟨m₂, rfl, hs⟩ := push_eq hpush
    simp only [List.cons_append, readLine, ih hs, push]
  | case3 s =>
    cases h
    obtain ⟨r, rfl⟩ : ∃ r, y' = '\n' :: r := List.head?_eq_some_iff.1 (by simpa using hy)
    simp [readLine]
  | case4 s hescape hline =>
    cases h
    rw [List.cons_append, List.nil_append, readLine_cons, if_neg hline, if_pos rfl]
    exact fun d r hd => absurd hd hquote
  | case5 c s hescape hline hother ih =>
    obtain ⟨m', rfl, hs⟩ := push_eq h
    rw [List.cons_append, readLine_cons, if_neg hline, if_neg hother, ih hs]
    · rfl
    · -- A backslash with nothing behind it is the end of the text.
      intro d r hc hr
      have hnil : s = [] := by
        cases s with
        | nil => rfl
        | cons e s => exact absurd rfl (hescape e s hc)
      subst hnil
      simp only [readLine, Quoted.mk.injEq] at hs
      obtain ⟨rfl, rfl, rfl⟩ := hs
      have hend : y' = [] := by simpa using hy
      simp [hend] at hr

/-- A doc string that is not closed reaches to the end of the text. -/
theorem readBlock_unclosed (h : readBlock quote s = ⟨.unclosed, m, y⟩) : y = [] := by
  fun_induction readBlock quote s generalizing m with
  | case1 => cases h; rfl
  | case2 c s ih =>
    obtain ⟨m₁, -, hpush⟩ := push_eq h
    obtain ⟨m₂, -, hs⟩ := push_eq hpush
    exact ih hs
  | case3 => cases h
  | case4 c s hescape hopen ih =>
    obtain ⟨m', -, hs⟩ := push_eq h
    exact ih hs

/-- A closed doc string ends with three quotes. -/
theorem readBlock_closed_length (h : readBlock quote s = ⟨.closed, m, y⟩) : 3 ≤ m.length := by
  fun_induction readBlock quote s generalizing m with
  | case1 => cases h
  | case2 c s ih =>
    obtain ⟨m₁, rfl, hpush⟩ := push_eq h
    obtain ⟨m₂, rfl, hs⟩ := push_eq hpush
    have hlen := ih hs
    simp only [List.length_cons]
    omega
  | case3 => cases h; simp
  | case4 c s hescape hopen ih =>
    obtain ⟨m', rfl, hs⟩ := push_eq h
    have hlen := ih hs
    simp only [List.length_cons]
    omega

/-- Two characters at the head of a text are there whatever follows. -/
theorem isPrefixOf_two (c : Char) (h : 2 ≤ m.length) (y y' : Text) :
    [c, c].isPrefixOf (m ++ y) = [c, c].isPrefixOf (m ++ y') := by
  match m with
  | [] | [_] => simp at h
  | a :: d :: m => simp [List.isPrefixOf]

/-- A closed doc string stays one whatever follows. -/
theorem readBlock_carry (hquote : quote ≠ '\\') (h : readBlock quote s = ⟨.closed, m, y⟩)
    (y' : Text) : readBlock quote (m ++ y') = ⟨.closed, m, y'⟩ := by
  have hs := readBlock_append quote s
  rw [h] at hs
  fun_induction readBlock quote s generalizing m with
  | case1 => cases h
  | case2 c s ih =>
    obtain ⟨m₁, rfl, hpush⟩ := push_eq h
    obtain ⟨m₂, rfl, hblock⟩ := push_eq hpush
    simp only [List.cons_append, List.cons.injEq, true_and] at hs
    simp only [List.cons_append, readBlock, ih hblock hs, push]
  | case3 c s hescape hclose =>
    obtain ⟨rfl, -⟩ := hclose
    cases h
    rw [List.cons_append, readBlock_cons, if_pos ⟨rfl, by simp⟩]
    · rfl
    · exact fun d r hd => absurd hd hquote
  | case4 c s hescape hopen ih =>
    obtain ⟨m', rfl, hblock⟩ := push_eq h
    have hlen := readBlock_closed_length hblock
    simp only [List.cons_append, List.cons.injEq, true_and] at hs
    rw [List.cons_append, readBlock_cons, if_neg, ih hblock hs]
    · rfl
    · rintro ⟨hc, hpair⟩
      rw [isPrefixOf_two quote (by omega) y' y, hs] at hpair
      exact hopen ⟨hc, hpair⟩
    · intro d r hc hr
      obtain ⟨e, m'', rfl⟩ := List.exists_cons_of_length_pos (l := m') (by omega)
      exact hescape e (m'' ++ y) hc hs.symm

/-- Whether a lexeme that one text follows may have the other text behind it. -/
def Carries (lexeme y y' : Text) : Prop :=
  y'.head? = y.head?
    ∨ y.head? = some 'P' ∧ y'.head? = some '"' ∧ lexeme ≠ ['"', '"']

variable {c : Char} {lexeme : Text}

theorem Carries.nil (h : Carries lexeme [] y') : y' = [] := by simpa [Carries] using h

/-- What stops a run of characters stops it in both texts. -/
theorem Carries.stops (h : Carries lexeme y y') {p : Char → Bool}
    (hstop : ∀ d ∈ y.head?, p d = false) (hp : p 'P' = false → p '"' = false) :
    ∀ d ∈ y'.head?, p d = false := by
  intro d hd
  rcases h with heq | ⟨hletter, hquote, -⟩
  · exact hstop d (heq ▸ hd)
  · rw [hquote, Option.mem_some_iff] at hd
    rw [← hd]
    exact hp (hstop 'P' hletter)

/-- A number ends where it did when neither a digit nor a point follows anew. -/
theorem readNumber_carry (h : (readNumber c (m ++ y)).rest = y) (hy : Carries lexeme y y') :
    readNumber c (m ++ y') = ⟨.number, c :: m, y'⟩ := by
  have hdigit : Char.isDigit 'P' = false → Char.isDigit '"' = false := fun _ => rfl
  by_cases hdot : ∃ f, (readWhile .number [c] Char.isDigit (m ++ y)).rest = '.' :: f
  · obtain ⟨f, hf⟩ := hdot
    rw [readNumber_of_dot hf] at h
    obtain ⟨fraction, rfl⟩ : ∃ fraction, f = fraction ++ y := by
      refine ⟨f.takeWhile Char.isDigit, ?_⟩
      rw [← h]
      exact List.takeWhile_append_dropWhile.symm
    obtain ⟨digits, hdigits⟩ : ∃ digits, m ++ y = digits ++ '.' :: (fraction ++ y) := by
      refine ⟨(m ++ y).takeWhile Char.isDigit, ?_⟩
      rw [← hf]
      exact List.takeWhile_append_dropWhile.symm
    obtain rfl : m = digits ++ '.' :: fraction := by
      refine (List.append_left_inj y).1 ?_
      simpa using hdigits
    have hwhole : readWhile .number [c] Char.isDigit (digits ++ '.' :: (fraction ++ y')) =
        ⟨.number, [c] ++ digits, '.' :: (fraction ++ y')⟩ := by
      refine readWhile_carry (y := '.' :: (fraction ++ y)) ?_ (by simp)
      rw [← hdigits]
      exact hf
    have hrest : (readWhile .number ([c] ++ digits ++ ['.']) Char.isDigit (fraction ++ y)).rest = y :=
      h
    rw [List.append_assoc, List.cons_append, readNumber_of_dot (congrArg Lexeme.rest hwhole), hwhole,
      readWhile_carry hrest (hy.stops (readWhile_stops hrest) hdigit)]
    simp
  · have hnot : ∀ f, (readWhile .number [c] Char.isDigit (m ++ y)).rest ≠ '.' :: f :=
      fun f hf => hdot ⟨f, hf⟩
    rw [readNumber_of_not_dot hnot] at h
    have hcarry : readWhile .number [c] Char.isDigit (m ++ y') = ⟨.number, [c] ++ m, y'⟩ :=
      readWhile_carry h (hy.stops (readWhile_stops h) hdigit)
    have hpoint : ∀ d ∈ y'.head?, (d == '.') = false := by
      refine hy.stops ?_ fun _ => rfl
      intro d hd
      obtain ⟨f, rfl⟩ := List.head?_eq_some_iff.1 (Option.mem_def.1 hd)
      exact beq_false_of_ne fun hdot => hnot f (hdot ▸ h)
    rw [readNumber_of_not_dot, hcarry]
    · rfl
    · intro f hf
      rw [hcarry] at hf
      have hfalse := hpoint '.' (by rw [show y' = '.' :: f from hf]; rfl)
      simp at hfalse

/-- A string without characters stands at the end of a line. -/
theorem readLine_nil (h : readLine quote s = ⟨t, [], y⟩) : ∀ d ∈ s.head?, d = '\n' := by
  unfold readLine at h
  split at h
  · simp
  · simp [push] at h
  · split at h
    · next hline => simpa using hline
    · split at h
      · simp at h
      · simp [push] at h

/-- Two more quotes do not follow the opening quote of a string that is not a doc string. -/
theorem not_isPrefixOf_carry (hc : c ≠ '\n') (hpair : ¬ [c, c].isPrefixOf (m ++ y) = true)
    (hread : readLine c (m ++ y) = ⟨t, m, y⟩) (hy : Carries (c :: m) y y') :
    ¬ [c, c].isPrefixOf (m ++ y') = true := by
  intro hpair'
  match m with
  | [] =>
    obtain ⟨r', rfl⟩ : ∃ r', y' = c :: c :: r' := by
      obtain ⟨r', hr'⟩ := List.isPrefixOf_iff_prefix.1 hpair'
      exact ⟨r', hr'.symm⟩
    have hline := readLine_nil hread
    rcases hy with heq | ⟨hletter, -, -⟩
    · exact hc (hline c heq.symm)
    · exact absurd (hline 'P' hletter) (by decide)
  | [d] =>
    obtain ⟨rfl, r', rfl⟩ : d = c ∧ ∃ r', y' = c :: r' := by
      obtain ⟨r', hr'⟩ := List.isPrefixOf_iff_prefix.1 hpair'
      simp only [List.cons_append, List.nil_append, List.cons.injEq] at hr'
      exact ⟨hr'.1.symm, r', hr'.2.symm⟩
    rcases hy with heq | ⟨-, hquote, hne⟩
    · obtain ⟨r, rfl⟩ := List.head?_eq_some_iff.1 heq.symm
      exact hpair (by simp [List.isPrefixOf])
    · simp only [List.head?_cons, Option.some.injEq] at hquote
      exact hne (by rw [hquote])
  | a :: d :: m' =>
    rw [isPrefixOf_two c (by simp) y' y] at hpair'
    exact hpair hpair'

theorem readLine_eq (h : (readLine quote (m ++ y)).rest = y) :
    readLine quote (m ++ y) = ⟨(readLine quote (m ++ y)).termination, m, y⟩ := by
  have happend := readLine_append quote (m ++ y)
  cases hs : readLine quote (m ++ y) with
  | mk t text rest =>
    rw [hs] at h happend
    obtain rfl : rest = y := h
    obtain rfl : text = m := List.append_cancel_right happend
    rfl

theorem readBlock_eq (h : (readBlock quote (m ++ y)).rest = y) :
    readBlock quote (m ++ y) = ⟨(readBlock quote (m ++ y)).termination, m, y⟩ := by
  have happend := readBlock_append quote (m ++ y)
  cases hs : readBlock quote (m ++ y) with
  | mk t text rest =>
    rw [hs] at h happend
    obtain rfl : rest = y := h
    obtain rfl : text = m := List.append_cancel_right happend
    rfl

theorem readNumber_kind (s : Text) : (readNumber c s).kind = .number := by
  unfold readNumber
  dsimp only
  split <;> rfl

theorem not_any_of_stops {p : Char → Bool} (h : ∀ d ∈ y.head?, p d = false) :
    y.head?.any p = false := by
  cases y with
  | nil => rfl
  | cons d y => exact h d rfl

/-- A doc string is closed or reaches to the end of the text. -/
theorem readBlock_carry_of_carries (hquote : quote ≠ '\\') (hy : Carries lexeme y y')
    (h : readBlock quote (m ++ y) = ⟨t, m, y⟩) : readBlock quote (m ++ y') = ⟨t, m, y'⟩ := by
  cases t with
  | closed => exact readBlock_carry hquote h y'
  | unclosed =>
    have hend := readBlock_unclosed h
    subst hend
    rw [hy.nil]
    exact h

/-- A string is closed or reaches to the end of its line. -/
theorem readLine_carry_of_carries (hquote : quote ≠ '\\') (hy : Carries lexeme y y')
    (h : readLine quote (m ++ y) = ⟨t, m, y⟩) : readLine quote (m ++ y') = ⟨t, m, y'⟩ := by
  refine readLine_carry hquote h ?_
  cases t with
  | closed => exact Or.inl rfl
  | unclosed =>
    right
    rcases hy with heq | ⟨hletter, -, -⟩
    · exact heq
    · exact absurd (readLine_unclosed h 'P' hletter) (by decide)

/-- A lexeme is read alike before another text that it may have behind it. -/
theorem read_carry (h : (read c (m ++ y)).rest = y) (hy : Carries (c :: m) y y') :
    read c (m ++ y') = ⟨(read c (m ++ y)).kind, c :: m, y'⟩ := by
  unfold read at h ⊢
  by_cases hcomment : c = '#'
  · simp only [if_pos hcomment] at h ⊢
    exact readWhile_carry h (hy.stops (readWhile_stops h) (by decide))
  simp only [if_neg hcomment] at h ⊢
  by_cases hquote : isQuote c = true
  · simp only [if_pos hquote] at h ⊢
    have hbackslash : c ≠ '\\' := ne_of_isQuote hquote rfl
    have hline : c ≠ '\n' := ne_of_isQuote hquote rfl
    by_cases hblock : [c, c].isPrefixOf (m ++ y) = true
    · simp only [if_pos hblock] at h ⊢
      have hle := readBlock_rest_le c ((m ++ y).drop 2)
      have htwo := (List.isPrefixOf_iff_prefix.1 hblock).length_le
      simp only [h, List.length_drop, List.length_append, List.length_cons, List.length_nil]
        at hle htwo
      have hdrop : ∀ z : Text, (m ++ z).drop 2 = m.drop 2 ++ z :=
        fun z => List.drop_append_of_le_length (by omega)
      have hpair : [c, c].isPrefixOf (m ++ y') = true := by
        rwa [isPrefixOf_two c (by omega) y' y]
      have hm : c :: c :: m.drop 2 = m :=
        append_drop_of_isPrefixOf (isPrefixOf_of_append hblock (by rw [List.length_append]; omega))
      rw [hdrop] at h
      rw [if_pos hpair, hdrop, hdrop, readBlock_carry_of_carries hbackslash hy (readBlock_eq h), hm]
    · simp only [if_neg hblock] at h ⊢
      have hread := readLine_eq h
      rw [if_neg (not_isPrefixOf_carry hline hblock hread hy),
        readLine_carry_of_carries hbackslash hy hread]
  simp only [if_neg hquote] at h ⊢
  by_cases hword : isWordStart c = true
  · simp only [if_pos hword] at h ⊢
    exact readWhile_carry h (hy.stops (readWhile_stops h) (by decide))
  simp only [if_neg hword] at h ⊢
  by_cases hdigit : c.isDigit = true
  · simp only [if_pos hdigit] at h ⊢
    rw [readNumber_carry h hy, readNumber_kind]
  simp only [if_neg hdigit] at h ⊢
  by_cases hpoint : c = '.' ∧ ((m ++ y).head?.any Char.isDigit) = true
  · simp only [if_pos hpoint] at h ⊢
    have hstop := readWhile_stops h
    cases m with
    | nil =>
      have hany := hpoint.2
      rw [List.nil_append, not_any_of_stops hstop] at hany
      simp at hany
    | cons d m =>
      rw [if_pos (show c = '.' ∧ ((d :: m ++ y').head?.any Char.isDigit) = true from hpoint)]
      exact readWhile_carry h (hy.stops hstop fun _ => rfl)
  · simp only [if_neg hpoint] at h ⊢
    have hm : m = [] := (eq_nil_of_left (a := []) (t := y) (m := m) h).2
    subst hm
    rw [List.nil_append] at hpoint ⊢
    by_cases hdot : c = '.'
    · have hstop : ∀ d ∈ y.head?, d.isDigit = false := by
        intro d hd
        refine Bool.eq_false_iff.2 fun hdigit' => hpoint ⟨hdot, ?_⟩
        rw [Option.mem_def.1 hd]
        exact hdigit'
      rw [not_any_of_stops (hy.stops hstop fun _ => rfl), if_neg (by simp)]
    · rw [if_neg fun h' => hdot h'.1]

/-- A closed string with something in it stays one whatever follows. -/
theorem read_carry_of_closed (h : (read c (m ++ y)).rest = y)
    (hkind : (read c (m ++ y)).kind = .str .closed) (hlen : 2 ≤ m.length) (y' : Text) :
    read c (m ++ y') = ⟨.str .closed, c :: m, y'⟩ := by
  unfold read at h hkind ⊢
  by_cases hcomment : c = '#'
  · simp [if_pos hcomment, readWhile] at hkind
  simp only [if_neg hcomment] at h hkind ⊢
  by_cases hquote : isQuote c = true
  · simp only [if_pos hquote] at h hkind ⊢
    rw [isPrefixOf_two c hlen y' y]
    by_cases hblock : [c, c].isPrefixOf (m ++ y) = true
    · simp only [if_pos hblock] at hkind
      simp at hkind
    · simp only [if_neg hblock, LexemeKind.str.injEq] at h hkind ⊢
      have hbackslash : c ≠ '\\' := ne_of_isQuote hquote rfl
      rw [readLine_carry hbackslash (readLine_eq h) (Or.inl hkind), hkind]
  · simp only [if_neg hquote] at hkind
    split at hkind
    · simp [readWhile] at hkind
    split at hkind
    · simp [readNumber_kind] at hkind
    split at hkind <;> simp [readWhile] at hkind

end Lexeme

namespace Token

/-- Whether a token ends with itself: a closing parenthesis, or a closed string that is not empty. -/
def IsClosed (t : Token) : Prop := t.is ")" = true ∨ t.kind = .string ∧ 2 < t.text.length

/-- Whether a token that one text follows may have the other text behind it. -/
def Carries (t : Token) (y y' : Text) : Prop := t.IsClosed ∨ Lexeme.Carries t.text y y'

end Token

namespace Cursor

variable {r r' : Text} {p q q' : Cursor} {u : Token}

theorem tokens_eq_tokenize (o : Nat) (s : Text) :
    tokens ⟨o, s⟩ = (tokenize s).map (Token.shift o) := tokens_shift o ⟨0, s⟩

/-- The first token, the blanks before it, and what every text that begins with these blanks and
with the first character of the token has for its first token. -/
theorem exists_of_next? (h : p.next? = some (u, q)) : ∃ blanks c m k,
    p.rest = blanks ++ c :: (m ++ q.rest) ∧ Lexeme.read c (m ++ q.rest) = ⟨k, c :: m, q.rest⟩
      ∧ u = ⟨.ofLexeme k, c :: m, p.offset + Text.byteLen blanks⟩ ∧ q.offset = u.stop
      ∧ ∀ s, next? ⟨p.offset, blanks ++ c :: s⟩ =
          let t : Token := ⟨.ofLexeme (Lexeme.read c s).kind, (Lexeme.read c s).text,
            p.offset + Text.byteLen blanks⟩
          some (t, ⟨t.stop, (Lexeme.read c s).rest⟩) := by
  obtain ⟨⟨o, l⟩, hl, hq⟩ := Option.map_eq_some_iff.1 h
  obtain ⟨blanks, c, r, hr, hlexeme, rfl, hall⟩ := exists_of_nextLexeme? hl
  simp only [Prod.mk.injEq] at hq
  obtain ⟨rfl, rfl⟩ := hq
  have happend := Lexeme.read_text_append c r
  have hne := Lexeme.read_text_ne_nil c r
  rw [← hlexeme] at happend hne
  obtain ⟨k, text, rest⟩ := l
  obtain ⟨d, m, rfl⟩ := List.exists_cons_of_ne_nil hne
  obtain ⟨rfl, rfl⟩ := List.cons.inj happend
  refine ⟨blanks, d, m, k, hr, hlexeme.symm, rfl, rfl, ?_⟩
  intro s
  simp only [next?, hall, Option.map_some]

/-- The place behind a token is as far from the end of the text as what is left to read. -/
theorem next?_offset (h : p.next? = some (u, q)) :
    q.offset = u.stop ∧ q.offset + Text.byteLen q.rest = p.offset + Text.byteLen p.rest := by
  obtain ⟨blanks, c, m, k, hr, -, rfl, hoffset, -⟩ := exists_of_next? h
  refine ⟨hoffset, ?_⟩
  rw [hoffset, hr, ← List.cons_append]
  simp only [Token.stop, Text.byteLen_append]
  omega

/-- A token stays the first one where it may have the other text behind it. -/
theorem next?_carry (h : p.next? = some (u, q))
    (hlong : next? ⟨p.offset, p.rest ++ r⟩ = some (u, q'))
    (hu : u.Carries (q.rest ++ r) (q.rest ++ r')) : q' = ⟨q.offset, q.rest ++ r⟩
      ∧ next? ⟨p.offset, p.rest ++ r'⟩ = some (u, ⟨q.offset, q.rest ++ r'⟩) := by
  obtain ⟨blanks, c, m, k, hr, hread, rfl, hoffset, hall⟩ := exists_of_next? h
  rw [hr, List.append_assoc, List.cons_append, List.append_assoc, hall] at hlong ⊢
  simp only [Option.some.injEq, Prod.mk.injEq, Token.mk.injEq, and_true] at hlong ⊢
  obtain ⟨⟨hkind, htext⟩, rfl⟩ := hlong
  have hrest : (Lexeme.read c (m ++ (q.rest ++ r))).rest = q.rest ++ r := by
    have happend := Lexeme.read_text_append c (m ++ (q.rest ++ r))
    rw [htext, ← List.cons_append] at happend
    exact List.append_cancel_left happend
  have hlexeme : Lexeme.read c (m ++ (q.rest ++ r')) =
      ⟨(Lexeme.read c (m ++ (q.rest ++ r))).kind, c :: m, q.rest ++ r'⟩ := by
    rcases hu with (hclose | ⟨hstring, hlen⟩) | hu
    · obtain ⟨rfl, rfl⟩ := List.cons.inj (Token.text_of_is hclose)
      rfl
    · have hclosed : (Lexeme.read c (m ++ (q.rest ++ r))).kind = .str .closed := by
        rw [← hkind] at hstring
        generalize (Lexeme.read c (m ++ (q.rest ++ r))).kind = kind at hstring
        revert hstring
        dsimp only
        unfold TokenKind.ofLexeme
        split <;> simp
      rw [hclosed]
      simp only [List.length_cons] at hlen
      exact Lexeme.read_carry_of_closed hrest hclosed (by omega) _
    · exact Lexeme.read_carry hrest hu
  rw [hlexeme, hrest]
  simp only [Token.stop, htext, hoffset, hkind]
  simp

/-- The tokens of a text stay as they are where the last one may have the other text behind it. -/
theorem tokens_carry (p : Cursor)
    (h : tokens ⟨p.offset, p.rest ++ r⟩ =
      p.tokens ++ tokens ⟨p.offset + Text.byteLen p.rest, r⟩)
    (hlast : ∀ u ∈ p.tokens.getLast?, u.stop = p.offset + Text.byteLen p.rest →
      u.Carries r r') :
    tokens ⟨p.offset, p.rest ++ r'⟩ =
      p.tokens ++ tokens ⟨p.offset + Text.byteLen p.rest, r'⟩ := by
  fun_induction tokens p with
  | case1 p hnext =>
    rw [tokens_append_of_none hnext]
    rfl
  | case2 p u q hnext ih =>
    obtain ⟨hstop, hlen⟩ := next?_offset hnext
    have hcarries : u.Carries (q.rest ++ r) (q.rest ++ r') := by
      by_cases hend : q.rest = []
      · have hnil : q.tokens = [] := tokens_of_none (by simp [next?, hend, nextLexeme?])
        rw [hend] at hlen ⊢
        rw [hnil] at hlast
        refine hlast u rfl ?_
        rw [← hlen, hstop, Text.byteLen_nil, Nat.add_zero]
      · obtain ⟨c, rest, hrest⟩ := List.exists_cons_of_ne_nil hend
        rw [hrest]
        exact Or.inr (Or.inl rfl)
    cases hlong : next? ⟨p.offset, p.rest ++ r⟩ with
    | none =>
      rw [tokens_of_none hlong] at h
      simp at h
    | some v =>
      obtain ⟨v, q'⟩ := v
      rw [tokens_of_some hlong, List.cons_append, List.cons.injEq] at h
      obtain ⟨rfl, htokens⟩ := h
      obtain ⟨rfl, hnext'⟩ := next?_carry hnext hlong hcarries
      rw [tokens_of_some hnext', List.cons_append, ← hlen, ih]
      · rw [htokens, hlen]
      · intro t ht hend
        refine hlast t ?_ (hend.trans hlen)
        rw [List.getLast?_cons, Option.mem_def.1 ht]
        rfl

/-- A text that does not begin with a blank begins with a token. -/
theorem exists_next?_of_not_blank {c : Char} (hc : Lexeme.isBlank c = false) (o : Nat) (s : Text) :
    ∃ t ts, tokens ⟨o, c :: s⟩ = t :: ts ∧ t.offset = o := by
  have hlexeme : nextLexeme? o (c :: s) = some (o, Lexeme.read c s) := by simp [nextLexeme?, hc]
  have hnext : next? ⟨o, c :: s⟩ = some (⟨.ofLexeme (Lexeme.read c s).kind,
      (Lexeme.read c s).text, o⟩, ⟨o + Text.byteLen (Lexeme.read c s).text,
      (Lexeme.read c s).rest⟩) := by
    simp only [next?, hlexeme, Option.map_some]
    rfl
  exact ⟨_, _, tokens_of_some hnext, rfl⟩

/-- Some first tokens are those of a beginning of the text, which ends with the last of them. -/
theorem exists_cut (p : Cursor) {us ts : List Token} (h : p.tokens = us ++ ts) : ∃ x r,
    p.rest = x ++ r ∧ tokens ⟨p.offset, x⟩ = us ∧ tokens ⟨p.offset + Text.byteLen x, r⟩ = ts
      ∧ (us = [] → x = []) ∧ ∀ u ∈ us.getLast?, u.stop = p.offset + Text.byteLen x := by
  induction us generalizing p with
  | nil => exact ⟨[], p.rest, rfl, tokens_of_none rfl, h, fun _ => rfl, by simp⟩
  | cons u us ih =>
    cases hnext : p.next? with
    | none =>
      rw [tokens_of_none hnext] at h
      simp at h
    | some v =>
      obtain ⟨v, q⟩ := v
      rw [tokens_of_some hnext, List.cons_append, List.cons.injEq] at h
      obtain ⟨rfl, htokens⟩ := h
      obtain ⟨x, r, hrest, hx, hr, hnil, hlast⟩ := ih q htokens
      obtain ⟨blanks, c, m, k, hp, hread, rfl, hoffset, hall⟩ := exists_of_next? hnext
      rw [hrest, ← List.append_assoc] at hread
      have hcut := Lexeme.read_cut c (congrArg Lexeme.rest hread)
      rw [hread] at hcut
      have hlen : q.offset + Text.byteLen x =
          p.offset + Text.byteLen (blanks ++ c :: (m ++ x)) := by
        rw [hoffset, ← List.cons_append]
        simp only [Token.stop, Text.byteLen_append]
        omega
      have hfirst : next? ⟨p.offset, blanks ++ c :: (m ++ x)⟩ =
          some (⟨.ofLexeme k, c :: m, p.offset + Text.byteLen blanks⟩, ⟨q.offset, x⟩) := by
        rw [hall, hcut, hoffset]
      refine ⟨blanks ++ c :: (m ++ x), r, by simp [hp, hrest], ?_, by rw [← hlen, hr],
        by simp, ?_⟩
      · rw [tokens_of_some hfirst, hx]
      · intro t ht
        rw [← hlen]
        cases us with
        | nil =>
          obtain rfl := Option.some.inj ht
          rw [hnil rfl, hoffset]
          rfl
        | cons u us => exact hlast t (by simpa using ht)

end Cursor

/-- Whether no token reaches over the place where two texts meet. -/
def Parts (x r : Text) : Prop :=
  tokenize (x ++ r) = tokenize x ++ (tokenize r).map (Token.shift (Text.byteLen x))

namespace Parts

variable {x r r' : Text}

theorem nil (x : Text) : Parts x [] := by
  have hnone : tokenize [] = [] := Cursor.tokens_of_none rfl
  simp [Parts, hnone]

/-- The tokens of two texts that meet between tokens are those of each, wherever they stand. -/
theorem tokens (h : Parts x r) (o : Nat) :
    Cursor.tokens ⟨o, x ++ r⟩ = Cursor.tokens ⟨o, x⟩ ++ Cursor.tokens ⟨o + Text.byteLen x, r⟩ := by
  rw [Cursor.tokens_eq_tokenize, h, List.map_append, List.map_map, Cursor.tokens_eq_tokenize o x,
    Cursor.tokens_eq_tokenize (o + Text.byteLen x) r]
  congr 2
  funext t
  simp only [Function.comp_apply, Token.shift, Token.mk.injEq, true_and]
  omega

/-- Two texts whose tokens meet at one place do not share a token at all. -/
theorem of_tokens {o : Nat} (h : Cursor.tokens ⟨o, x ++ r⟩ =
    Cursor.tokens ⟨o, x⟩ ++ Cursor.tokens ⟨o + Text.byteLen x, r⟩) : Parts x r := by
  have hinj : ∀ t u : Token, t.shift o = u.shift o → t = u := by
    rintro ⟨kind, text, offset⟩ ⟨kind', text', offset'⟩ h
    simp only [Token.shift, Token.mk.injEq] at h ⊢
    exact ⟨h.1, h.2.1, by omega⟩
  refine (List.map_inj_right hinj).1 ?_
  rw [← Cursor.tokens_eq_tokenize, h, List.map_append, List.map_map,
    Cursor.tokens_eq_tokenize o x, Cursor.tokens_eq_tokenize (o + Text.byteLen x) r]
  congr 2
  funext t
  simp only [Function.comp_apply, Token.shift, Token.mk.injEq, true_and]
  omega

/-- The tokens of a text stay as they are where the last one may have the other text behind it. -/
theorem carry (h : Parts x r)
    (hlast : ∀ u ∈ (tokenize x).getLast?, u.stop = Text.byteLen x → u.Carries r r') :
    Parts x r' := by
  have hlast' : ∀ u ∈ (Cursor.tokens ⟨0, x⟩).getLast?, u.stop = 0 + Text.byteLen x →
      u.Carries r r' := by
    rw [Nat.zero_add]
    exact hlast
  have hparts := Cursor.tokens_carry ⟨0, x⟩ (h.tokens 0) hlast'
  unfold Parts
  rw [← Cursor.tokens_eq_tokenize, ← Nat.zero_add (Text.byteLen x)]
  exact hparts

end Parts

end ImageScript
