import ImageScript.Proofs.Script.NestedTokens
import ImageScript.Proofs.Text.Encoding
import Mathlib.Data.List.TakeWhile

/-!
# Tokens lose nothing of a text

Between the tokens of a text stand blanks only, and each token is what the text holds at its offset.
The deep walk lists behind each comment and each closed doc string the tokens of its body, so that
a token may lie within the one it was found in; the strings among them still stand apart.

Main statements: `Cursor.blank_or_covered`, `DeepWalk.yields_iff`, `DeepWalk.preorder_tokens`,
`tokens_lossless`.
-/

namespace ImageScript

/-! ### What stands between tokens -/

namespace Text

/-- The bytes that separate tokens: space, tab, line feed, form feed and carriage return. -/
def blankBytes : Bytes := [0x20, 0x09, 0x0A, 0x0C, 0x0D]

theorem mem_blankBytes {blanks : Text} (h : ∀ c ∈ blanks, Lexeme.isBlank c = true) :
    ∀ b ∈ encode blanks, b ∈ blankBytes := by
  intro b hb
  obtain ⟨c, hc, hb⟩ := List.mem_flatMap.1 hb
  have hblank := h c hc
  simp only [Lexeme.isBlank, Bool.or_eq_true, decide_eq_true_eq, or_assoc] at hblank
  have hcode : encodeChar c ∈ blankBytes.map fun b => [b] := by
    rcases hblank with rfl | rfl | rfl | rfl | rfl <;> decide
  obtain ⟨code, hcode, heq⟩ := List.mem_map.1 hcode
  rw [← heq, List.mem_singleton] at hb
  exact hb ▸ hcode

end Text

namespace Cursor

variable {p q : Cursor} {t : Token}

/-- The next lexeme begins at the first character that is no blank. -/
theorem nextLexeme?_eq (offset : Nat) (s : Text) : nextLexeme? offset s =
    match s.dropWhile Lexeme.isBlank with
    | [] => none
    | c :: r => some (offset + Text.byteLen (s.takeWhile Lexeme.isBlank), Lexeme.read c r) := by
  induction s generalizing offset with
  | nil => rfl
  | cons c r ih =>
    by_cases hc : Lexeme.isBlank c = true
    · rw [nextLexeme?, if_pos hc, ih, List.dropWhile_cons_of_pos hc, List.takeWhile_cons_of_pos hc,
        Text.byteLen_cons, Nat.add_assoc]
    · rw [nextLexeme?, if_neg hc, List.dropWhile_cons_of_neg hc, List.takeWhile_cons_of_neg hc]
      rfl

theorem blank_of_next?_none (h : p.next? = none) : ∀ c ∈ p.rest, Lexeme.isBlank c = true := by
  rw [next?, Option.map_eq_none_iff, nextLexeme?_eq] at h
  split at h
  · next hdrop => exact List.dropWhile_eq_nil_iff.1 hdrop
  · cases h

/-- A token does not begin with a blank. -/
theorem not_blank_of_next? (h : p.next? = some (t, q)) :
    ∀ c ∈ t.text.head?, Lexeme.isBlank c = false := by
  obtain ⟨⟨o, l⟩, hl, hq⟩ := Option.map_eq_some_iff.1 h
  simp only [Prod.mk.injEq] at hq
  obtain ⟨rfl, rfl⟩ := hq
  rw [nextLexeme?_eq] at hl
  split at hl
  · cases hl
  · next c r hdrop =>
    obtain ⟨-, rfl⟩ := Prod.mk.inj (Option.some.inj hl)
    intro d hd
    have hread := Lexeme.read_text_append c r
    obtain ⟨e, m, htext⟩ := List.exists_cons_of_ne_nil (Lexeme.read_text_ne_nil c r)
    rw [htext] at hread hd
    obtain rfl : e = c := (List.cons.inj hread).1
    obtain rfl : e = d := Option.some.inj hd
    have hnot := List.head?_dropWhile_not Lexeme.isBlank p.rest
    rw [hdrop] at hnot
    simpa using hnot

/-- Behind blanks a text is read from its first other character on. -/
theorem next?_of_blanks {blanks : Text} (hblank : ∀ c ∈ blanks, Lexeme.isBlank c = true) {c : Char}
    (hc : Lexeme.isBlank c = false) (o : Nat) (s : Text) : next? ⟨o, blanks ++ c :: s⟩ =
      let t : Token := ⟨.ofLexeme (Lexeme.read c s).kind, (Lexeme.read c s).text,
        o + Text.byteLen blanks⟩
      some (t, ⟨t.stop, (Lexeme.read c s).rest⟩) := by
  have hhead : ¬ Lexeme.isBlank c = true := by simp [hc]
  rw [next?, nextLexeme?_eq, List.dropWhile_append_of_pos hblank,
    List.takeWhile_append_of_pos hblank, List.dropWhile_cons_of_neg hhead,
    List.takeWhile_cons_of_neg hhead, List.append_nil]
  rfl

theorem next?_of_blank {s : Text} (h : ∀ c ∈ s, Lexeme.isBlank c = true) (o : Nat) :
    next? ⟨o, s⟩ = none := by
  rw [next?, nextLexeme?_eq, List.dropWhile_eq_nil_iff.2 h]
  rfl

/-- Before a token stand blanks. -/
theorem exists_blanks_of_next? (h : p.next? = some (t, q)) : ∃ blanks,
    p.rest = blanks ++ t.text ++ q.rest ∧ t.offset = p.offset + Text.byteLen blanks
      ∧ q.offset = t.stop ∧ ∀ c ∈ blanks, Lexeme.isBlank c = true := by
  obtain ⟨⟨o, l⟩, hl, hq⟩ := Option.map_eq_some_iff.1 h
  simp only [Prod.mk.injEq] at hq
  obtain ⟨rfl, rfl⟩ := hq
  rw [nextLexeme?_eq] at hl
  split at hl
  · cases hl
  · next c r hdrop =>
    simp only [Option.some.injEq, Prod.mk.injEq] at hl
    obtain ⟨rfl, rfl⟩ := hl
    refine ⟨p.rest.takeWhile Lexeme.isBlank, ?_, rfl, rfl, ?_⟩
    · rw [List.append_assoc, Lexeme.read_text_append, ← hdrop, List.takeWhile_append_dropWhile]
    · exact fun c hc => List.all_eq_true.1 List.all_takeWhile c hc

/-- A byte behind a place is a blank or lies in a token. -/
theorem blank_or_covered (p : Cursor) {i : Nat} {b : UInt8}
    (h : (Text.encode p.rest)[i]? = some b) :
    b ∈ Text.blankBytes ∨ ∃ t ∈ p.tokens, t.offset ≤ p.offset + i ∧ p.offset + i < t.stop := by
  fun_induction tokens p generalizing i with
  | case1 p hnext =>
    exact Or.inl (Text.mem_blankBytes (blank_of_next?_none hnext) b (List.mem_of_getElem? h))
  | case2 p t q hnext ih =>
    obtain ⟨blanks, hrest, hoffset, hstop, hblank⟩ := exists_blanks_of_next? hnext
    have hlen : Text.byteLen blanks = (Text.encode blanks).length := (Text.length_encode _).symm
    rw [hrest, List.append_assoc, Text.encode_append] at h
    rw [Token.stop] at hstop
    by_cases hi : i < Text.byteLen blanks
    · rw [List.getElem?_append_left (by omega)] at h
      exact Or.inl (Text.mem_blankBytes hblank b (List.mem_of_getElem? h))
    rw [List.getElem?_append_right (by omega), Text.encode_append, ← hlen] at h
    by_cases ht : i - Text.byteLen blanks < Text.byteLen t.text
    · refine Or.inr ⟨t, List.mem_cons_self .., by omega, ?_⟩
      rw [Token.stop]
      omega
    · rw [List.getElem?_append_right (by rw [Text.length_encode]; omega), Text.length_encode] at h
      rcases ih h with hb | ⟨u, hu, hle, hlt⟩
      · exact Or.inl hb
      · exact Or.inr ⟨u, List.mem_cons_of_mem t hu, by omega, by omega⟩

end Cursor

/-! ### What comments and doc strings hold -/

namespace Token

/-- A comment holds the text behind its sign and a closed doc string that between its quotes. -/
inductive Holds : Token → Cursor → Prop where
  | comment (body : Text) (offset : Nat) :
      Holds ⟨.comment, '#' :: body, offset⟩ ⟨offset + 1, body⟩
  | docString {quote : Char} (isQuote : Lexeme.isQuote quote = true) (body : Text) (offset : Nat) :
      Holds ⟨.docString, quote :: quote :: quote :: (body ++ [quote, quote, quote]), offset⟩
        ⟨offset + 3, body⟩

variable {t : Token} {body : Cursor}

theorem Holds.body?_eq (h : t.Holds body) : t.body? = some body := by
  cases h with
  | comment body offset => rfl
  | docString isQuote body offset => simp [body?]

theorem body?_eq_none (hcomment : t.kind ≠ .comment) (hdoc : t.kind ≠ .docString) :
    t.body? = none := by
  unfold body?
  split
  · exact absurd ‹_› hcomment
  · exact absurd ‹_› hdoc
  · rfl

theorem Holds.kind (h : t.Holds body) : t.kind = .comment ∨ t.kind = .docString := by
  cases h with
  | comment => exact Or.inl rfl
  | docString => exact Or.inr rfl

end Token

namespace Lexeme

/-- A closed doc string ends with three of its quotes. -/
theorem exists_body_of_readBlock {quote : Char} {s : Text}
    (h : (readBlock quote s).termination = .closed) :
    ∃ body, (readBlock quote s).text = body ++ [quote, quote, quote] := by
  fun_induction readBlock quote s with
  | case1 => cases h
  | case2 c r ih =>
    obtain ⟨body, hbody⟩ := ih h
    exact ⟨'\\' :: c :: body, congrArg (fun s => '\\' :: c :: s) hbody⟩
  | case3 c r _ hclose => exact ⟨[], by rw [hclose.1]; rfl⟩
  | case4 c r _ _ ih =>
    obtain ⟨body, hbody⟩ := ih h
    exact ⟨c :: body, congrArg (c :: ·) hbody⟩

end Lexeme

namespace Token

/-- A comment and a closed doc string are what they hold between their marks. -/
theorem holds_of_read (offset : Nat) (c : Char) (r : Text) :
    let t : Token := ⟨.ofLexeme (Lexeme.read c r).kind, (Lexeme.read c r).text, offset⟩
    t.kind ≠ .comment ∧ t.kind ≠ .docString ∨ ∃ body, t.Holds body := by
  unfold Lexeme.read
  split
  · next hsign =>
    subst hsign
    exact Or.inr ⟨_, .comment _ offset⟩
  split
  · next hquote =>
    split
    · dsimp only
      cases hend : (Lexeme.readBlock c (r.drop 2)).termination with
      | closed =>
        obtain ⟨body, hbody⟩ := Lexeme.exists_body_of_readBlock hend
        rw [hbody]
        exact Or.inr ⟨_, .docString hquote body offset⟩
      | unclosed => exact Or.inl ⟨nofun, nofun⟩
    · dsimp only
      cases (Lexeme.readLine c r).termination <;> exact Or.inl ⟨nofun, nofun⟩
  split
  · exact Or.inl ⟨nofun, nofun⟩
  split
  · rw [Lexeme.readNumber_kind]
    exact Or.inl ⟨nofun, nofun⟩
  split <;> exact Or.inl ⟨nofun, nofun⟩

end Token

namespace Cursor

variable {p q : Cursor} {t : Token}

theorem holds_of_next? (h : p.next? = some (t, q)) :
    t.kind ≠ .comment ∧ t.kind ≠ .docString ∨ ∃ body, t.Holds body := by
  obtain ⟨⟨o, l⟩, hl, hq⟩ := Option.map_eq_some_iff.1 h
  obtain ⟨-, c, r, -, rfl, -, -⟩ := exists_of_nextLexeme? hl
  simp only [Prod.mk.injEq] at hq
  obtain ⟨rfl, -⟩ := hq
  exact Token.holds_of_read o c r

theorem holds_of_body? (h : p.next? = some (t, q)) {body : Cursor} (hb : t.body? = some body) :
    t.Holds body := by
  rcases holds_of_next? h with ⟨hcomment, hdoc⟩ | ⟨body', hholds⟩
  · rw [Token.body?_eq_none hcomment hdoc] at hb
    cases hb
  · rwa [← Option.some.inj (hholds.body?_eq.symm.trans hb)]

end Cursor

/-! ### The walk through all bodies -/

namespace DeepWalk

/-- What a walk yields that has the texts of a stack before it: the text on top is read for its
next token, or dropped at its end. -/
inductive Yields : List Cursor → List Token → Prop where
  | done : Yields [] []
  | drop {p : Cursor} {stack : List Cursor} {ts : List Token} (ends : p.next? = none)
      (later : Yields stack ts) : Yields (p :: stack) ts
  | token {p q : Cursor} {t : Token} {stack : List Cursor} {ts : List Token}
      (reads : p.next? = some (t, q)) (later : Yields (push t q stack) ts) :
      Yields (p :: stack) (t :: ts)

/-- The walk ends, and it yields one list of tokens. -/
theorem yields_iff (stack : List Cursor) (ts : List Token) : Yields stack ts ↔ ts = run stack := by
  constructor
  · intro h
    induction h with
    | done => rw [run]
    | drop ends later ih => rw [run_of_none ends, ih]
    | token reads later ih => rw [run_of_some reads, ih]
  · rintro rfl
    fun_induction run stack with
    | case1 => exact .done
    | case2 p stack ends ih => exact .drop ends ih
    | case3 p stack t q reads ih => exact .token reads ih

/-- The walk by recursion: each token is listed before the walk through the body it holds, and
that before the tokens behind it. -/
inductive Preorder : List Token → List Token → Prop where
  | nil : Preorder [] []
  | plain {t : Token} {ts us : List Token} (comment : t.kind ≠ .comment)
      (docString : t.kind ≠ .docString) (later : Preorder ts us) : Preorder (t :: ts) (t :: us)
  | nested {t : Token} {body : Cursor} {ts vs us : List Token} (holds : t.Holds body)
      (inner : Preorder body.tokens vs) (later : Preorder ts us) :
      Preorder (t :: ts) (t :: (vs ++ us))

theorem Preorder.unique {ts us vs : List Token} (h : Preorder ts us) (h' : Preorder ts vs) :
    us = vs := by
  induction h generalizing vs with
  | nil => cases h'; rfl
  | plain comment docString later ih =>
    cases h' with
    | plain _ _ later' => rw [ih later']
    | nested holds _ _ => exact absurd holds.kind (by simp [comment, docString])
  | nested holds inner later ihinner ih =>
    cases h' with
    | plain comment docString _ => exact absurd holds.kind (by simp [comment, docString])
    | nested holds' inner' later' =>
      obtain rfl := Option.some.inj (holds.body?_eq.symm.trans holds'.body?_eq)
      rw [ihinner inner', ih later']

theorem preorder_tokens (p : Cursor) : Preorder p.tokens p.nestedTokens := by
  fun_induction Cursor.nestedTokens p with
  | case1 p hnext => rw [Cursor.tokens_of_none hnext]; exact .nil
  | case2 p t q hnext hbody ih =>
    rw [Cursor.tokens_of_some hnext]
    rcases Cursor.holds_of_next? hnext with ⟨hcomment, hdoc⟩ | ⟨body, hholds⟩
    · exact .plain hcomment hdoc ih
    · simp [hholds.body?_eq] at hbody
  | case3 p t q hnext body hbody ihbody ih =>
    rw [Cursor.tokens_of_some hnext]
    exact .nested (Cursor.holds_of_body? hnext hbody) ihbody ih

theorem preorder_iff (s : Text) (ts : List Token) :
    Preorder (tokenize s) ts ↔ ts = deepTokens s := by
  rw [deepTokens_eq]
  constructor
  · exact fun h => h.unique (preorder_tokens ⟨0, s⟩)
  · rintro rfl
    exact preorder_tokens ⟨0, s⟩

end DeepWalk

/-! ### Where the tokens of a walk stand -/

namespace Cursor

variable {p q body : Cursor} {t : Token}

/-- A body lies behind the first character of the token that holds it, and before its end. -/
theorem body_lt_stop (h : p.next? = some (t, q)) (hb : t.body? = some body) :
    t.offset < body.offset ∧ body.offset + Text.byteLen body.rest ≤ t.stop
      ∧ ∃ mark tail, t.text = mark ++ body.rest ++ tail
        ∧ body.offset = t.offset + Text.byteLen mark := by
  cases holds_of_body? h hb with
  | comment body offset =>
    refine ⟨Nat.lt_succ_self _, Nat.le_of_eq ?_, ['#'], [], by simp, rfl⟩
    simp only [Token.stop, Text.byteLen_cons]
    have hsize : '#'.utf8Size = 1 := rfl
    omega
  | docString isQuote body offset =>
    rename_i quote
    have hsize := Lexeme.utf8Size_of_isQuote isQuote
    refine ⟨Nat.lt_add_of_pos_right (by omega), ?_, [quote, quote, quote], [quote, quote, quote],
      by simp, by simp [hsize]⟩
    simp only [Token.stop, Text.byteLen_cons, Text.byteLen_append]
    omega

/-- A token of the walk is what the text holds at its offset. -/
theorem exists_of_mem_nestedTokens (p : Cursor) : ∀ t ∈ p.nestedTokens, t.text ≠ []
    ∧ ∃ a b, p.rest = a ++ t.text ++ b ∧ t.offset = p.offset + Text.byteLen a := by
  fun_induction nestedTokens p with
  | case1 => exact fun t ht => absurd ht List.not_mem_nil
  | case2 p t q hnext hbody ih =>
    obtain ⟨blanks, hrest, hoffset, hstop, -⟩ := exists_blanks_of_next? hnext
    intro u hu
    rcases List.mem_cons.1 hu with rfl | hu
    · exact ⟨(next?_length hnext).1, blanks, q.rest, hrest, hoffset⟩
    · obtain ⟨hne, a, b, hq, hu⟩ := ih u hu
      refine ⟨hne, blanks ++ t.text ++ a, b, by simp [hrest, hq], ?_⟩
      rw [hu, hstop, Token.stop, hoffset]
      simp only [Text.byteLen_append]
      omega
  | case3 p t q hnext body hbody ihbody ih =>
    obtain ⟨blanks, hrest, hoffset, hstop, -⟩ := exists_blanks_of_next? hnext
    obtain ⟨-, -, mark, tail, htext, hmark⟩ := body_lt_stop hnext hbody
    intro u hu
    rcases List.mem_cons.1 hu with rfl | hu
    · exact ⟨(next?_length hnext).1, blanks, q.rest, hrest, hoffset⟩
    rcases List.mem_append.1 hu with hu | hu
    · obtain ⟨hne, a, b, hq, hu⟩ := ihbody u hu
      refine ⟨hne, blanks ++ mark ++ a, b ++ tail ++ q.rest, by simp [hrest, htext, hq], ?_⟩
      rw [hu, hmark, hoffset]
      simp only [Text.byteLen_append]
      omega
    · obtain ⟨hne, a, b, hq, hu⟩ := ih u hu
      refine ⟨hne, blanks ++ t.text ++ a, b, by simp [hrest, hq], ?_⟩
      rw [hu, hstop, Token.stop, hoffset]
      simp only [Text.byteLen_append]
      omega

theorem within_of_mem_nestedTokens (p : Cursor) : ∀ t ∈ p.nestedTokens,
    p.offset ≤ t.offset ∧ t.stop ≤ p.offset + Text.byteLen p.rest := by
  intro t ht
  obtain ⟨-, a, b, hrest, hoffset⟩ := exists_of_mem_nestedTokens p t ht
  rw [Token.stop, hoffset, hrest]
  simp only [Text.byteLen_append]
  omega

/-- The tokens of a walk begin one behind the other, and behind a string also end of it. -/
theorem pairwise_nestedTokens (p : Cursor) : p.nestedTokens.Pairwise fun t u =>
    t.offset < u.offset ∧ (t.kind = .string → t.stop ≤ u.offset) := by
  fun_induction nestedTokens p with
  | case1 => exact .nil
  | case2 p t q hnext hbody ih =>
    have hstop := (next?_offset hnext).1
    have hpos := Text.byteLen_pos (next?_length hnext).1
    rw [Token.stop] at hstop
    refine .cons (fun u hu => ?_) ih
    have hle := (within_of_mem_nestedTokens q u hu).1
    rw [Token.stop]
    omega
  | case3 p t q hnext body hbody ihbody ih =>
    have hstop := (next?_offset hnext).1
    obtain ⟨hlt, hend, -⟩ := body_lt_stop hnext hbody
    have hkind : t.kind ≠ .string := by
      rcases (holds_of_body? hnext hbody).kind with hk | hk <;> simp [hk]
    refine .cons (fun u hu => ⟨?_, fun h => absurd h hkind⟩) (List.pairwise_append.2 ⟨ihbody, ih, ?_⟩)
    · rcases List.mem_append.1 hu with hu | hu
      · have hle := (within_of_mem_nestedTokens body u hu).1
        omega
      · have hle := (within_of_mem_nestedTokens q u hu).1
        omega
    · intro u hu v hv
      have hu' := within_of_mem_nestedTokens body u hu
      have hv' := (within_of_mem_nestedTokens q v hv).1
      have hpos := Text.byteLen_pos (exists_of_mem_nestedTokens body u hu).1
      rw [Token.stop] at hu' ⊢
      omega

end Cursor

/-- Every token of the deep walk is the slice of the text at its offset, which is not empty. -/
theorem slice?_of_mem_deepTokens {s : Text} {t : Token} (h : t ∈ deepTokens s) :
    t.text ≠ [] ∧ s.slice? t.offset t.stop = some t.text := by
  rw [deepTokens_eq] at h
  obtain ⟨hne, a, b, hs, hoffset⟩ := Cursor.exists_of_mem_nestedTokens ⟨0, s⟩ t h
  obtain rfl : s = a ++ t.text ++ b := hs
  rw [Nat.zero_add] at hoffset
  rw [Token.stop, hoffset, ← Text.byteLen_append, Text.slice?_append]
  exact ⟨hne, rfl⟩

/-- Whether some tokens are all that a text holds beside blanks. -/
structure AccountsFor (s : Text) (ts : List Token) : Prop where
  nonempty : ∀ t ∈ ts, t.text ≠ []
  /-- The tokens come in order and do not overlap. -/
  ordered : ts.Pairwise fun t u => t.stop ≤ u.offset
  /-- Both ends of a token are boundaries, and the text holds its characters there. -/
  slices : ∀ t ∈ ts, s.slice? t.offset t.stop = some t.text
  blanks : ∀ i b, (Text.encode s)[i]? = some b →
    (∀ t ∈ ts, ¬ (t.offset ≤ i ∧ i < t.stop)) → b ∈ Text.blankBytes

/-- Whether some tokens are the walk through a text and the bodies of its comments and doc
strings. -/
structure WalksThrough (s : Text) (ts : List Token) : Prop where
  /-- The walk on a stack ends and yields them. -/
  yields : ∀ us, DeepWalk.Yields [⟨0, s⟩] us ↔ us = ts
  /-- They are the walk by recursion. -/
  preorder : ∀ us, DeepWalk.Preorder (tokenize s) us ↔ us = ts
  increasing : ts.Pairwise fun t u => t.offset < u.offset
  slices : ∀ t ∈ ts, s.slice? t.offset t.stop = some t.text
  apart : ts.Pairwise fun t u => t.kind = .string → u.kind = .string → t.stop ≤ u.offset

/-- The tokens of a text lose nothing of it, and the deep walk is the one by recursion on the
bodies, whose strings stand apart. -/
theorem tokens_lossless (s : Text) : AccountsFor s (tokenize s) ∧ WalksThrough s (deepTokens s) := by
  have hpairs := Cursor.pairwise_nestedTokens ⟨0, s⟩
  rw [← deepTokens_eq] at hpairs
  have hdeep := tokenize_subset_deepTokens s
  constructor
  · refine ⟨fun t ht => (slice?_of_mem_deepTokens (hdeep t ht)).1, pairwise_tokenize s,
      fun t ht => (slice?_of_mem_deepTokens (hdeep t ht)).2, ?_⟩
    intro i b hb hout
    rcases Cursor.blank_or_covered ⟨0, s⟩ hb with hblank | ⟨t, ht, hle, hlt⟩
    · exact hblank
    · dsimp only at hle hlt
      exact absurd ⟨by omega, by omega⟩ (hout t ht)
  · exact ⟨DeepWalk.yields_iff _, DeepWalk.preorder_iff s, hpairs.imp And.left,
      fun t ht => (slice?_of_mem_deepTokens ht).2, hpairs.imp fun h hkind _ => h.2 hkind⟩

end ImageScript
