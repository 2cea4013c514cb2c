import ImageScript.Proofs.Script.Continuation
import ImageScript.Script.DeepWalk

/-!
# Where the strings of a text stand

The deep walk is a walk by recursion on the bodies of comments and doc strings. The strings that it
meets stand in the text one behind another, none within another one, so that their contents can be
exchanged all at once.

Main statements: `DeepWalk.run_cons`, `standing_deepTokens`.
-/

namespace ImageScript

namespace DeepWalk

theorem run_of_none {p : Cursor} (h : p.next? = none) (stack : List Cursor) :
    run (p :: stack) = run stack := by
  rw [run]
  split
  · rfl
  · next h' => simp [h] at h'

theorem run_of_some {p q : Cursor} {t : Token} (h : p.next? = some (t, q)) (stack : List Cursor) :
    run (p :: stack) = t :: run (push t q stack) := by
  rw [run]
  split
  · next h' => simp [h] at h'
  · next h' =>
    rw [h, Option.some.injEq, Prod.mk.injEq] at h'
    obtain ⟨rfl, rfl⟩ := h'
    rfl

/-- A text on the stack is walked with its bodies before the texts below it. -/
theorem run_cons (p : Cursor) (stack : List Cursor) :
    run (p :: stack) = p.nestedTokens ++ run stack := by
  fun_induction Cursor.nestedTokens p generalizing stack with
  | case1 p hnext => exact run_of_none hnext stack
  | case2 p t q hnext hbody ih =>
    rw [run_of_some hnext, push, hbody, ih, List.cons_append]
  | case3 p t q hnext body hbody ihbody ih =>
    rw [run_of_some hnext, push, hbody]
    dsimp only
    rw [ihbody, ih, List.cons_append, List.append_assoc]

end DeepWalk

namespace Cursor

theorem nestedTokens_of_none {p : Cursor} (h : p.next? = none) : p.nestedTokens = [] := by
  rw [nestedTokens]
  split
  · rfl
  · next h' => simp [h] at h'

/-- The tokens in the body of a token. -/
def bodyTokens (t : Token) : List Token := (t.body?.map nestedTokens).getD []

theorem nestedTokens_of_some {p q : Cursor} {t : Token} (h : p.next? = some (t, q)) :
    p.nestedTokens = t :: (bodyTokens t ++ q.nestedTokens) := by
  rw [nestedTokens]
  split
  · next h' => simp [h] at h'
  · next h' =>
    rw [h, Option.some.injEq, Prod.mk.injEq] at h'
    obtain ⟨rfl, rfl⟩ := h'
    split
    · next hbody => rw [bodyTokens, hbody]; rfl
    · next hbody => rw [bodyTokens, hbody]; rfl

theorem body?_shift (t : Token) (k : Nat) :
    (t.shift k).body? = t.body?.map fun b => ⟨k + b.offset, b.rest⟩ := by
  simp only [Token.body?, Token.kind_shift, Token.text_shift, Token.offset_shift]
  split
  · simp [Nat.add_assoc]
  · by_cases hlen : 6 ≤ t.text.length <;> simp [hlen, Nat.add_assoc]
  · rfl

/-- A text holds the same tokens at every depth wherever it stands. -/
theorem nestedTokens_shift (k : Nat) (p : Cursor) :
    nestedTokens ⟨k + p.offset, p.rest⟩ = p.nestedTokens.map (Token.shift k) := by
  fun_induction nestedTokens p with
  | case1 p hnext =>
    have h : next? ⟨k + p.offset, p.rest⟩ = none := by rw [next?_shift, hnext]; rfl
    rw [nestedTokens_of_none h]
    rfl
  | case2 p t q hnext hbody ih =>
    have h : next? ⟨k + p.offset, p.rest⟩ = some (t.shift k, ⟨k + q.offset, q.rest⟩) := by
      rw [next?_shift, hnext]
      rfl
    rw [nestedTokens_of_some h, bodyTokens, body?_shift, hbody, ih]
    rfl
  | case3 p t q hnext body hbody ihbody ih =>
    have h : next? ⟨k + p.offset, p.rest⟩ = some (t.shift k, ⟨k + q.offset, q.rest⟩) := by
      rw [next?_shift, hnext]
      rfl
    rw [nestedTokens_of_some h, bodyTokens, body?_shift, hbody, ih, List.map_cons, List.map_append,
      ← ihbody]
    rfl

end Cursor

theorem deepTokens_eq (s : Text) : deepTokens s = Cursor.nestedTokens ⟨0, s⟩ := by
  have hempty : DeepWalk.run [] = [] := by rw [DeepWalk.run]
  rw [deepTokens, DeepWalk.run_cons, hempty, List.append_nil]

/-! ### Tokens and what they hold -/

/-- Whether every quote and every line break in a text stands behind a backslash. -/
def Text.IsEscaped (quote : Char) (s : Text) : Prop :=
  ∀ a c d, s = a ++ c :: d → c = quote ∨ c = '\n' → a.getLast? = some '\\'

namespace Lexeme

/-- What a closed string holds is escaped. -/
theorem isEscaped_of_readLine {quote : Char} (hquote : quote ≠ '\\') {s : Text}
    (h : (readLine quote s).termination = .closed) :
    ∃ body, (readLine quote s).text = body ++ [quote] ∧ Text.IsEscaped quote body := by
  fun_induction readLine quote s with
  | case1 => cases h
  | case2 c r ih =>
    obtain ⟨body, htext, hescaped⟩ := ih h
    refine ⟨'\\' :: c :: body, congrArg (fun s => '\\' :: c :: s) htext, ?_⟩
    intro a d e heq hbad
    rcases a with _ | ⟨x, _ | ⟨y, a⟩⟩
    · obtain ⟨rfl, -⟩ := List.cons.inj heq
      rcases hbad with hbad | hbad
      · exact absurd hbad.symm hquote
      · exact absurd hbad (by decide)
    · obtain ⟨rfl, -⟩ := List.cons.inj heq
      rfl
    · obtain ⟨-, heq⟩ := List.cons.inj heq
      obtain ⟨-, heq⟩ := List.cons.inj heq
      have hlast := hescaped a d e heq hbad
      rw [List.getLast?_cons, List.getLast?_cons, hlast]
      rfl
  | case3 c r => cases h
  | case4 => exact ⟨[], rfl, fun a d e heq => by simp at heq⟩
  | case5 c r _ hline hclose ih =>
    obtain ⟨body, htext, hescaped⟩ := ih h
    refine ⟨c :: body, congrArg (c :: ·) htext, ?_⟩
    intro a d e heq hbad
    cases a with
    | nil =>
      obtain ⟨rfl, -⟩ := List.cons.inj heq
      rcases hbad with hbad | hbad
      · exact absurd hbad hclose
      · exact absurd hbad hline
    | cons x a =>
      obtain ⟨-, heq⟩ := List.cons.inj heq
      have hlast := hescaped a d e heq hbad
      rw [List.getLast?_cons, hlast]
      rfl

/-- How a lexeme of each kind is marked: a comment by its sign, a doc string by three quotes, and a
closed string by a quote at either end. -/
inductive Shape (c : Char) : LexemeKind → Text → Prop where
  | comment (sign : c = '#') (m : Text) : Shape c .comment (c :: m)
  | docString (quote : isQuote c = true) (e : Termination) (m : Text) :
      Shape c (.docString e) (c :: c :: c :: m)
  | closed (quote : isQuote c = true) (content : Text) :
      Shape c (.str .closed) (c :: (content ++ [c]))
  | unclosed (text : Text) : Shape c (.str .unclosed) text
  | plain {k : LexemeKind} (kind : k = .ident ∨ k = .number ∨ k = .punct) (text : Text) :
      Shape c k text

theorem shape_read (c : Char) (r : Text) : Shape c (read c r).kind (read c r).text := by
  unfold read
  split
  · next hsign => exact .comment hsign _
  split
  · next hquote =>
    split
    · exact .docString hquote _ _
    · dsimp only
      cases hend : (readLine c r).termination with
      | closed =>
        have hbackslash : c ≠ '\\' := ne_of_isQuote hquote rfl
        obtain ⟨content, hcontent, -⟩ := isEscaped_of_readLine hbackslash hend
        rw [hcontent]
        exact .closed hquote content
      | unclosed => exact .unclosed _
  split
  · exact .plain (Or.inl rfl) _
  split
  · exact .plain (Or.inr (Or.inl (readNumber_kind r))) _
  split
  · exact .plain (Or.inr (Or.inl rfl)) _
  · exact .plain (Or.inr (Or.inr rfl)) _

theorem utf8Size_of_isQuote {c : Char} (h : isQuote c = true) : c.utf8Size = 1 := by
  simp only [isQuote, Bool.or_eq_true, decide_eq_true_eq] at h
  rcases h with rfl | rfl <;> rfl

end Lexeme

namespace Cursor

variable {p q body : Cursor} {t : Token} {content : Text}

/-- A token is a lexeme behind blanks, and the next place is behind it. -/
theorem shape_next? (h : p.next? = some (t, q)) : ∃ blanks c k,
    p.rest = blanks ++ t.text ++ q.rest ∧ t.offset = p.offset + Text.byteLen blanks
      ∧ q.offset = t.stop ∧ t.kind = .ofLexeme k ∧ Lexeme.Shape c k t.text := by
  obtain ⟨blanks, c, m, k, hrest, hread, rfl, hstop, -⟩ := exists_of_next? h
  have hshape := Lexeme.shape_read c (m ++ q.rest)
  rw [hread] at hshape
  exact ⟨blanks, c, k, by rw [hrest]; simp, rfl, hstop, rfl, hshape⟩

end Cursor

namespace Token

variable {t : Token} {c : Char} {k : LexemeKind}

/-- A string with a content is that between two quotes. -/
theorem text_of_content? {content : Text} (hkind : t.kind = .ofLexeme k)
    (hshape : Lexeme.Shape c k t.text) (hc : t.content? = some content) :
    ∃ quote : Char, t.text = quote :: (content ++ [quote]) ∧ quote.utf8Size = 1 := by
  unfold content? at hc
  split at hc
  · next hstring =>
    have hstring' := hkind.symm.trans hstring.1
    have hbody := Option.some.inj hc
    generalize htext : t.text = text at hshape hbody
    cases hshape with
    | comment => cases hstring'
    | docString _ e => cases e <;> cases hstring'
    | closed hquote inner =>
      simp only [List.drop_succ_cons, List.drop_zero, List.dropLast_concat] at hbody
      exact ⟨c, by rw [hbody], Lexeme.utf8Size_of_isQuote hquote⟩
    | unclosed => cases hstring'
    | plain hplain => rcases hplain with rfl | rfl | rfl <;> cases hstring'
  · simp at hc

/-- A comment or a doc string is its body between its marks, and it is no string. -/
theorem text_of_body? {body : Cursor} (hkind : t.kind = .ofLexeme k)
    (hshape : Lexeme.Shape c k t.text) (hb : t.body? = some body) :
    ∃ mark tail, t.text = mark ++ body.rest ++ tail
      ∧ body.offset = t.offset + Text.byteLen mark ∧ t.content? = none := by
  have hnone : t.kind ≠ .string → t.content? = none := by
    intro h
    simp [content?, h]
  generalize htext : t.text = text at hshape
  cases hshape with
  | comment sign m =>
    have hcomment : t.kind = .comment := hkind
    simp only [body?, hcomment, htext, List.drop_succ_cons, List.drop_zero,
      Option.some.injEq] at hb
    subst hb
    refine ⟨[c], [], by simp, ?_, hnone (by simp [hcomment])⟩
    rw [sign]
    rfl
  | docString quote e m =>
    cases e with
    | closed =>
      have hdoc : t.kind = .docString := hkind
      simp only [body?, hdoc, htext, List.drop_succ_cons, List.drop_zero] at hb
      split at hb
      · obtain rfl := Option.some.inj hb
        have hprefix : m.dropLast.dropLast.dropLast <+: m :=
          (List.dropLast_prefix _).trans ((List.dropLast_prefix _).trans (List.dropLast_prefix _))
        obtain ⟨tail, htail⟩ := hprefix
        have hsize := Lexeme.utf8Size_of_isQuote quote
        refine ⟨[c, c, c], tail, ?_, ?_, hnone (by simp [hdoc])⟩
        · rw [List.append_assoc, htail]
          rfl
        · simp [hsize]
      · simp at hb
    | unclosed =>
      have hdoc : t.kind = .unterminated := hkind
      simp [body?, hdoc] at hb
  | closed =>
    have hstring : t.kind = .string := hkind
    simp [body?, hstring] at hb
  | unclosed =>
    have hopen : t.kind = .unterminated := hkind
    simp [body?, hopen] at hb
  | plain hplain =>
    have hother : t.kind = .other := by rcases hplain with rfl | rfl | rfl <;> exact hkind
    simp [body?, hother] at hb

end Token

/-! ### One behind another -/

/-- Whether strings stand one behind another in a text that begins at the offset `o`. -/
inductive Standing : Nat → List Token → Text → Prop where
  | done (o : Nat) (s : Text) : Standing o [] s
  | next {o : Nat} {gap content rest : Text} {t : Token} {ts : List Token}
      (content_eq : t.content? = some content) (start_eq : t.offset + 1 = o + Text.byteLen gap)
      (stop_eq : t.stop - 1 = o + Text.byteLen gap + Text.byteLen content)
      (later : Standing (o + Text.byteLen gap + Text.byteLen content) ts rest) :
      Standing o (t :: ts) (gap ++ content ++ rest)

namespace Standing

variable {o : Nat} {a b s : Text} {ts us : List Token}

/-- More text in front belongs to the first gap. -/
theorem behind (h : Standing (o + Text.byteLen a) ts s) : Standing o ts (a ++ s) := by
  generalize ho : o + Text.byteLen a = o' at h
  cases h with
  | done => exact .done o _
  | next content_eq start_eq stop_eq later =>
    rename_i gap content rest t ts
    subst ho
    have heq : a ++ (gap ++ content ++ rest) = (a ++ gap) ++ content ++ rest := by simp
    have hoffset : o + Text.byteLen (a ++ gap) = o + Text.byteLen a + Text.byteLen gap := by
      rw [Text.byteLen_append, Nat.add_assoc]
    rw [heq]
    refine .next content_eq ?_ ?_ ?_
    · rw [hoffset]
      exact start_eq
    · rw [hoffset]
      exact stop_eq
    · rw [hoffset]
      exact later

theorem append (h : Standing o ts a) (h' : Standing (o + Text.byteLen a) us b) :
    Standing o (ts ++ us) (a ++ b) := by
  induction h with
  | done o s => exact h'.behind
  | next content_eq start_eq stop_eq later ih =>
    rename_i o gap content rest t ts
    rw [Text.byteLen_append, Text.byteLen_append, ← Nat.add_assoc, ← Nat.add_assoc] at h'
    rw [List.cons_append, List.append_assoc]
    exact .next content_eq start_eq stop_eq (ih h')

theorem filter (h : Standing o ts s) (p : Token → Bool) : Standing o (ts.filter p) s := by
  induction h with
  | done o s => exact .done o s
  | next content_eq start_eq stop_eq later ih =>
    rename_i o gap content rest t ts
    by_cases ht : p t = true
    · rw [List.filter_cons_of_pos ht]
      exact .next content_eq start_eq stop_eq ih
    · rw [List.filter_cons_of_neg ht]
      refine behind ?_
      rwa [Text.byteLen_append, ← Nat.add_assoc]

end Standing

/-- The strings from a place on, those in comments and doc strings among them. -/
theorem standing_nestedTokens (p : Cursor) :
    Standing p.offset (p.nestedTokens.filter (·.content?.isSome)) p.rest := by
  fun_induction Cursor.nestedTokens p with
  | case1 p => exact .done _ _
  | case2 p t q hnext hbody ih =>
    obtain ⟨blanks, c, k, hrest, hoffset, hstop, hkind, hshape⟩ := Cursor.shape_next? hnext
    rw [hrest]
    cases hc : t.content? with
    | none =>
      rw [List.filter_cons_of_neg (by simp [hc])]
      refine Standing.behind ?_
      rw [Text.byteLen_append, ← Nat.add_assoc, ← hoffset]
      rw [hstop, Token.stop] at ih
      exact ih
    | some content =>
      obtain ⟨quote, htext, hsize⟩ := Token.text_of_content? hkind hshape hc
      rw [List.filter_cons_of_pos (by simp [hc])]
      have heq : blanks ++ t.text ++ q.rest
          = (blanks ++ [quote]) ++ content ++ ([quote] ++ q.rest) := by
        simp [htext]
      have hlen : Text.byteLen t.text = Text.byteLen content + 2 := by
        rw [htext]
        simp [hsize]
        omega
      rw [heq]
      refine .next hc ?_ ?_ (Standing.behind ?_)
      · simp [hoffset, hsize, Nat.add_assoc]
      · rw [Token.stop, hlen]
        simp [hoffset, hsize]
        omega
      · have hq : q.offset = p.offset + Text.byteLen (blanks ++ [quote]) + Text.byteLen content
            + Text.byteLen [quote] := by
          rw [hstop, Token.stop, hlen]
          simp [hoffset, hsize]
          omega
        rw [← hq]
        exact ih
  | case3 p t q hnext body hbody ihbody ih =>
    obtain ⟨blanks, c, k, hrest, hoffset, hstop, hkind, hshape⟩ := Cursor.shape_next? hnext
    obtain ⟨mark, tail, htext, hbodyoffset, hc⟩ := Token.text_of_body? hkind hshape hbody
    rw [List.filter_cons_of_neg (by simp [hc]), List.filter_append]
    have heq : p.rest = (blanks ++ mark) ++ (body.rest ++ (tail ++ q.rest)) := by
      simp [hrest, htext]
    rw [heq]
    refine Standing.behind ?_
    have hstart : p.offset + Text.byteLen (blanks ++ mark) = body.offset := by
      rw [hbodyoffset, hoffset, Text.byteLen_append, Nat.add_assoc]
    rw [hstart]
    refine ihbody.append (Standing.behind ?_)
    have hq : body.offset + Text.byteLen body.rest + Text.byteLen tail = q.offset := by
      rw [hstop, Token.stop, htext, hbodyoffset]
      simp only [Text.byteLen_append]
      omega
    rw [hq]
    exact ih

/-- The strings of a text at any depth stand in it one behind another. -/
theorem standing_deepTokens (s : Text) :
    Standing 0 ((deepTokens s).filter (·.content?.isSome)) s := by
  rw [deepTokens_eq]
  exact standing_nestedTokens ⟨0, s⟩

end ImageScript
