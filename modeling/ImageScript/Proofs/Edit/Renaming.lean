import ImageScript.Proofs.Edit.Pasting
import ImageScript.Proofs.Script.Exchanging

/-!
# What renaming does to a text

Exchanging the contents of strings for plain names leaves a text with the same tokens, one for one.
A text is renamed token by token: what stands before a token stays, the body of a comment or a doc
string is renamed as a text of its own, and what stands behind the token is renamed by itself. Read
again, each token ends where it ended.

Main statements: `renameLiterals_next`, `exchanged_renameLiterals`, `next?_renameLiterals`,
`renameLiterals_renamesOnly`.
-/

namespace ImageScript

open Text (Paired IsPlain)

namespace Clipboard

variable {renamed : Std.TreeMap Text Text}

/-! ### Renaming token by token -/

namespace Rewritten

variable {o k : Nat} {a a' b b' s s' s'' : Text} {ts us : List Token}

/-- More text in front stays as it is. -/
theorem behind (h : Rewritten renamed (o + Text.byteLen a) ts s s') :
    Rewritten renamed o ts (a ++ s) (a ++ s') := by
  generalize ho : o + Text.byteLen a = o' at h
  cases h with
  | done => exact .done o _
  | next content_eq name_eq start_eq later =>
    rename_i gap content name rest rest' t ts
    subst ho
    have hs : ∀ x r : Text, a ++ (gap ++ x ++ r) = (a ++ gap) ++ x ++ r := by simp
    have hoffset : o + Text.byteLen (a ++ gap) = o + Text.byteLen a + Text.byteLen gap := by
      rw [Text.byteLen_append, Nat.add_assoc]
    rw [hs, hs]
    refine .next content_eq name_eq ?_ ?_
    · rw [hoffset]
      exact start_eq
    · rw [hoffset]
      exact later

theorem append (h : Rewritten renamed o ts a a')
    (h' : Rewritten renamed (o + Text.byteLen a) us b b') :
    Rewritten renamed o (ts ++ us) (a ++ b) (a' ++ b') := by
  induction h with
  | done o s => exact h'.behind
  | next content_eq name_eq start_eq later ih =>
    rename_i o gap content name rest rest' t ts
    rw [Text.byteLen_append, Text.byteLen_append, ← Nat.add_assoc, ← Nat.add_assoc] at h'
    rw [List.cons_append, List.append_assoc, List.append_assoc (gap ++ name)]
    exact .next content_eq name_eq start_eq (ih h')

/-- The strings that are renamed determine what a text becomes. -/
theorem unique (h : Rewritten renamed o ts s s') (h' : Rewritten renamed o ts s s'') :
    s' = s'' := by
  induction h generalizing s'' with
  | done => cases h'; rfl
  | next content_eq name_eq start_eq later ih =>
    rename_i o gap content name rest rest' t ts
    generalize hs : gap ++ content ++ rest = s at h'
    cases h' with
    | next content_eq' name_eq' start_eq' later' =>
      rename_i gap₁ content₁ name₁ rest₁ rest₁'
      obtain rfl : content = content₁ := Option.some.inj (content_eq.symm.trans content_eq')
      obtain rfl : name = name₁ := Option.some.inj (name_eq.symm.trans name_eq')
      obtain ⟨rfl, hrest⟩ : gap = gap₁ ∧ content ++ rest = content ++ rest₁ := by
        rw [List.append_assoc, List.append_assoc] at hs
        have hcut := Text.splitAt?_append gap₁ (content ++ rest₁)
        have hlen : Text.byteLen gap = Text.byteLen gap₁ := by omega
        rw [← hs, ← hlen, Text.splitAt?_append, Option.some.injEq, Prod.mk.injEq] at hcut
        exact hcut
      obtain rfl := List.append_cancel_left hrest
      rw [ih later']

theorem shift (h : Rewritten renamed o ts s s') (k : Nat) :
    Rewritten renamed (k + o) (ts.map (Token.shift k)) s s' := by
  induction h with
  | done => exact .done _ _
  | next content_eq name_eq start_eq later ih =>
    refine .next (by rwa [Token.content?_shift]) name_eq ?_ ?_
    · rw [Token.offset_shift]
      omega
    · simpa only [Nat.add_assoc] using ih

end Rewritten

/-- A text is renamed alike wherever it stands. -/
theorem rewritten_nestedTokens (renamed : Std.TreeMap Text Text) (p : Cursor) :
    Rewritten renamed p.offset (p.nestedTokens.filter (isRenamed renamed)) p.rest
      (renameLiterals p.rest renamed) := by
  have h := (rewritten_renameLiterals p.rest renamed).shift p.offset
  have hfilter : ((deepTokens p.rest).filter (isRenamed renamed)).map (Token.shift p.offset)
      = p.nestedTokens.filter (isRenamed renamed) := by
    rw [show p.nestedTokens = (Cursor.nestedTokens ⟨0, p.rest⟩).map (Token.shift p.offset) from
      Cursor.nestedTokens_shift p.offset ⟨0, p.rest⟩, List.filter_map, deepTokens_eq]
    rfl
  rwa [hfilter, Nat.add_zero] at h

/-- What a token becomes, wherever it stands then: a comment or a doc string with its body renamed, a
string of the new name, or the same token. -/
inductive Renames (renamed : Std.TreeMap Text Text) : Token → Token → Prop where
  | comment (body : Text) (o o' : Nat) :
      Renames renamed ⟨.comment, '#' :: body, o⟩ ⟨.comment, '#' :: renameLiterals body renamed, o'⟩
  | docString {quote : Char} (hquote : Lexeme.isQuote quote = true) (body : Text) (o o' : Nat) :
      Renames renamed ⟨.docString, quote :: quote :: quote :: (body ++ [quote, quote, quote]), o⟩
        ⟨.docString, quote :: quote :: quote ::
          (renameLiterals body renamed ++ [quote, quote, quote]), o'⟩
  | string {quote : Char} (hquote : Lexeme.isQuote quote = true) {content name : Text}
      (name_eq : renamed[content]? = some name) (o o' : Nat) :
      Renames renamed ⟨.string, quote :: (content ++ [quote]), o⟩
        ⟨.string, quote :: (name ++ [quote]), o'⟩
  | kept {t : Token} (hcomment : t.kind ≠ .comment) (hdoc : t.kind ≠ .docString)
      (hname : ∀ content, t.content? = some content → renamed[content]? = none) (o' : Nat) :
      Renames renamed t { t with offset := o' }

/-- What renaming makes of the text of a token. -/
theorem exists_renames (renamed : Std.TreeMap Text Text) {p q : Cursor} {t : Token}
    (h : p.next? = some (t, q)) : ∃ text',
    Rewritten renamed t.offset ((t :: Cursor.bodyTokens t).filter (isRenamed renamed)) t.text text'
      ∧ ∀ o, Renames renamed t ⟨t.kind, text', o⟩ := by
  rcases Cursor.holds_of_next? h with ⟨hcomment, hdoc⟩ | ⟨body, hholds⟩
  · rw [Cursor.bodyTokens, Token.body?_eq_none hcomment hdoc]
    cases hrenamed : isRenamed renamed t with
    | false =>
      refine ⟨t.text, ?_, .kept hcomment hdoc (isRenamed_eq_false.1 hrenamed)⟩
      simp only [Option.map_none, Option.getD_none, List.filter_cons, hrenamed]
      exact .done _ _
    | true =>
      unfold isRenamed at hrenamed
      obtain ⟨name, hfound⟩ := Option.isSome_iff_exists.1 hrenamed
      obtain ⟨content, hc, hname⟩ := Option.bind_eq_some_iff.1 hfound
      obtain ⟨hkind, quote, hquote, htext, -⟩ := Cursor.string_of_next? h hc
      obtain ⟨kind, text, offset⟩ := t
      obtain rfl : kind = .string := hkind
      obtain rfl : text = quote :: (content ++ [quote]) := htext
      refine ⟨quote :: (name ++ [quote]), ?_, fun o => .string hquote hname offset o⟩
      have hstring : isRenamed renamed ⟨.string, quote :: (content ++ [quote]), offset⟩ = true := by
        rw [isRenamed, hc, Option.bind_some, hname, Option.isSome_some]
      simp only [Option.map_none, Option.getD_none, List.filter_cons, hstring]
      change Rewritten renamed offset _ ([quote] ++ content ++ [quote]) ([quote] ++ name ++ [quote])
      refine .next hc hname ?_ (.done _ _)
      simp [Lexeme.utf8Size_of_isQuote hquote]
  · have hinner := rewritten_nestedTokens renamed body
    have hrenamed : isRenamed renamed t = false := by
      cases hholds <;> rfl
    rw [Cursor.bodyTokens, hholds.body?_eq]
    simp only [Option.map_some, Option.getD_some, List.filter_cons, hrenamed]
    cases hholds with
    | comment body offset =>
      exact ⟨_, hinner.behind (a := ['#']), fun o => .comment body offset o⟩
    | docString hquote body offset =>
      rename_i quote
      have hsize := Lexeme.utf8Size_of_isQuote hquote
      refine ⟨_, ?_, fun o => .docString hquote body offset o⟩
      have hclosed := hinner.append (.done _ [quote, quote, quote])
      rw [List.append_nil] at hclosed
      refine Rewritten.behind (a := [quote, quote, quote]) ?_
      simpa [hsize] using hclosed

/-- A text is renamed token by token. -/
theorem renameLiterals_next (renamed : Std.TreeMap Text Text) {p q : Cursor} {t : Token}
    (h : p.next? = some (t, q)) : ∃ blanks text', p.rest = blanks ++ t.text ++ q.rest
      ∧ t.offset = p.offset + Text.byteLen blanks ∧ (∀ c ∈ blanks, Lexeme.isBlank c = true)
      ∧ renameLiterals p.rest renamed = blanks ++ text' ++ renameLiterals q.rest renamed
      ∧ ∀ o, Renames renamed t ⟨t.kind, text', o⟩ := by
  obtain ⟨blanks, hrest, hoffset, hstop, hblank⟩ := Cursor.exists_blanks_of_next? h
  obtain ⟨text', hwritten, hrenames⟩ := exists_renames renamed h
  refine ⟨blanks, text', hrest, hoffset, hblank, ?_, hrenames⟩
  have hlater := rewritten_nestedTokens renamed q
  rw [hstop, Token.stop] at hlater
  have hboth := hwritten.append hlater
  rw [hoffset] at hboth
  have hpieces := hboth.behind
  rw [← List.filter_append, List.cons_append, ← Cursor.nestedTokens_of_some h, ← List.append_assoc,
    ← hrest, ← List.append_assoc] at hpieces
  exact (rewritten_nestedTokens renamed p).unique hpieces

/-! ### Reading a renamed text -/

/-- Whether all new names can stand in any string. -/
def ArePlain (renamed : Std.TreeMap Text Text) : Prop :=
  ∀ (content name : Text), renamed[content]? = some name → name.IsPlain

theorem renameLiterals_of_none {p : Cursor} (h : p.next? = none) :
    renameLiterals p.rest renamed = p.rest := by
  have hwritten := rewritten_nestedTokens renamed p
  rw [Cursor.nestedTokens_of_none h] at hwritten
  exact hwritten.unique (.done _ _)

theorem content?_string (quote : Char) (content : Text) (o : Nat) :
    Token.content? ⟨.string, quote :: (content ++ [quote]), o⟩ = some content := by
  simp [Token.content?]

/-- Of a token contents of strings are exchanged, where this is so of its body. -/
theorem Renames.exchanged {t t' : Token} (hplain : ArePlain renamed) {p q : Cursor}
    (hnext : p.next? = some (t, q)) (h : Renames renamed t t')
    (hbody : ∀ body, t.body? = some body →
      Exchanged body.rest (renameLiterals body.rest renamed)) : Exchanged t.text t'.text := by
  cases h with
  | comment body o => exact (hbody ⟨o + 1, body⟩ rfl).behind ['#']
  | docString hquote body o =>
    rename_i quote o'
    have hinner := hbody ⟨o + 3, body⟩ (Token.Holds.docString hquote body o).body?_eq
    exact (hinner.append (.done [quote, quote, quote])).behind [quote, quote, quote]
  | string hquote name_eq o =>
    rename_i quote content name o'
    obtain ⟨-, -, -, -, hpaired⟩ :=
      Cursor.string_of_next? hnext (content?_string quote content o)
    exact .next [] hquote hpaired (hplain content name name_eq) (.done [quote])
  | kept => exact .done _

/-- What renaming exchanges are the contents of strings. -/
theorem exchanged_renameLiterals (hplain : ArePlain renamed) (p : Cursor) :
    Exchanged p.rest (renameLiterals p.rest renamed) := by
  fun_induction Cursor.nestedTokens p with
  | case1 p hnext =>
    rw [renameLiterals_of_none hnext]
    exact .done _
  | case2 p t q hnext hbody ih =>
    obtain ⟨blanks, text', hrest, -, -, hrenamed, hrenames⟩ := renameLiterals_next renamed hnext
    have htoken := (hrenames 0).exchanged hplain hnext (by simp [hbody])
    rw [hrenamed, hrest]
    exact (htoken.behind blanks).append ih
  | case3 p t q hnext body hbody ihbody ih =>
    obtain ⟨blanks, text', hrest, -, -, hrenamed, hrenames⟩ := renameLiterals_next renamed hnext
    have htoken := (hrenames 0).exchanged hplain hnext (by simpa [hbody] using ihbody)
    rw [hrenamed, hrest]
    exact (htoken.behind blanks).append ih

/-- A renamed token is read where the token was read, when what stands behind is renamed too. -/
theorem Renames.read_eq {t t' : Token} (hplain : ArePlain renamed) {p q : Cursor}
    (hnext : p.next? = some (t, q)) (h : Renames renamed t t') :
    ∃ c m m' k, t.text = c :: m ∧ t'.text = c :: m' ∧ t'.kind = .ofLexeme k
      ∧ Lexeme.read c (m' ++ renameLiterals q.rest renamed)
        = ⟨k, c :: m', renameLiterals q.rest renamed⟩ := by
  obtain ⟨blanks, c, m, k, -, hread, ht, -, -⟩ := Cursor.exists_of_next? hnext
  have hhead := (exchanged_renameLiterals hplain q).head?_eq
  generalize renameLiterals q.rest renamed = y' at hhead ⊢
  cases h with
  | comment body o =>
    simp only [Token.mk.injEq, List.cons.injEq] at ht
    obtain ⟨-, ⟨rfl, rfl⟩, -⟩ := ht
    refine ⟨'#', body, renameLiterals body renamed, .comment, rfl, rfl, rfl, ?_⟩
    obtain ⟨hline, hstop⟩ := Lexeme.comment_of_read hread
    rw [← hhead] at hstop
    exact Lexeme.read_comment ((exchanged_renameLiterals hplain ⟨0, body⟩).not_mem hline) hstop
  | docString hquote body o =>
    rename_i quote o'
    simp only [Token.mk.injEq, List.cons.injEq] at ht
    obtain ⟨hkind, ⟨rfl, rfl⟩, -⟩ := ht
    refine ⟨quote, _, _, .docString .closed, rfl, rfl, rfl, ?_⟩
    have hclosed : Lexeme.readBlock quote (body ++ ([quote, quote, quote] ++ q.rest))
        = ⟨.closed, body ++ [quote, quote, quote], q.rest⟩ := by
      rw [← List.append_assoc]
      exact Lexeme.readBlock_of_read hquote hkind hread
    have hinner := (exchanged_renameLiterals hplain ⟨0, body⟩).readBlock_eq hquote hclosed (by simp)
    rw [← List.append_assoc] at hinner
    have hcarry := Lexeme.readBlock_carry (Lexeme.ne_of_isQuote hquote rfl) hinner y'
    rw [List.cons_append, List.cons_append, Lexeme.read_quotes hquote, hcarry]
  | string hquote name_eq o =>
    rename_i quote content name o'
    simp only [Token.mk.injEq, List.cons.injEq] at ht
    obtain ⟨hkind, ⟨rfl, rfl⟩, -⟩ := ht
    refine ⟨quote, _, _, .str .closed, rfl, rfl, rfl, ?_⟩
    rw [List.append_assoc]
    exact Lexeme.read_plain hquote (hplain content name name_eq) y'
  | kept hcomment hdoc hname o =>
    subst ht
    refine ⟨c, m, m, k, rfl, rfl, rfl, ?_⟩
    have hcarry : Lexeme.read c (m ++ y') = ⟨(Lexeme.read c (m ++ q.rest)).kind, c :: m, y'⟩ :=
      Lexeme.read_carry (by rw [hread]) (Or.inl hhead)
    rwa [hread] at hcarry

/-- The first token of a renamed text is the renamed first token, behind the same blanks. -/
theorem next?_renameLiterals (hplain : ArePlain renamed) {p q : Cursor} {t : Token}
    (hnext : p.next? = some (t, q)) : ∃ blanks text', p.rest = blanks ++ t.text ++ q.rest
      ∧ t.offset = p.offset + Text.byteLen blanks
      ∧ renameLiterals p.rest renamed = blanks ++ text' ++ renameLiterals q.rest renamed
      ∧ ∀ o, let t' : Token := ⟨t.kind, text', o + Text.byteLen blanks⟩
        Renames renamed t t' ∧ Cursor.next? ⟨o, renameLiterals p.rest renamed⟩
          = some (t', ⟨t'.stop, renameLiterals q.rest renamed⟩) := by
  obtain ⟨blanks, text', hrest, hoffset, hblank, hrenamed, hrenames⟩ :=
    renameLiterals_next renamed hnext
  refine ⟨blanks, text', hrest, hoffset, hrenamed, fun o => ⟨hrenames _, ?_⟩⟩
  obtain ⟨c, m, m', k, htext, htext', hkind, hread⟩ := (hrenames 0).read_eq hplain hnext
  dsimp only at htext' hkind
  have hc : Lexeme.isBlank c = false := Cursor.not_blank_of_next? hnext c (by rw [htext]; rfl)
  rw [hrenamed, htext', List.append_assoc, List.cons_append, Cursor.next?_of_blanks hblank hc, hread,
    hkind]

theorem Renames.body?_eq {t t' : Token} (h : Renames renamed t t') :
    t'.body?.map (·.rest) = t.body?.map fun body => renameLiterals body.rest renamed := by
  cases h with
  | comment body o o' => rfl
  | docString hquote body o o' =>
    rw [(Token.Holds.docString hquote body o).body?_eq,
      (Token.Holds.docString hquote (renameLiterals body renamed) o').body?_eq]
    rfl
  | string => rfl
  | kept hcomment hdoc hname o =>
    have hnone : Token.body? { t with offset := o } = none := Token.body?_eq_none hcomment hdoc
    rw [hnone, Token.body?_eq_none hcomment hdoc]
    rfl

/-- The tokens of a renamed text are those of the text, each renamed. -/
theorem renames_nestedTokens (hplain : ArePlain renamed) (p : Cursor) (o : Nat) :
    List.Forall₂ (Renames renamed) p.nestedTokens
      (Cursor.nestedTokens ⟨o, renameLiterals p.rest renamed⟩) := by
  fun_induction Cursor.nestedTokens p generalizing o with
  | case1 p hnext =>
    have hblank := Cursor.blank_of_next?_none hnext
    rw [renameLiterals_of_none hnext, Cursor.nestedTokens_of_none (Cursor.next?_of_blank hblank o)]
    exact .nil
  | case2 p t q hnext hbody ih =>
    obtain ⟨blanks, text', -, -, -, hread⟩ := next?_renameLiterals hplain hnext
    obtain ⟨hrenames, hnext'⟩ := hread o
    have hbody' : Token.body? ⟨t.kind, text', o + Text.byteLen blanks⟩ = none := by
      simpa [hbody] using hrenames.body?_eq
    rw [Cursor.nestedTokens_of_some hnext', Cursor.bodyTokens, hbody']
    exact .cons hrenames (ih _)
  | case3 p t q hnext body hbody ihbody ih =>
    obtain ⟨blanks, text', -, -, -, hread⟩ := next?_renameLiterals hplain hnext
    obtain ⟨hrenames, hnext'⟩ := hread o
    have hmap := hrenames.body?_eq
    rw [hbody, Option.map_some] at hmap
    obtain ⟨body', hbody', hrest⟩ := Option.map_eq_some_iff.1 hmap
    rw [Cursor.nestedTokens_of_some hnext', Cursor.bodyTokens, hbody']
    refine .cons hrenames (List.rel_append ?_ (ih _))
    have hinner := ihbody body'.offset
    rw [← hrest] at hinner
    exact hinner

/-! ### What stands between the tokens -/

/-- Whether a text that begins at an offset consists of tokens where they say they are, and of other
texts before, between and behind them. -/
inductive Laid : Nat → List Text → List Token → Text → Prop where
  | last (o : Nat) (gap : Text) : Laid o [gap] [] gap
  | next {o : Nat} {gap rest : Text} {gaps : List Text} {t : Token} {ts : List Token}
      (offset_eq : t.offset = o + Text.byteLen gap) (later : Laid t.stop gaps ts rest) :
      Laid o (gap :: gaps) (t :: ts) (gap ++ t.text ++ rest)

/-- Whether renaming leaves what stands before, between and behind the tokens of a text. -/
def KeepsGaps (renamed : Std.TreeMap Text Text) (p : Cursor) : Prop :=
  ∃ gaps, Laid p.offset gaps p.tokens p.rest
    ∧ ∀ o, Laid o gaps (Cursor.tokens ⟨o, renameLiterals p.rest renamed⟩)
      (renameLiterals p.rest renamed)

theorem keepsGaps (hplain : ArePlain renamed) (p : Cursor) : KeepsGaps renamed p := by
  fun_induction Cursor.tokens p with
  | case1 p hnext =>
    have hblank := Cursor.blank_of_next?_none hnext
    refine ⟨[p.rest], ?_, fun o => ?_⟩
    · rw [Cursor.tokens_of_none hnext]
      exact .last _ _
    · rw [renameLiterals_of_none hnext, Cursor.tokens_of_none (Cursor.next?_of_blank hblank o)]
      exact .last _ _
  | case2 p t q hnext ih =>
    obtain ⟨blanks, text', hrest, hoffset, hrenamed, hread⟩ := next?_renameLiterals hplain hnext
    obtain ⟨gaps, hlaid, hlaid'⟩ := ih
    rw [(Cursor.next?_offset hnext).1] at hlaid
    refine ⟨blanks :: gaps, ?_, fun o => ?_⟩
    · rw [Cursor.tokens_of_some hnext, hrest]
      exact .next hoffset hlaid
    · rw [Cursor.tokens_of_some (hread o).2, hrenamed]
      exact .next rfl (hlaid' _)

/-! ### Cutting the text -/

/-- Whether the text between one replacement and the next can be cut out, from an offset on: the
replacements stand in order and at boundaries. -/
def InOrder (s : Text) : Nat → List Replacement → Prop
  | cursor, [] => (s.slice? cursor (Text.byteLen s)).isSome = true
  | cursor, r :: rs => (s.slice? cursor r.start).isSome = true ∧ InOrder s r.stop rs

theorem inOrder_of_standing {o : Nat} {ts : List Token} {s : Text} (h : Standing o ts s)
    (hrenamed : ∀ t ∈ ts, isRenamed renamed t = true) (before : Text)
    (hbefore : Text.byteLen before = o) :
    InOrder (before ++ s) o (ts.filterMap (replacement? renamed)) := by
  induction h generalizing before with
  | done o s =>
    have hslice := Text.slice?_append before s []
    rw [List.append_nil, hbefore] at hslice
    rw [List.filterMap_nil, InOrder, hslice]
    rfl
  | next content_eq start_eq stop_eq later ih =>
    rename_i o gap content rest t ts
    obtain ⟨name, hname, hreplacement⟩ :=
      exists_replacement (hrenamed t List.mem_cons_self) content_eq
    have hslice := Text.slice?_append before gap (content ++ rest)
    rw [Text.byteLen_append, hbefore] at hslice
    have hrest := ih (fun u hu => hrenamed u (List.mem_cons_of_mem _ hu))
      (before ++ gap ++ content) (by simp only [Text.byteLen_append]; omega)
    have hwhole : before ++ (gap ++ content ++ rest) = before ++ gap ++ (content ++ rest) := by simp
    rw [List.filterMap_cons_some hreplacement, InOrder, start_eq, stop_eq]
    refine ⟨?_, ?_⟩
    · rw [hwhole, hslice]
      rfl
    · simpa only [List.append_assoc] using hrest

/-- What renaming does to a text: it cuts it in order; the tokens at every depth are those of the
text, one for one, where the strings of renamed contents have the new names, comments and doc strings
hold what renaming makes of their bodies, and all others are as they were; and what stands between the
tokens of the text, and between those of each body, stays. -/
structure RenamesOnly (renamed : Std.TreeMap Text Text) (s : Text) : Prop where
  inOrder : InOrder s 0 ((deepTokens s).filterMap (replacement? renamed))
  tokens : List.Forall₂ (Renames renamed) (deepTokens s) (deepTokens (renameLiterals s renamed))
  between : KeepsGaps renamed ⟨0, s⟩
  within : ∀ t ∈ deepTokens s, ∀ body, t.body? = some body → KeepsGaps renamed body

/-- Renaming to plain names touches the renamed strings only, whatever the contents are that are
renamed. -/
theorem renameLiterals_renamesOnly (renamed : Std.TreeMap Text Text) (hplain : ArePlain renamed)
    (s : Text) : RenamesOnly renamed s := by
  refine ⟨?_, ?_, keepsGaps hplain ⟨0, s⟩, fun _ _ body _ => keepsGaps hplain body⟩
  · rw [filterMap_replacement?]
    exact inOrder_of_standing (standing_filter_isRenamed renamed s)
      (fun t ht => (List.mem_filter.1 ht).2) [] rfl
  · rw [deepTokens_eq, deepTokens_eq]
    exact renames_nestedTokens hplain ⟨0, s⟩ 0

/-- A name in a comment of a doc string, in a string and in a comment. -/
theorem renameLiterals_renamesOnly_nested :
    let renamed := (∅ : Std.TreeMap Text Text).insert "a.png".toList "b.png".toList
    let s := "\"\"\"# 'a.png'\n\"\"\" 'a.png' # see \"a.png\"".toList
    ArePlain renamed
      ∧ renameLiterals s renamed = "\"\"\"# 'b.png'\n\"\"\" 'b.png' # see \"b.png\"".toList
      ∧ RenamesOnly renamed s := by
  intro renamed s
  have hplain : ArePlain renamed := by
    intro content name hname
    rw [Std.TreeMap.getElem?_insert] at hname
    split at hname
    · obtain rfl := Option.some.inj hname
      decide +kernel
    · simp at hname
  exact ⟨hplain, by decide +kernel, renameLiterals_renamesOnly renamed hplain s⟩

end Clipboard

end ImageScript
