import ImageScript.Proofs.Script.Lossless
import ImageScript.Proofs.Script.Spelling

/-!
# Exchanging what strings hold

What a string holds may be exchanged for a plain name without any other token noticing, also where
the string stands in a comment or in a doc string. The mark around the string that is at stake is
the closing one of the doc string: the scan for it takes backslashes with the character behind them,
and so does that of the string, so that both are in step at the first character of the string and
behind the last one. A name has neither a backslash nor a quote and is passed over.

Main statements: `Exchanged.readBlock_eq`, `Exchanged.head?_eq`, `Exchanged.not_mem`.
-/

namespace ImageScript

namespace Text

/-- Whether every backslash in a text takes a character of the text with it. -/
inductive Paired : Text → Prop where
  | nil : Paired []
  | escape (c : Char) {s : Text} (rest : Paired s) : Paired ('\\' :: c :: s)
  | plain {c : Char} {s : Text} (hc : c ≠ '\\') (rest : Paired s) : Paired (c :: s)

/-- A last character that is no backslash leaves none without its character. -/
theorem paired_concat {c : Char} (hc : c ≠ '\\') : ∀ s : Text, Paired (s ++ [c])
  | [] => .plain hc .nil
  | [d] => by
    by_cases hd : d = '\\'
    · rw [hd]
      exact .escape c .nil
    · exact .plain hd (.plain hc .nil)
  | d :: e :: s => by
    by_cases hd : d = '\\'
    · rw [hd]
      exact .escape e (paired_concat hc s)
    · exact .plain hd (paired_concat hc (e :: s))

/-- Whether a text can stand in any string: there is something in it, and neither a quote, a
backslash nor a line break. -/
structure IsPlain (name : Text) : Prop where
  ne_nil : name ≠ []
  plain : ∀ c ∈ name, Lexeme.isQuote c = false ∧ c ≠ '\\' ∧ c ≠ '\n'

instance (name : Text) : Decidable name.IsPlain :=
  haveI := List.decidableBAll (fun c => Lexeme.isQuote c = false ∧ c ≠ '\\' ∧ c ≠ '\n') name
  decidable_of_iff (name ≠ [] ∧ ∀ c ∈ name, Lexeme.isQuote c = false ∧ c ≠ '\\' ∧ c ≠ '\n')
    ⟨fun h => ⟨h.1, h.2⟩, fun h => ⟨h.1, h.2⟩⟩

end Text

open Text (Paired IsPlain)

namespace Lexeme

/-- What a closed string holds is paired. -/
theorem paired_of_readLine {quote : Char} {s : Text} (h : (readLine quote s).termination = .closed) :
    ∃ content, (readLine quote s).text = content ++ [quote] ∧ Paired content := by
  fun_induction readLine quote s with
  | case1 => cases h
  | case2 c r ih =>
    obtain ⟨content, htext, hpaired⟩ := ih h
    exact ⟨'\\' :: c :: content, congrArg (fun s => '\\' :: c :: s) htext, .escape c hpaired⟩
  | case3 => cases h
  | case4 => exact ⟨[], rfl, .nil⟩
  | case5 c r hescape _ _ ih =>
    obtain ⟨content, htext, hpaired⟩ := ih h
    have hc : c ≠ '\\' := by
      intro hc
      -- a backslash at the end of the text closes nothing
      cases r with
      | nil => cases h
      | cons d r => exact hescape d r hc rfl
    exact ⟨c :: content, congrArg (c :: ·) htext, .plain hc hpaired⟩

/-- A closed string is what it holds between two quotes. -/
theorem closed_of_read {c : Char} {r : Text} (h : (read c r).kind = .str .closed) :
    isQuote c = true ∧ ∃ content, (read c r).text = c :: (content ++ [c]) ∧ Paired content := by
  unfold read at h ⊢
  split at h
  · cases h
  · split at h
    · next hsign hquote =>
      split at h
      · cases h
      · next hpair =>
        obtain ⟨content, htext, hpaired⟩ := paired_of_readLine (LexemeKind.str.inj h)
        rw [if_neg hsign, if_pos hquote, if_neg hpair]
        exact ⟨hquote, content, congrArg (c :: ·) htext, hpaired⟩
    · split at h
      · cases h
      · split at h
        · rw [readNumber_kind] at h
          cases h
        · split at h <;> cases h

/-- Two equal characters at the head of two texts stand in the first one where the second one begins
with another character. -/
theorem isPrefixOf_pair {c : Char} {s z' : Text} (hz' : z'.head? ≠ some c)
    (h : [c, c].isPrefixOf (s ++ z') = true) (z : Text) : [c, c].isPrefixOf (s ++ z) = true := by
  match s with
  | [] =>
    obtain ⟨r, rfl⟩ := List.isPrefixOf_iff_prefix.1 h
    exact absurd rfl hz'
  | [d] =>
    obtain ⟨r, hr⟩ := List.isPrefixOf_iff_prefix.1 h
    have hr : c :: r = z' := (List.cons.inj hr).2
    rw [← hr] at hz'
    exact absurd rfl hz'
  | d :: e :: s => rwa [isPrefixOf_two c (by simp) z z']

/-- A quoted text with more text in front. -/
def behind (a : Text) (q : Quoted) : Quoted := { q with text := a ++ q.text }

/-- A scan that goes past some paired text is in step behind it, and goes past it whatever follows
that does not begin with the quote. -/
theorem readBlock_behind {quote : Char} {a m y z : Text} {t : Termination} (ha : Paired a)
    (h : readBlock quote (a ++ z) = ⟨t, a ++ m, y⟩) (hm : 3 ≤ m.length) :
    readBlock quote z = ⟨t, m, y⟩
      ∧ ∀ z', z'.head? ≠ some quote → readBlock quote (a ++ z') = behind a (readBlock quote z') := by
  induction ha with
  | nil => exact ⟨h, fun _ _ => rfl⟩
  | escape c rest ih =>
    rename_i s
    have hstep : ∀ z, readBlock quote ('\\' :: c :: s ++ z)
        = push '\\' (push c (readBlock quote (s ++ z))) := fun _ => rfl
    rw [hstep] at h
    obtain ⟨m₁, htext₁, h₁⟩ := push_eq h
    obtain ⟨-, rfl⟩ := List.cons.inj htext₁
    obtain ⟨m₂, htext₂, h₂⟩ := push_eq h₁
    obtain ⟨-, rfl⟩ := List.cons.inj htext₂
    obtain ⟨hz, hbehind⟩ := ih h₂
    refine ⟨hz, fun z' hz' => ?_⟩
    rw [hstep, hbehind z' hz']
    rfl
  | plain hc rest ih =>
    rename_i c s
    have hstep : ∀ z, readBlock quote (c :: s ++ z)
        = if c = quote ∧ [quote, quote].isPrefixOf (s ++ z) then
            ⟨.closed, [c, quote, quote], (s ++ z).drop 2⟩
          else push c (readBlock quote (s ++ z)) :=
      fun z => readBlock_cons quote fun _ _ hd _ => hc hd
    rw [hstep] at h
    by_cases hclose : c = quote ∧ [quote, quote].isPrefixOf (s ++ z) = true
    · -- the closing quotes would reach beyond the text in front
      rw [if_pos hclose] at h
      have hlen := congrArg (fun q => q.text.length) h
      simp only [List.length_cons, List.length_nil, List.length_append] at hlen
      omega
    · rw [if_neg hclose] at h
      obtain ⟨m₁, htext, h₁⟩ := push_eq h
      obtain ⟨-, rfl⟩ := List.cons.inj htext
      obtain ⟨hz, hbehind⟩ := ih h₁
      refine ⟨hz, fun z' hz' => ?_⟩
      have hclose' : ¬ (c = quote ∧ [quote, quote].isPrefixOf (s ++ z') = true) :=
        fun hboth => hclose ⟨hboth.1, isPrefixOf_pair hz' hboth.2 z⟩
      rw [hstep, if_neg hclose', hbehind z' hz']
      rfl

/-- A scan goes past a plain name. -/
theorem readBlock_plain {quote : Char} (hquote : isQuote quote = true) {name : Text}
    (h : ∀ c ∈ name, isQuote c = false ∧ c ≠ '\\' ∧ c ≠ '\n') (z : Text) :
    readBlock quote (name ++ z) = behind name (readBlock quote z) := by
  induction name with
  | nil => rfl
  | cons c name ih =>
    obtain ⟨hc, hslash, -⟩ := h c List.mem_cons_self
    have hne : c ≠ quote := (ne_of_isQuote hquote hc).symm
    rw [List.cons_append, readBlock_cons quote fun _ _ hd _ => hslash hd,
      if_neg fun hclose => hne hclose.1, ih fun d hd => h d (List.mem_cons_of_mem c hd)]
    rfl

/-- A comment is read up to the line break behind it. -/
theorem read_comment {body y : Text} (hbody : '\n' ∉ body) (hy : ∀ c ∈ y.head?, c = '\n') :
    read '#' (body ++ y) = ⟨.comment, '#' :: body, y⟩ := by
  have hall : ∀ c ∈ body, decide (c ≠ '\n') = true := by
    intro c hc
    rw [decide_eq_true_eq]
    rintro rfl
    exact hbody hc
  have hwhole : (readWhile .comment ['#'] (· ≠ '\n') (body ++ [])).rest = [] := by
    rw [List.append_nil]
    exact List.dropWhile_eq_nil_iff.2 hall
  exact readWhile_carry hwhole fun c hc => by simp [hy c hc]

/-- A comment holds no line break, and stands before one or at the end. -/
theorem comment_of_read {body y : Text} {k : LexemeKind}
    (h : read '#' (body ++ y) = ⟨k, '#' :: body, y⟩) : '\n' ∉ body ∧ ∀ c ∈ y.head?, c = '\n' := by
  have hread : read '#' (body ++ y) = readWhile .comment ['#'] (· ≠ '\n') (body ++ y) := rfl
  rw [hread] at h
  constructor
  · intro hmem
    have htake : (body ++ y).takeWhile (· ≠ '\n') = body := by
      simpa [readWhile] using congrArg Lexeme.text h
    rw [← htake] at hmem
    simpa using List.mem_takeWhile_imp hmem
  · intro c hc
    have hrest : (readWhile .comment ['#'] (· ≠ '\n') (body ++ y)).rest = y :=
      congrArg Lexeme.rest h
    simpa using readWhile_stops hrest c hc

theorem read_quotes {quote : Char} (hquote : isQuote quote = true) (r : Text) :
    read quote (quote :: quote :: r) = ⟨.docString (readBlock quote r).termination,
      quote :: quote :: quote :: (readBlock quote r).text, (readBlock quote r).rest⟩ := by
  rw [read, if_neg (ne_of_isQuote hquote rfl), if_pos hquote, if_pos (by simp)]
  rfl

/-- What a closed doc string holds ends at the first place where its quotes close it. -/
theorem readBlock_of_read {quote : Char} (hquote : isQuote quote = true) {text y : Text}
    {k : LexemeKind} (hkind : TokenKind.docString = .ofLexeme k)
    (h : read quote (quote :: quote :: text ++ y) = ⟨k, quote :: quote :: quote :: text, y⟩) :
    readBlock quote (text ++ y) = ⟨.closed, text, y⟩ := by
  rw [List.cons_append, List.cons_append, read_quotes hquote] at h
  simp only [Lexeme.mk.injEq, List.cons.injEq, true_and] at h
  obtain ⟨rfl, htext, hrest⟩ := h
  cases hblock : readBlock quote (text ++ y) with
  | mk termination text' rest =>
    rw [hblock] at hkind htext hrest
    cases termination with
    | closed => rw [← htext, ← hrest]
    | unclosed => cases hkind

/-- A plain name between two quotes is a closed string. -/
theorem read_plain {quote : Char} (hquote : isQuote quote = true) {name : Text} (h : IsPlain name)
    (r : Text) :
    read quote (name ++ quote :: r) = ⟨.str .closed, quote :: (name ++ [quote]), r⟩ := by
  have hplain : ∀ c ∈ name, c ≠ '\\' ∧ c ≠ '\n' ∧ c ≠ quote := by
    intro c hc
    obtain ⟨hother, hslash, hline⟩ := h.plain c hc
    exact ⟨hslash, hline, (ne_of_isQuote hquote hother).symm⟩
  have hpair : ¬ [quote, quote].isPrefixOf (name ++ quote :: r) = true := by
    obtain ⟨c, rest, rfl⟩ := List.exists_cons_of_ne_nil h.ne_nil
    intro hpair
    obtain ⟨y, hy⟩ := List.isPrefixOf_iff_prefix.1 hpair
    exact (hplain c List.mem_cons_self).2.2 (List.cons.inj hy).1.symm
  have hslash : quote ≠ '\\' := ne_of_isQuote hquote rfl
  have hline : quote ≠ '\n' := ne_of_isQuote hquote rfl
  rw [read, if_neg (ne_of_isQuote hquote rfl), if_pos hquote, if_neg hpair,
    readLine_plain r hplain ⟨hslash, hline⟩]

end Lexeme

namespace Cursor

/-- A closed string is what it holds between two quotes. -/
theorem string_of_next? {p q : Cursor} {t : Token} {content : Text} (h : p.next? = some (t, q))
    (hc : t.content? = some content) : t.kind = .string ∧ ∃ quote, Lexeme.isQuote quote = true
      ∧ t.text = quote :: (content ++ [quote]) ∧ Paired content := by
  obtain ⟨blanks, c, m, k, -, hread, rfl, -⟩ := exists_of_next? h
  unfold Token.content? at hc
  split at hc
  · next hstring =>
    have hkind : (Lexeme.read c (m ++ q.rest)).kind = .str .closed := by
      rw [hread]
      have hk := hstring.1
      rcases k with _ | (_ | _) | (_ | _) | _ | _ | _ <;> first | rfl | cases hk
    obtain ⟨hquote, inner, htext, hpaired⟩ := Lexeme.closed_of_read hkind
    rw [hread] at htext
    obtain rfl : m = inner ++ [c] := (List.cons.inj htext).2
    obtain rfl : inner = content := by simpa using hc
    exact ⟨hstring.1, c, hquote, rfl, hpaired⟩
  · cases hc

end Cursor

/-- A text, and what it becomes when some of what stands behind its quotes is exchanged for plain
names. -/
inductive Exchanged : Text → Text → Prop where
  | done (s : Text) : Exchanged s s
  | next (gap : Text) {quote : Char} {content name rest rest' : Text}
      (hquote : Lexeme.isQuote quote = true) (hcontent : Paired content) (hname : IsPlain name)
      (later : Exchanged rest rest') :
      Exchanged (gap ++ quote :: (content ++ rest)) (gap ++ quote :: (name ++ rest'))

namespace Exchanged

variable {a b s s' t t' : Text}

/-- More text in front belongs to the first gap. -/
theorem behind (a : Text) (h : Exchanged s s') : Exchanged (a ++ s) (a ++ s') := by
  cases h with
  | done => exact .done _
  | next gap hquote hcontent hname later =>
    rw [← List.append_assoc, ← List.append_assoc]
    exact .next (a ++ gap) hquote hcontent hname later

theorem append (h : Exchanged s s') (h' : Exchanged t t') : Exchanged (s ++ t) (s' ++ t') := by
  induction h with
  | done s => exact h'.behind s
  | next gap hquote hcontent hname later ih =>
    rw [List.append_assoc, List.append_assoc, List.cons_append, List.cons_append,
      List.append_assoc, List.append_assoc]
    exact .next gap hquote hcontent hname ih

/-- The first character stays: it is in no string. -/
theorem head?_eq (h : Exchanged s s') : s'.head? = s.head? := by
  cases h with
  | done => rfl
  | next gap => cases gap <;> rfl

/-- A line break is not put where there was none. -/
theorem not_mem (h : Exchanged s s') (hline : '\n' ∉ s) : '\n' ∉ s' := by
  induction h with
  | done => exact hline
  | next gap hquote hcontent hname later ih =>
    simp only [List.mem_append, List.mem_cons, not_or] at hline ⊢
    exact ⟨hline.1, hline.2.1, fun hmem => (hname.plain _ hmem).2.2 rfl, ih hline.2.2.2⟩

/-- Where a doc string ends behind a text, it ends there also behind what the text becomes. -/
theorem readBlock_eq {quote : Char} {m y z : Text} {e : Termination}
    (hquote : Lexeme.isQuote quote = true) (h : Exchanged s s')
    (hread : Lexeme.readBlock quote (s ++ z) = ⟨e, s ++ m, y⟩) (hm : 3 ≤ m.length) :
    Lexeme.readBlock quote (s' ++ z) = ⟨e, s' ++ m, y⟩ := by
  induction h with
  | done => exact hread
  | next gap hopen hcontent hname later ih =>
    rename_i mark content name rest rest'
    have hsplit : ∀ z : Text, gap ++ mark :: (content ++ rest) ++ z
        = (gap ++ [mark]) ++ (content ++ (rest ++ z)) := by simp
    have hsplit' : gap ++ mark :: (name ++ rest') ++ z
        = (gap ++ [mark]) ++ (name ++ (rest' ++ z)) := by simp
    have hfirst : (name ++ (rest' ++ z)).head? ≠ some quote := by
      obtain ⟨hne, hplain⟩ := hname
      cases name with
      | nil => exact absurd rfl hne
      | cons c name =>
        intro hc
        exact Lexeme.ne_of_isQuote hquote (hplain c List.mem_cons_self).1 (Option.some.inj hc).symm
    -- in step behind the opening quote, and again behind what the string holds
    rw [hsplit, hsplit] at hread
    obtain ⟨hinside, hgap⟩ := Lexeme.readBlock_behind
      (Text.paired_concat (Lexeme.ne_of_isQuote hopen rfl) gap) hread (by simp; omega)
    obtain ⟨hafter, -⟩ := Lexeme.readBlock_behind hcontent hinside (by simp; omega)
    rw [hsplit', hgap _ hfirst, Lexeme.readBlock_plain hquote hname.plain, ih hafter]
    simp [Lexeme.behind]

end Exchanged

end ImageScript
