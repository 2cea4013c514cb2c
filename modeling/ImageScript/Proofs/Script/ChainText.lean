import ImageScript.Proofs.Decimal.Sign
import ImageScript.Proofs.Script.SuffixReading

/-!
# Reading a chain that was written

The suffix calls of a pattern are read one behind the other, wherever they stand: each adds to the
literal what it was written for. A similarity is read back as it is stored. A factor is read as
`Decimal.reread?` says, and no value at all is read where it is infinite, which gives up the chain.

Main statements: `Recognition.readSuffixes_call`, `Pattern.here?_toText`, `Pattern.rejected_toText`,
`Pattern.ofLiteral_spelled`.
-/

namespace ImageScript

open Recognition

namespace Lexeme

/-- A word is read up to what cannot belong to a word. -/
theorem read_word {c e : Char} {cs r : Text} (hc : isWordStart c = true)
    (hcs : ∀ d ∈ cs, isWord d = true) (he : isWord e = false) :
    read c (cs ++ e :: r) = ⟨.ident, c :: cs, e :: r⟩ := by
  have hne : ∀ d : Char, isWordStart d = false → c ≠ d := by
    rintro d hd rfl
    rw [hc] at hd
    cases hd
  have hquote : isQuote c = false := by
    simp [isQuote, hne '"' (by decide), hne '\x27' (by decide)]
  rw [read, if_neg (hne '#' (by decide)), if_neg (Bool.eq_false_iff.1 hquote), if_pos hc, readWhile,
    List.takeWhile_append_of_pos hcs, List.dropWhile_append_of_pos hcs,
    List.takeWhile_cons_of_neg (Bool.eq_false_iff.1 he),
    List.dropWhile_cons_of_neg (Bool.eq_false_iff.1 he), List.append_nil]
  rfl

theorem isBlank_of_isWordStart {c : Char} (hc : isWordStart c = true) : isBlank c = false := by
  refine Bool.eq_false_iff.2 fun hblank => ?_
  simp only [isBlank, Bool.or_eq_true, decide_eq_true_eq] at hblank
  rcases hblank with (((rfl | rfl) | rfl) | rfl) | rfl <;> exact absurd hc (by decide)

/-- Digits with a point among them are read as one number up to what is no digit. -/
theorem read_decimal {c e : Char} {ds fs r : Text} (hc : c.isDigit = true)
    (hds : ∀ d ∈ ds, d.isDigit = true) (hfs : ∀ d ∈ fs, d.isDigit = true)
    (he : e.isDigit = false) :
    read c (ds ++ '.' :: (fs ++ e :: r)) = ⟨.number, c :: (ds ++ '.' :: fs), e :: r⟩ := by
  have hpoint : ¬ Char.isDigit '.' = true := by decide
  rw [read_of_isDigit hc, readNumber]
  simp only [readWhile, List.takeWhile_append_of_pos hds, List.dropWhile_append_of_pos hds,
    List.takeWhile_cons_of_neg hpoint, List.dropWhile_cons_of_neg hpoint,
    List.takeWhile_append_of_pos hfs, List.dropWhile_append_of_pos hfs,
    List.takeWhile_cons_of_neg (Bool.eq_false_iff.1 he),
    List.dropWhile_cons_of_neg (Bool.eq_false_iff.1 he)]
  simp

end Lexeme

/-! ### Arguments -/

theorem Cursor.tokens_close (o : Nat) (r : Text) :
    tokens ⟨o, ')' :: r⟩ = sign ')' o :: tokens ⟨o + 1, r⟩ := by
  have hread : Lexeme.read ')' r = ⟨.punct, [')'], r⟩ := rfl
  rw [tokens_of_read (by decide) hread]
  rfl

/-- Whether a text is read as the arguments of a call, wherever the call stands. -/
def Spells (args : Text) (groups : Nat → List (List Token)) : Prop :=
  ∀ o r, CallArguments.read? (Cursor.tokens ⟨o, args ++ ')' :: r⟩) =
    some ⟨groups o, sign ')' (o + Text.byteLen args),
      Cursor.tokens ⟨o + Text.byteLen args + 1, r⟩⟩

/-- Whether a text is one token before a closing parenthesis, which is none of the signs of a
call. -/
structure IsWord (text : Text) : Prop where
  tokens_eq : ∀ o r, Cursor.tokens ⟨o, text ++ ')' :: r⟩ =
    ⟨.other, text, o⟩ :: Cursor.tokens ⟨o + Text.byteLen text, ')' :: r⟩
  plain : ∀ o, Grammar.IsPlain ⟨.other, text, o⟩

/-- The tokens of a number that stands behind `o` bytes. -/
def signedTokens (o : Nat) (negative : Bool) (digits : Text) : List Token :=
  if negative then [sign '-' o, ⟨.other, digits, o + 1⟩] else [⟨.other, digits, o⟩]

namespace Spells

theorem nil : Spells [] fun _ => [] := by
  intro o r
  rw [List.nil_append, Cursor.tokens_close]
  exact Grammar.read?_joined (by simp) rfl .none _

/-- One argument without signs that would divide or end it. -/
theorem one {args : Text} {group : Nat → List Token}
    (hgroup : ∀ o, group o ≠ [] ∧ ∀ t ∈ group o, Grammar.IsPlain t)
    (h : ∀ o r, Cursor.tokens ⟨o, args ++ ')' :: r⟩ =
      group o ++ Cursor.tokens ⟨o + Text.byteLen args, ')' :: r⟩) :
    Spells args fun o => [group o] := by
  intro o r
  rw [h, Cursor.tokens_close]
  exact Grammar.read?_joined (by simpa using hgroup o) rfl (.last _) _

/-- A name in quotes. -/
theorem quoted {name : Text} (h : IsQuotable name) :
    Spells (Pattern.quoted name) fun o => [[⟨.string, Pattern.quoted name, o⟩]] := by
  refine one (fun o => ⟨List.cons_ne_nil _ _, fun t ht => ?_⟩) fun o r => ?_
  · rw [List.mem_singleton.1 ht]
    exact Grammar.isPlain_of_kind nofun
  · exact Cursor.tokens_quoted o h (by simp)

/-- Two whole numbers. -/
theorem ints (x y : Int) : Spells (Text.ofInt x ++ ',' :: Text.ofInt y) fun o =>
    [numberTokens o x, numberTokens (o + Text.byteLen (Text.ofInt x) + 1) y] := by
  have hne : ∀ o i, numberTokens o i ≠ [] := by
    rintro o (n | n) <;> exact List.cons_ne_nil _ _
  intro o r
  have hlen : Text.byteLen (Text.ofInt x ++ ',' :: Text.ofInt y) =
      Text.byteLen (Text.ofInt x) + 1 + Text.byteLen (Text.ofInt y) := by
    rw [Text.byteLen_append, Text.byteLen_cons, Nat.add_assoc]
    rfl
  rw [List.append_assoc, List.cons_append, Cursor.tokens_argument o x (Or.inl rfl),
    Cursor.tokens_argument _ y (Or.inr rfl), hlen]
  simp only [← Nat.add_assoc]
  rw [← List.cons_append, ← List.append_assoc]
  refine Grammar.read?_joined ?_ rfl (.more _ rfl (.last _)) _
  simpa [hne] using ⟨fun t ht => is_of_mem_numberTokens ht, fun t ht => is_of_mem_numberTokens ht⟩

/-- A word behind an optional sign. -/
theorem signed (negative : Bool) {text : Text} (h : IsWord text) :
    Spells (Decimal.signText negative ++ text) fun o => [signedTokens o negative text] := by
  cases negative with
  | false =>
    refine one (fun o => ⟨List.cons_ne_nil _ _, fun t ht => ?_⟩) h.tokens_eq
    rw [List.mem_singleton.1 ht]
    exact h.plain o
  | true =>
    refine one (fun o => ⟨List.cons_ne_nil _ _, fun t ht => ?_⟩) fun o r => ?_
    · rcases List.mem_cons.1 ht with rfl | ht
      · exact ⟨rfl, rfl, rfl⟩
      · rw [List.mem_singleton.1 ht]
        exact h.plain (o + 1)
    · have hminus : Lexeme.read '-' (text ++ ')' :: r) = ⟨.punct, ['-'], text ++ ')' :: r⟩ := rfl
      have hlen : o + Text.byteLen ('-' :: text) = o + 1 + Text.byteLen text := by
        rw [Text.byteLen_cons, ← Nat.add_assoc]
        rfl
      change Cursor.tokens ⟨o, '-' :: (text ++ ')' :: r)⟩ = _ ++
        Cursor.tokens ⟨o + Text.byteLen ('-' :: text), ')' :: r⟩
      rw [Cursor.tokens_of_read (by decide) hminus, hlen]
      exact congrArg (_ :: ·) (h.tokens_eq (o + 1) r)

end Spells

/-! ### Decimal numbers -/

/-- A number of hundredths begins with a digit and is read as one number up to what is neither a
digit nor a point. -/
theorem Decimal.exists_hundredthsText (n : Nat) : ∃ c ds, hundredthsText n = c :: ds
    ∧ c.isDigit = true ∧ ∀ e r, e.isDigit = false → e ≠ '.' →
      Lexeme.read c (ds ++ e :: r) = ⟨.number, c :: ds, e :: r⟩ := by
  obtain ⟨c, ds, hwhole⟩ := List.exists_cons_of_ne_nil (Text.ofNat_ne_nil (n / 100))
  have hdigit : ∀ d ∈ c :: ds, d.isDigit = true := fun d hd =>
    Text.isDigit_of_mem_ofNat (hwhole ▸ hd)
  have hc := hdigit c (List.mem_cons_self ..)
  have hds : ∀ d ∈ ds, d.isDigit = true := fun d hd => hdigit d (List.mem_cons_of_mem c hd)
  have hfraction : ∀ fs : Text, (∀ d ∈ fs, d.isDigit = true) → ∀ e r, e.isDigit = false → e ≠ '.' →
      Lexeme.read c (ds ++ '.' :: fs ++ e :: r) = ⟨.number, c :: (ds ++ '.' :: fs), e :: r⟩ := by
    intro fs hfs e r he _
    rw [List.append_assoc, List.cons_append]
    exact Lexeme.read_decimal hc hds hfs he
  simp only [hundredthsText, hwhole]
  split
  · refine ⟨c, ds, rfl, hc, fun e r he hpoint => Lexeme.read_digits hc hds ?_⟩
    rintro e' ⟨⟩
    exact ⟨he, hpoint⟩
  · split
    · exact ⟨c, _, rfl, hc, hfraction _ fun d => Text.isDigit_of_mem_ofNat⟩
    · refine ⟨c, _, rfl, hc, hfraction _ fun d hd => ?_⟩
      rcases List.mem_append.1 hd with hd | hd
      · exact Text.isDigit_of_mem_ofNat hd
      · exact Text.isDigit_of_mem_ofNat hd

theorem isWord_hundredthsText (n : Nat) : IsWord (Decimal.hundredthsText n) := by
  obtain ⟨c, ds, htext, hc, hread⟩ := Decimal.exists_hundredthsText n
  rw [htext]
  refine ⟨fun o r => ?_, fun o => Grammar.isPlain_of_digits rfl (Or.inl hc)⟩
  rw [List.cons_append, Cursor.tokens_of_read ?_ (hread ')' r (by decide) (by decide))]
  · rfl
  · simp [Lexeme.isBlank, Lexeme.ne_of_isDigit hc]

namespace Decimal

variable {x v : Float}

/-- The text of a value above zero is read back as the value itself is, unless it is infinite. -/
theorem reread?_of_pos (h : 0 < x) :
    reread? x = if read x = .infinite false then none else number? (format x) := by
  have hunsigned : withSign false = id := rfl
  unfold reread? format
  rcases read_of_pos h with ⟨m, e, hread⟩ | hread
  · rw [hread, if_neg nofun]
    dsimp only
    rw [hunsigned, Option.map_id_fun, id_eq]
    rfl
  · rw [hread, if_pos rfl]

/-- What is read back of a value above zero, and is above zero when it is rounded, is not zero. -/
theorem not_le_zero_of_reread? (h : 0 < x) (hv : reread? x = some v)
    (hround : 0 < roundToHundredths v) : ¬ v ≤ 0 := by
  unfold reread? at hv
  rcases read_of_pos h with ⟨m, e, hread⟩ | hread
  · obtain ⟨c, ds, htext, hc, -⟩ := exists_hundredthsText (hundredths m e)
    rw [hread] at hv
    dsimp only at hv
    obtain ⟨w, hw, rfl⟩ := Option.map_eq_some_iff.1 hv
    rw [htext] at hw
    exact not_le_zero_of_rounded (number?_unsigned hc hw) hround
  · rw [hread] at hv
    cases hv

end Decimal

theorem isWord_inf : IsWord "inf".toList := by
  have htext : "inf".toList = ['i', 'n', 'f'] := by decide
  rw [htext]
  refine ⟨fun o r => ?_, fun o => ⟨rfl, rfl, rfl⟩⟩
  have hread : Lexeme.read 'i' (['n', 'f'] ++ ')' :: r) = ⟨.ident, ['i', 'n', 'f'], ')' :: r⟩ :=
    Lexeme.read_word (by decide) (List.all_eq_true.1 (by decide)) (by decide)
  exact Cursor.tokens_of_read (by decide) hread

theorem signedNumber?_signedTokens (o : Nat) (negative : Bool) (digits : Text) :
    signedNumber? (signedTokens o negative digits) = some (negative, digits) := by
  cases negative <;> rfl

/-- The text of a number is one argument, and it is read as `Decimal.reread?` says. -/
theorem exists_spells_format {x : Float} (h : Decimal.read x ≠ .nan) :
    ∃ group : Nat → List Token, Spells (Decimal.format x) (fun o => [group o])
      ∧ ∀ o, float? (group o) = Decimal.reread? x := by
  unfold Decimal.format Decimal.reread?
  cases hread : Decimal.read x with
  | nan => exact absurd hread h
  | infinite negative =>
    refine ⟨fun o => signedTokens o negative "inf".toList, .signed negative isWord_inf, fun o => ?_⟩
    rw [float?, signedNumber?_signedTokens, Option.bind_some]
    rfl
  | finite negative m e =>
    refine ⟨fun o => signedTokens o negative (Decimal.hundredthsText (Decimal.hundredths m e)),
      .signed negative (isWord_hundredthsText _), fun o => ?_⟩
    obtain ⟨c, ds, htext, hc, -⟩ := Decimal.exists_hundredthsText (Decimal.hundredths m e)
    rw [float?, signedNumber?_signedTokens, Option.bind_some]
    dsimp only
    rw [if_pos (by simp [htext, hc])]

/-! ### Suffix calls -/

/-- The tokens of a word and the parenthesis behind it. -/
theorem Cursor.tokens_head (o : Nat) {c : Char} {cs : Text} (hc : Lexeme.isWordStart c = true)
    (hcs : ∀ d ∈ cs, Lexeme.isWord d = true) (s : Text) :
    tokens ⟨o, c :: cs ++ '(' :: s⟩ = ⟨.other, c :: cs, o⟩
      :: sign '(' (o + Text.byteLen (c :: cs)) :: tokens ⟨o + Text.byteLen (c :: cs) + 1, s⟩ := by
  have hopening : Lexeme.read '(' s = ⟨.punct, ['('], s⟩ := rfl
  rw [List.cons_append,
    tokens_of_read (Lexeme.isBlank_of_isWordStart hc) (Lexeme.read_word hc hcs (by decide)),
    tokens_of_read (by decide) hopening]
  rfl

/-- The tokens of a call behind a point. -/
theorem Cursor.tokens_call (o : Nat) {c : Char} {cs : Text} (hc : Lexeme.isWordStart c = true)
    (hcs : ∀ d ∈ cs, Lexeme.isWord d = true) (hdigit : c.isDigit = false) (s : Text) :
    tokens ⟨o, '.' :: (c :: cs ++ '(' :: s)⟩ = sign '.' o :: ⟨.other, c :: cs, o + 1⟩
      :: sign '(' (o + 1 + Text.byteLen (c :: cs))
      :: tokens ⟨o + 1 + Text.byteLen (c :: cs) + 1, s⟩ := by
  have hdot : Lexeme.read '.' (c :: cs ++ '(' :: s) = ⟨.punct, ['.'], c :: cs ++ '(' :: s⟩ := by
    simp [Lexeme.read, Lexeme.isQuote, Lexeme.isWordStart, hdigit]
  rw [tokens_of_read (by decide) hdot, ← tokens_head (o + 1) hc hcs]
  rfl

namespace Recognition

/-- A suffix call does to a chain what its suffix does with the arguments. -/
theorem readSuffixes_call {suffix : Suffix} {args : Text} {groups : Nat → List (List Token)}
    (hargs : Spells args groups) (start : Nat) (p : PatternLiteral) (o : Nat) (r : Text) :
    ∃ pos k, readSuffixes start p o (Cursor.tokens ⟨o, Pattern.call suffix args ++ r⟩) =
      match applySuffix p suffix pos (groups k) with
      | .error e => ⟨.rejected e, Cursor.tokens ⟨o + Text.byteLen (Pattern.call suffix args), r⟩⟩
      | .ok q => readSuffixes start q (o + Text.byteLen (Pattern.call suffix args))
          (Cursor.tokens ⟨o + Text.byteLen (Pattern.call suffix args), r⟩) := by
  obtain ⟨c, cs, hname, hc, hcs, hdigit⟩ : ∃ c cs, suffix.name.toList = c :: cs
      ∧ Lexeme.isWordStart c = true ∧ (∀ d ∈ cs, Lexeme.isWord d = true) ∧ c.isDigit = false := by
    cases suffix <;>
      exact ⟨_, _, rfl, by decide, List.all_eq_true.1 (by decide), by decide⟩
  have htext : Pattern.call suffix args ++ r = '.' :: (c :: cs ++ '(' :: (args ++ ')' :: r)) := by
    simp [Pattern.call, hname]
  have hlen : o + Text.byteLen (Pattern.call suffix args) =
      o + 1 + Text.byteLen (c :: cs) + 1 + Text.byteLen args + 1 := by
    have hsign : ∀ c : Char, c = '.' ∨ c = '(' ∨ c = ')' → c.utf8Size = 1 := by
      rintro c (rfl | rfl | rfl) <;> rfl
    simp only [Pattern.call, hname, Text.byteLen_cons, Text.byteLen_append, Text.byteLen_nil,
      hsign '.' (by simp), hsign '(' (by simp), hsign ')' (by simp)]
    omega
  have hword : Token.is ⟨.other, c :: cs, o + 1⟩ suffix.name = true := by
    simp [Token.is, hname]
  have hcall := @Grammar.suffixCall?_of_is (sign '.' o) _ (sign '(' (o + 1 + Text.byteLen (c :: cs)))
    suffix rfl hword rfl
  refine ⟨o + 1, o + 1 + Text.byteLen (c :: cs) + 1, ?_⟩
  rw [htext, Cursor.tokens_call o hc hcs hdigit, hlen]
  exact readSuffixes_of_read (hcall _) (hargs _ r)

end Recognition

/-- The calls in a text make a pattern literal another one, wherever they stand. -/
def Adds (p : PatternLiteral) (x : Text) (q : PatternLiteral) : Prop :=
  ∀ start o r, readSuffixes start p o (Cursor.tokens ⟨o, x ++ r⟩) =
    readSuffixes start q (o + Text.byteLen x) (Cursor.tokens ⟨o + Text.byteLen x, r⟩)

namespace Adds

variable {p q : PatternLiteral}

theorem nil (p : PatternLiteral) : Adds p [] p := fun _ _ _ => rfl

theorem call {suffix : Suffix} {args : Text} {groups : Nat → List (List Token)}
    (hargs : Spells args groups) (happly : ∀ pos k, applySuffix p suffix pos (groups k) = .ok q) :
    Adds p (Pattern.call suffix args) q := by
  intro start o r
  obtain ⟨pos, k, hcall⟩ := readSuffixes_call hargs start p o r
  rw [hcall, happly]

end Adds

/-! ### Patterns -/

namespace Pattern

variable {p : Pattern} {q : PatternLiteral}

/-- Whether the attributes of a pattern are such that their text is read back, its factor apart. -/
structure IsSpellable (p : Pattern) : Prop where
  name : IsQuotable p.imageName
  isImage : ImageName.isImage p.imageName = true
  similarity : IsSettledSimilarity p.similarity
  dx : IsArgument p.targetOffset.1
  dy : IsArgument p.targetOffset.2
  mask : ∀ name, p.mask = some (.image name) → IsQuotable name

/-- The similarity that the text of a pattern says, if it says one. -/
def spelledSimilarity (p : Pattern) : Option Float :=
  if p.isExact || p.similarity == defaultSimilarity then none else some p.similarity

def spelledOffset (p : Pattern) : Option (Int32 × Int32) :=
  if p.targetOffset = (0, 0) then none else some p.targetOffset

/-- The literal that the text of a pattern is, with a factor for the one of the pattern. -/
def spelled (p : Pattern) (factor : Option Float) : PatternLiteral :=
  ⟨p.imageName, p.spelledSimilarity, p.isExact, p.spelledOffset, factor, p.mask⟩

/-- What is read of a factor that a pattern stores: no factor of none, and else a value above zero
of its text. -/
inductive ReadsFactor : Option Float → Option Float → Prop where
  | none : ReadsFactor none none
  | some {f v : Float} (read : Decimal.reread? f = some v) (positive : ¬ v ≤ 0) :
      ReadsFactor (some f) (some v)

theorem adds_similarityText (hp : IsSettledSimilarity p.similarity) (hexact : q.exact = false)
    (hsimilarity : q.similarity = none) :
    Adds q p.similarityText { q with similarity := p.spelledSimilarity, exact := p.isExact } := by
  unfold similarityText spelledSimilarity
  by_cases he : p.isExact = true
  · rw [if_pos he, he]
    exact .call .nil fun _ _ => rfl
  · rw [if_neg he, Bool.eq_false_iff.2 he]
    by_cases hd : (p.similarity == defaultSimilarity) = true
    · rw [if_pos hd, hd, ← hexact, Bool.or_true, if_pos rfl, ← hsimilarity]
      exact .nil q
    · rw [if_neg hd, Bool.eq_false_iff.2 hd, Bool.or_false, if_neg Bool.false_ne_true]
      have hnumber : Decimal.read p.similarity ≠ .nan := by
        intro hnan
        have hreread := hp.reread
        rw [Decimal.reread?, hnan] at hreread
        cases hreread
      obtain ⟨group, hspells, hfloat⟩ := exists_spells_format hnumber
      refine .call hspells fun pos k => ?_
      simp only [applySuffix, hfloat, hp.reread, if_pos (And.intro hp.nonneg hp.le_one)]

theorem adds_offsetText (hdx : IsArgument p.targetOffset.1) (hdy : IsArgument p.targetOffset.2)
    (hoffset : q.targetOffset = none) :
    Adds q p.offsetText { q with targetOffset := p.spelledOffset } := by
  unfold offsetText spelledOffset
  split
  · rw [← hoffset]
    exact .nil q
  · refine .call (.ints _ _) fun pos k => ?_
    simp only [applySuffix, int?_numberTokens _ hdx, int?_numberTokens _ hdy]

theorem adds_maskText (hquotable : ∀ name, p.mask = some (.image name) → IsQuotable name)
    (hmask : q.mask = none) : Adds q p.maskText { q with mask := p.mask } := by
  unfold maskText
  cases hm : p.mask with
  | none =>
    have hq : { q with mask := none } = q := by rw [← hmask]
    rw [hq]
    exact .nil q
  | some m =>
    cases m with
    | transparent => exact .call .nil fun _ _ => rfl
    | image name =>
      refine .call (.quoted (hquotable name hm)) fun pos k => ?_
      simp [applySuffix, Token.content?, quoted]

/-- A factor is read from its text, and a factor that is none gives up the chain. -/
theorem readSuffixes_resizeText {f : Float} (hf : p.resizeFactor = some f)
    (hnumber : Decimal.read f ≠ .nan) (start o : Nat) (q : PatternLiteral) (r : Text) :
    readSuffixes start q o (Cursor.tokens ⟨o, p.resizeText ++ r⟩) =
        readSuffixes start { q with resize := Decimal.reread? f } (o + Text.byteLen p.resizeText)
          (Cursor.tokens ⟨o + Text.byteLen p.resizeText, r⟩)
      ∧ (∃ v, Decimal.reread? f = some v ∧ ¬ v ≤ 0)
    ∨ (∃ e rest, readSuffixes start q o (Cursor.tokens ⟨o, p.resizeText ++ r⟩) =
        ⟨.rejected e, rest⟩) ∧ ∀ v, Decimal.reread? f = some v → v ≤ 0 := by
  obtain ⟨group, hspells, hfloat⟩ := exists_spells_format hnumber
  obtain ⟨pos, k, hcall⟩ := @readSuffixes_call .resize _ _ hspells start q o r
  have htext : p.resizeText = call .resize (Decimal.format f) := by rw [resizeText, hf]
  rw [htext, hcall]
  simp only [applySuffix, hfloat]
  cases hread : Decimal.reread? f with
  | none => exact Or.inr ⟨⟨_, _, rfl⟩, fun w hw => by cases hw⟩
  | some v =>
    dsimp only
    by_cases hv : v ≤ 0
    · rw [if_pos hv]
      exact Or.inr ⟨⟨_, _, rfl⟩, fun w hw => Option.some.inj hw ▸ hv⟩
    · rw [if_neg hv]
      exact Or.inl ⟨rfl, v, rfl, hv⟩

/-- An image name in the call that makes a pattern of it. -/
def callText (name : Text) : Text := "Pattern(".toList ++ quoted name ++ ")".toList

theorem byteLen_callText (name : Text) :
    Text.byteLen (callText name) = 8 + Text.byteLen (quoted name) + 1 := by
  have hcall : Text.byteLen "Pattern(".toList = 8 := by decide
  have hclose : Text.byteLen ")".toList = 1 := by decide
  unfold callText
  rw [Text.byteLen_append, Text.byteLen_append, hcall, hclose]

theorem tokens_callText {name : Text} (h : IsQuotable name) (s : Text) :
    tokenize (callText name ++ s) = ⟨.other, "Pattern".toList, 0⟩ :: sign '(' 7
      :: ⟨.string, quoted name, 8⟩ :: sign ')' (8 + Text.byteLen (quoted name))
      :: Cursor.tokens ⟨Text.byteLen (callText name), s⟩ := by
  have hword : "Pattern".toList = 'P' :: "attern".toList := by decide
  have htext : callText name ++ s =
      'P' :: "attern".toList ++ '(' :: (quoted name ++ ')' :: s) := by
    have hcall : "Pattern(".toList = 'P' :: "attern".toList ++ ['('] := by decide
    have hclose : ")".toList = [')'] := by decide
    unfold callText
    simp only [hcall, hclose, List.append_assoc, List.cons_append, List.nil_append]
  have hlen : Text.byteLen ('P' :: "attern".toList) = 7 := by decide
  rw [tokenize, htext, Cursor.tokens_head 0 (by decide) (List.all_eq_true.1 (by decide)), hword,
    hlen, Nat.zero_add, Cursor.tokens_quoted 8 h (by simp), Cursor.tokens_close, byteLen_callText]

theorem here?_callText {name : Text} (h : IsQuotable name) (himage : ImageName.isImage name = true)
    (s : Text) : here? (tokenize (callText name ++ s)) =
      some (readSuffixes 0 (.bare name) (Text.byteLen (callText name))
        (Cursor.tokens ⟨Text.byteLen (callText name), s⟩)) := by
  have hhead : Token.is ⟨.other, "Pattern".toList, 0⟩ "Pattern" = true := by
    simp [Token.is]
  have hopening : (sign '(' 7).is "(" = true := rfl
  have hclose : ∀ o, (sign ')' o).is ")" = true := fun _ => rfl
  have hstop : ∀ o, (sign ')' o).stop = o + 1 := fun _ => rfl
  have hname : imageName? ⟨.string, quoted name, 8⟩ = some name := by
    simp [imageName?, Token.content?, quoted, himage]
  rw [tokens_callText h]
  refine here?_of_reads (.chain hhead hopening hname (hclose _) ?_)
  rw [hstop, ← byteLen_callText]

/-- The text of a pattern with an attribute: the call of the name and the suffix calls. -/
theorem toText_eq {p : Pattern} (hname : p.imageName ≠ []) (hdefault : p.isDefault = false) :
    p.toText = callText p.imageName ++ (p.similarityText ++ (p.offsetText
      ++ (p.resizeText ++ p.maskText))) := by
  unfold callText
  rw [toText, if_neg hname, if_neg (Bool.eq_false_iff.1 hdefault)]
  simp only [List.append_assoc]

theorem IsSpellable.name_ne_nil {p : Pattern} (hp : p.IsSpellable) : p.imageName ≠ [] := by
  intro hname
  have himage := hp.isImage
  rw [hname] at himage
  exact absurd himage (by decide)

/-- Where a chain is read up to the factor. -/
theorem here?_toText_factor {p : Pattern} (hp : p.IsSpellable) (hdefault : p.isDefault = false) :
    ∃ o, o + Text.byteLen (p.resizeText ++ p.maskText) = Text.byteLen p.toText
      ∧ here? (tokenize p.toText) = some (readSuffixes 0 { p.spelled none with mask := none } o
          (Cursor.tokens ⟨o, p.resizeText ++ p.maskText⟩)) := by
  have hsimilarity : Adds (.bare p.imageName) p.similarityText
      ⟨p.imageName, p.spelledSimilarity, p.isExact, none, none, none⟩ :=
    adds_similarityText hp.similarity rfl rfl
  have hoffset : Adds ⟨p.imageName, p.spelledSimilarity, p.isExact, none, none, none⟩ p.offsetText
      ⟨p.imageName, p.spelledSimilarity, p.isExact, p.spelledOffset, none, none⟩ :=
    adds_offsetText hp.dx hp.dy rfl
  refine ⟨Text.byteLen (callText p.imageName) + Text.byteLen p.similarityText
    + Text.byteLen p.offsetText, ?_, ?_⟩
  · rw [toText_eq hp.name_ne_nil hdefault]
    simp only [Text.byteLen_append]
    omega
  · rw [toText_eq hp.name_ne_nil hdefault, here?_callText hp.name hp.isImage, hsimilarity, hoffset]
    rfl

/-- A pattern without a factor, or with one that is read back, is read from its text with every
attribute that the text says. -/
theorem here?_toText {p : Pattern} (hp : p.IsSpellable) (hdefault : p.isDefault = false)
    {factor : Option Float} (h : ReadsFactor p.resizeFactor factor) : here? (tokenize p.toText) =
      some ⟨.literal ⟨0, Text.byteLen p.toText, .chain (p.spelled factor)⟩, []⟩ := by
  obtain ⟨o, ho, hhere⟩ := here?_toText_factor hp hdefault
  have hmask : Adds ⟨p.imageName, p.spelledSimilarity, p.isExact, p.spelledOffset, factor, none⟩
      p.maskText (p.spelled factor) := adds_maskText hp.mask rfl
  -- Of the calls in the text only the one for the factor can be refused.
  have hresize : readSuffixes 0 { p.spelled none with mask := none } o
      (Cursor.tokens ⟨o, p.resizeText ++ p.maskText⟩) =
        readSuffixes 0 ⟨p.imageName, p.spelledSimilarity, p.isExact, p.spelledOffset, factor, none⟩
          (o + Text.byteLen p.resizeText)
          (Cursor.tokens ⟨o + Text.byteLen p.resizeText, p.maskText⟩) := by
    generalize hf : p.resizeFactor = stored at h
    cases h with
    | none =>
      have htext : p.resizeText = [] := by rw [resizeText, hf]
      rw [htext]
      rfl
    | @some f v hv hpositive =>
      have hnumber : Decimal.read f ≠ .nan := by
        intro hnan
        rw [Decimal.reread?, hnan] at hv
        cases hv
      rcases readSuffixes_resizeText hf hnumber 0 o { p.spelled none with mask := none }
        p.maskText with ⟨hstep, -⟩ | ⟨-, hrejected⟩
      · rw [hstep, hv]
        rfl
      · exact absurd (hrejected v hv) hpositive
  have hend := hmask 0 (o + Text.byteLen p.resizeText) []
  have hnone : suffixCall? [] = none := rfl
  rw [Cursor.tokens_nil, readSuffixes_of_none hnone, List.append_nil] at hend
  rw [hhere, hresize, hend, Nat.add_assoc, ← Text.byteLen_append, ho]

/-- A pattern whose factor is read as none, or as none above zero, is not read from its text. -/
theorem rejected_toText {p : Pattern} (hp : p.IsSpellable) {f : Float} (hf : p.resizeFactor = some f)
    (hnumber : Decimal.read f ≠ .nan) (h : ∀ v, Decimal.reread? f = some v → v ≤ 0) :
    ∃ e rest, here? (tokenize p.toText) = some ⟨.rejected e, rest⟩ := by
  have hdefault : p.isDefault = false := by simp [isDefault, hf]
  obtain ⟨o, -, hhere⟩ := here?_toText_factor hp hdefault
  rcases readSuffixes_resizeText hf hnumber 0 o { p.spelled none with mask := none } p.maskText
    with ⟨-, v, hv, hpositive⟩ | ⟨⟨e, rest, hstep⟩, -⟩
  · exact absurd (h v hv) hpositive
  · rw [hhere, hstep]
    exact ⟨e, rest, rfl⟩

/-- The literal in the text of a pattern asks for the attributes of the pattern. -/
theorem ofLiteral_spelled {p : Pattern} (hp : IsSettledSimilarity p.similarity) (id : Text)
    (factor : Option Float) : ofLiteral id p.imageName (p.spelled factor) =
      { new id p.imageName with
        similarity := p.similarity
        targetOffset := p.targetOffset
        resizeFactor := factor.bind validFactor?
        mask := p.mask } := by
  have hsimilarity : (ofLiteral id p.imageName (p.spelled factor)).similarity = p.similarity := by
    unfold ofLiteral spelled spelledSimilarity
    dsimp only
    by_cases hexact : p.isExact = true
    · rw [if_pos hexact]
      exact (hp.exact (of_decide_eq_true hexact)).symm
    · rw [if_neg hexact, Bool.eq_false_iff.2 hexact, Bool.false_or]
      by_cases hdefault : (p.similarity == defaultSimilarity) = true
      · rw [if_pos hdefault]
        exact (hp.default hdefault).symm
      · rw [if_neg hdefault]
        exact hp.stored
  have hoffset : (ofLiteral id p.imageName (p.spelled factor)).targetOffset = p.targetOffset := by
    unfold ofLiteral spelled spelledOffset
    dsimp only
    split
    · next h => exact h.symm
    · rfl
  rw [← hsimilarity, ← hoffset]
  rfl

/-- A pattern with no attribute to say is the bare image. -/
theorem spelled_of_isDefault {p : Pattern} (hp : IsSettledSimilarity p.similarity)
    (h : p.isDefault = true) : p.spelled none = .bare p.imageName := by
  simp only [isDefault, Bool.and_eq_true, decide_eq_true_eq, Option.isNone_iff_eq_none] at h
  obtain ⟨⟨⟨hsimilarity, hoffset⟩, -⟩, hmask⟩ := h
  have hexact : p.isExact = false := by
    have hlow : ¬ exactSimilarity ≤ defaultSimilarity := by decide +kernel
    rw [isExact, hp.default hsimilarity]
    exact decide_eq_false hlow
  simp only [spelled, spelledSimilarity, spelledOffset, hexact, hsimilarity, hoffset, hmask,
    Bool.or_true, if_true]
  rfl

end Pattern

end ImageScript
