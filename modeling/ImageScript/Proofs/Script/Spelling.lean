import ImageScript.Proofs.Script.Taking
import ImageScript.Widget.Pattern
import ImageScript.Widget.Region

/-!
# Reading what was written

The tokens of a number, a name or a region that was written by itself. Each is read as what it was
written for: a number of 32 bits as the number, a plain name in quotes as the name, and a region as
one literal with the same four numbers.

Main statements: `Recognition.int?_numberTokens`, `Cursor.tokens_quoted`, `Region.here?_toText`.
-/

namespace ImageScript

namespace Text

theorem isDigit_of_mem_ofNat {n : Nat} {c : Char} (h : c ∈ ofNat n) : c.isDigit = true :=
  Nat.isDigit_of_mem_toDigits (by decide) (by decide) h

theorem ofNat_ne_nil (n : Nat) : ofNat n ≠ [] := Nat.toDigits_ne_nil

theorem digitsValue_ofNat (n : Nat) : digitsValue (ofNat n) = n := by
  have h := Nat.ofDigitChars_ten_toDigits (n := n)
  rwa [Nat.ofDigitChars_eq_foldl] at h

/-- Digits that were written for a number are read as the number. -/
theorem toNat?_ofNat (n : Nat) : toNat? (ofNat n) = some n := by
  rw [toNat?, if_pos ⟨ofNat_ne_nil n, List.all_eq_true.2 fun c => isDigit_of_mem_ofNat⟩,
    digitsValue_ofNat]

end Text

namespace Lexeme

theorem ne_of_isDigit {c d : Char} (hc : c.isDigit = true) (hd : d.isDigit = false) : c ≠ d := by
  rintro rfl
  rw [hc] at hd
  exact Bool.noConfusion hd

/-- A digit begins a number and nothing else. -/
theorem read_of_isDigit {c : Char} (h : c.isDigit = true) (r : Text) : read c r = readNumber c r := by
  have hne : ∀ d : Char, d.isDigit = false → c ≠ d := fun d hd => ne_of_isDigit h hd
  have hword : isWordStart c = false := by
    rw [Bool.eq_false_iff]
    intro hstart
    unfold isWordStart at hstart
    delta Char.isAlpha Char.isUpper Char.isLower at hstart
    simp only [Char.isDigit, Bool.or_eq_true, Bool.and_eq_true, decide_eq_true_eq,
      ge_iff_le, UInt32.le_iff_toNat_le] at hstart h
    change 48 ≤ c.toNat ∧ c.toNat ≤ 57 at h
    change ((65 ≤ c.toNat ∧ c.toNat ≤ 90) ∨ 97 ≤ c.toNat ∧ c.toNat ≤ 122) ∨ c = '_' at hstart
    rcases hstart with (hstart | hstart) | hstart
    · omega
    · omega
    · exact hne '_' (by decide) hstart
  have hquote : isQuote c = false := by
    simp [isQuote, hne '"' (by decide), hne '\x27' (by decide)]
  rw [read, if_neg (hne '#' (by decide)), if_neg (Bool.eq_false_iff.1 hquote), if_neg (Bool.eq_false_iff.1 hword),
    if_pos h]

/-- Digits are read as one number up to what is neither a digit nor a point. -/
theorem read_digits {c : Char} {ds r : Text} (hc : c.isDigit = true)
    (hds : ∀ d ∈ ds, d.isDigit = true) (hr : ∀ e ∈ r.head?, e.isDigit = false ∧ e ≠ '.') :
    read c (ds ++ r) = ⟨.number, c :: ds, r⟩ := by
  have htake : (ds ++ r).takeWhile Char.isDigit = ds := by
    rw [List.takeWhile_append_of_pos hds]
    cases r with
    | nil => simp
    | cons e r =>
      rw [List.takeWhile_cons_of_neg (by simp [(hr e rfl).1]), List.append_nil]
  have hdrop : (ds ++ r).dropWhile Char.isDigit = r := by
    rw [List.dropWhile_append_of_pos hds]
    cases r with
    | nil => rfl
    | cons e r => rw [List.dropWhile_cons_of_neg (by simp [(hr e rfl).1])]
  rw [read_of_isDigit hc, readNumber_of_not_dot, readWhile, htake, hdrop]
  · rfl
  · intro f hf
    have hrest : r = '.' :: f := hdrop.symm.trans hf
    exact (hr '.' (by rw [hrest]; rfl)).2 rfl

/-- A name without quotes and backslashes is closed by the quote behind it. -/
theorem readLine_plain {quote : Char} {name : Text} (r : Text)
    (h : ∀ c ∈ name, c ≠ '\\' ∧ c ≠ '\n' ∧ c ≠ quote) (hquote : quote ≠ '\\' ∧ quote ≠ '\n') :
    readLine quote (name ++ quote :: r) = ⟨.closed, name ++ [quote], r⟩ := by
  induction name with
  | nil =>
    rw [List.nil_append, readLine_cons quote fun _ _ heq _ => hquote.1 heq, if_neg hquote.2,
      if_pos rfl]
    rfl
  | cons c name ih =>
    obtain ⟨hslash, hline, hne⟩ := h c (List.mem_cons_self ..)
    rw [List.cons_append, readLine_cons quote fun _ _ heq _ => hslash heq, if_neg hline,
      if_neg hne, ih fun d hd => h d (List.mem_cons_of_mem c hd)]
    rfl

end Lexeme

/-- Whether a name in double quotes is one closed string. -/
structure IsQuotable (name : Text) : Prop where
  closed : (Lexeme.readLine '"' (name ++ ['"'])).termination = .closed
  text_eq : (Lexeme.readLine '"' (name ++ ['"'])).text = name ++ ['"']

theorem isQuotable_of_plain {name : Text} (h : ∀ c ∈ name, c ≠ '\\' ∧ c ≠ '\n' ∧ c ≠ '"') :
    IsQuotable name := by
  have hread := Lexeme.readLine_plain [] h (by decide)
  exact ⟨by rw [hread], by rw [hread]⟩

namespace IsQuotable

variable {name : Text}

theorem readLine_eq (h : IsQuotable name) (r : Text) :
    Lexeme.readLine '"' (name ++ '"' :: r) = ⟨.closed, name ++ ['"'], r⟩ := by
  obtain ⟨hclosed, htext⟩ := h
  have happend := Lexeme.readLine_append '"' (name ++ ['"'])
  generalize hread : Lexeme.readLine '"' (name ++ ['"']) = q at hclosed htext happend
  obtain ⟨t, m, y⟩ := q
  dsimp only at hclosed htext
  subst hclosed htext
  have hcarry : Lexeme.readLine '"' ((name ++ ['"']) ++ r) = ⟨.closed, name ++ ['"'], r⟩ :=
    Lexeme.readLine_carry (by decide) hread (Or.inl rfl)
  rwa [List.append_assoc] at hcarry

/-- A quotable name does not begin with a quote. -/
theorem head?_ne (h : IsQuotable name) : name.head? ≠ some '"' := by
  cases name with
  | nil => simp
  | cons c name =>
    intro heq
    obtain rfl := Option.some.inj heq
    have hread := h.readLine_eq []
    rw [List.cons_append, Lexeme.readLine_cons '"' fun _ _ heq _ => by simp at heq,
      if_neg (by decide), if_pos rfl, Quoted.mk.injEq] at hread
    simp at hread

end IsQuotable

namespace Cursor

@[simp] theorem tokens_nil (o : Nat) : tokens ⟨o, []⟩ = [] := tokens_of_none rfl

theorem tokens_of_read {o : Nat} {c : Char} {r text rest : Text} {kind : LexemeKind}
    (hc : Lexeme.isBlank c = false) (h : Lexeme.read c r = ⟨kind, text, rest⟩) :
    tokens ⟨o, c :: r⟩ = ⟨.ofLexeme kind, text, o⟩ :: tokens ⟨o + Text.byteLen text, rest⟩ := by
  have hnext : next? ⟨o, c :: r⟩ =
      some (⟨.ofLexeme kind, text, o⟩, ⟨o + Text.byteLen text, rest⟩) := by
    simp [next?, nextLexeme?, hc, h, Token.stop]
  exact tokens_of_some hnext

/-- A quotable name in quotes is one token, unless a quote stands behind it. -/
theorem tokens_quoted (o : Nat) {name r : Text} (h : IsQuotable name) (hr : r.head? ≠ some '"') :
    tokens ⟨o, Pattern.quoted name ++ r⟩ = ⟨.string, Pattern.quoted name, o⟩
      :: tokens ⟨o + Text.byteLen (Pattern.quoted name), r⟩ := by
  have hblock : ¬ ['"', '"'].isPrefixOf (name ++ '"' :: r) = true := by
    intro hprefix
    obtain ⟨s, hs⟩ := List.isPrefixOf_iff_prefix.1 hprefix
    cases name with
    | nil =>
      obtain rfl : '"' :: s = r := (List.cons.inj hs).2
      exact hr rfl
    | cons c name => exact h.head?_ne (congrArg some (List.cons.inj hs).1.symm)
  have hread : Lexeme.read '"' (name ++ '"' :: r) = ⟨.str .closed, '"' :: (name ++ ['"']), r⟩ := by
    rw [Lexeme.read, if_neg (by decide), if_pos (by decide), if_neg hblock, h.readLine_eq]
  have htext : Pattern.quoted name ++ r = '"' :: (name ++ '"' :: r) := by
    simp [Pattern.quoted]
  rw [htext, tokens_of_read (by decide) hread]
  rfl

end Cursor

/-- The tokens of a number that stands behind `o` bytes. -/
def numberTokens (o : Nat) : Int → List Token
  | .ofNat n => [⟨.other, Text.ofNat n, o⟩]
  | .negSucc n => [⟨.other, ['-'], o⟩, ⟨.other, Text.ofNat (n + 1), o + 1⟩]

/-- A number is read up to a sign that is no point. -/
theorem Cursor.tokens_ofInt (o : Nat) (i : Int) {e : Char} {r : Text}
    (he : e.isDigit = false ∧ e ≠ '.') : tokens ⟨o, Text.ofInt i ++ e :: r⟩ =
      numberTokens o i ++ tokens ⟨o + Text.byteLen (Text.ofInt i), e :: r⟩ := by
  have hdigits : ∀ o n, tokens ⟨o, Text.ofNat n ++ e :: r⟩ = ⟨.other, Text.ofNat n, o⟩ ::
      tokens ⟨o + Text.byteLen (Text.ofNat n), e :: r⟩ := by
    intro o n
    obtain ⟨c, ds, hn⟩ := List.exists_cons_of_ne_nil (Text.ofNat_ne_nil n)
    have hdigit : ∀ d ∈ c :: ds, d.isDigit = true := fun d hd =>
      Text.isDigit_of_mem_ofNat (hn ▸ hd)
    have hc := hdigit c (List.mem_cons_self ..)
    have hread := Lexeme.read_digits hc (fun d hd => hdigit d (List.mem_cons_of_mem c hd))
      (r := e :: r) (by simpa using he)
    rw [hn, List.cons_append, tokens_of_read ?_ hread]
    · rfl
    · simp [Lexeme.isBlank, Lexeme.ne_of_isDigit hc]
  cases i with
  | ofNat n => exact hdigits o n
  | negSucc n =>
    have hsign : Lexeme.read '-' (Text.ofNat (n + 1) ++ e :: r) =
        ⟨.punct, ['-'], Text.ofNat (n + 1) ++ e :: r⟩ := rfl
    have hoffset : o + Text.byteLen (Text.ofInt (.negSucc n)) =
        o + 1 + Text.byteLen (Text.ofNat (n + 1)) := by
      rw [Nat.add_assoc]
      rfl
    rw [hoffset, Text.ofInt, List.cons_append, tokens_of_read (by decide) hsign, hdigits]
    rfl

namespace Recognition

/-- Whether a number can be written as an argument: the least one of 32 bits cannot. -/
def IsArgument (i : Int32) : Prop := -0x80000000 < i.toInt

theorem isArgument_of_int? {arg : List Token} {i : Int32} (h : int? arg = some i) :
    IsArgument i := by
  obtain ⟨⟨negative, digits⟩, -, h⟩ := Option.bind_eq_some_iff.1 h
  obtain ⟨n, -, h⟩ := Option.bind_eq_some_iff.1 h
  split at h
  · next hn =>
    obtain rfl := Option.some.inj h
    rw [IsArgument, Int32.toInt_ofInt_of_le (by split <;> omega) (by split <;> omega)]
    split <;> omega
  · simp at h

/-- The tokens of a number are read as the number. -/
theorem int?_numberTokens (o : Nat) {i : Int32} (h : IsArgument i) :
    int? (numberTokens o i.toInt) = some i := by
  have hlt := Int32.toInt_lt i
  have hi := Int32.ofInt_toInt i
  rw [IsArgument] at h
  cases hvalue : i.toInt with
  | ofNat n =>
    rw [hvalue] at h hlt hi
    have hn : n < 0x80000000 := by
      rw [Int.ofNat_eq_natCast] at hlt
      omega
    have hsigned : signedNumber? (numberTokens o (.ofNat n)) = some (false, Text.ofNat n) := rfl
    simp only [int?, hsigned, Option.bind_some, Text.toNat?_ofNat, if_pos hn]
    exact congrArg some hi
  | negSucc n =>
    rw [hvalue] at h hlt hi
    have hn : n + 1 < 0x80000000 := by omega
    have hsigned : signedNumber? (numberTokens o (.negSucc n)) =
      some (true, Text.ofNat (n + 1)) := rfl
    simp only [int?, hsigned, Option.bind_some, Text.toNat?_ofNat, if_pos hn, if_true]
    exact congrArg some hi

end Recognition

/-! ### Regions -/

namespace CallArguments

theorem readTail?_group {g : List Token}
    (hg : ∀ t ∈ g, t.is "(" = false ∧ t.is ")" = false ∧ t.is "," = false) (ts : List Token) :
    readTail? 0 (g ++ ts) = (readTail? 0 ts).map fun r => { r with head := g ++ r.head } := by
  induction g with
  | nil => simp
  | cons t g ih =>
    obtain ⟨hopen, hclose, hcomma⟩ := hg t (List.mem_cons_self ..)
    rw [List.cons_append, readTail?]
    simp only [hopen, hclose, hcomma, Bool.false_eq_true, false_and, if_false]
    rw [ih fun u hu => hg u (List.mem_cons_of_mem t hu), Option.map_map]
    rfl

theorem readTail?_comma {t : Token} (h : t.is "," = true) (ts : List Token) : readTail? 0 (t :: ts) =
    (readTail? 0 ts).map fun r => { r with head := [], others := r.head :: r.others } := by
  have hclose := Token.is_eq_false h (show "," ≠ ")" by decide)
  rw [readTail?]
  simp [h, hclose]

theorem readTail?_close {t : Token} (h : t.is ")" = true) (ts : List Token) :
    readTail? 0 (t :: ts) = some ⟨[], [], t, ts⟩ := by
  rw [readTail?, if_pos ⟨h, rfl⟩]

end CallArguments

/-- A sign that stands behind `o` bytes. -/
def sign (c : Char) (o : Nat) : Token := ⟨.other, [c], o⟩

/-- A number is not a sign that begins, divides or ends arguments. -/
theorem is_of_mem_numberTokens {o : Nat} {i : Int} {t : Token} (h : t ∈ numberTokens o i) :
    t.is "(" = false ∧ t.is ")" = false ∧ t.is "," = false := by
  have hdigits : ∀ n, ∀ c : Char, c.isDigit = false → Text.ofNat n ≠ [c] := by
    intro n c hc heq
    have hdigit := Text.isDigit_of_mem_ofNat (heq ▸ List.mem_singleton_self c)
    rw [hc] at hdigit
    exact Bool.noConfusion hdigit
  have hnumber : ∀ o n s, (∃ c, s.toList = [c] ∧ c.isDigit = false) →
      Token.is ⟨.other, Text.ofNat n, o⟩ s = false := by
    rintro o n s ⟨c, hs, hc⟩
    simp [Token.is, hs, hdigits n c hc]
  have hnumbers : ∀ o n, ∀ t ∈ [(⟨.other, Text.ofNat n, o⟩ : Token)],
      t.is "(" = false ∧ t.is ")" = false ∧ t.is "," = false := by
    intro o n t ht
    rw [List.mem_singleton.1 ht]
    exact ⟨hnumber o n _ ⟨'(', rfl, rfl⟩, hnumber o n _ ⟨')', rfl, rfl⟩,
      hnumber o n _ ⟨',', rfl, rfl⟩⟩
  cases i with
  | ofNat n => exact hnumbers o n t h
  | negSucc n =>
    rcases List.mem_cons.1 h with rfl | h
    · exact ⟨rfl, rfl, rfl⟩
    · exact hnumbers _ _ t h

/-- A number and the sign behind it. -/
theorem Cursor.tokens_argument (o : Nat) (i : Int) {c : Char} (hc : c = ',' ∨ c = ')') (r : Text) :
    tokens ⟨o, Text.ofInt i ++ c :: r⟩ = numberTokens o i
      ++ sign c (o + Text.byteLen (Text.ofInt i))
        :: tokens ⟨o + Text.byteLen (Text.ofInt i) + 1, r⟩ := by
  rcases hc with rfl | rfl
  · have hread : Lexeme.read ',' r = ⟨.punct, [','], r⟩ := rfl
    rw [tokens_ofInt o i ⟨by decide, by decide⟩, tokens_of_read (by decide) hread]
    rfl
  · have hread : Lexeme.read ')' r = ⟨.punct, [')'], r⟩ := rfl
    rw [tokens_ofInt o i ⟨by decide, by decide⟩, tokens_of_read (by decide) hread]
    rfl

namespace Region

/-- The text behind the four numbers of a region. -/
def tail (r : Region) : Text := if r.asOffset then ".asOffset()".toList else []

theorem toText_eq (r : Region) : r.toText = "Region(".toList ++ (Text.ofInt r.x.toInt ++ ','
    :: (Text.ofInt r.y.toInt ++ ',' :: (Text.ofInt r.w.toInt ++ ','
      :: (Text.ofInt r.h.toInt ++ ')' :: r.tail)))) := by
  have hclose : ")".toList = [')'] := by decide
  unfold toText tail
  rw [hclose]
  generalize "Region(".toList = name
  generalize (if r.asOffset then ".asOffset()".toList else []) = marker
  simp only [List.append_assoc, List.cons_append, List.nil_append]

theorem tokens_call (o : Nat) (s : Text) : Cursor.tokens ⟨o, "Region(".toList ++ s⟩ =
    ⟨.other, "Region".toList, o⟩ :: sign '(' (o + 6) :: Cursor.tokens ⟨o + 7, s⟩ := by
  have hcall : "Region(".toList = ['R', 'e', 'g', 'i', 'o', 'n', '('] := by decide
  have hword : "Region".toList = ['R', 'e', 'g', 'i', 'o', 'n'] := by decide
  have hname : Lexeme.read 'R' ('e' :: 'g' :: 'i' :: 'o' :: 'n' :: '(' :: s) =
      ⟨.ident, ['R', 'e', 'g', 'i', 'o', 'n'], '(' :: s⟩ := rfl
  have hopening : Lexeme.read '(' s = ⟨.punct, ['('], s⟩ := rfl
  rw [hcall, hword]
  simp only [List.cons_append, List.nil_append]
  rw [Cursor.tokens_of_read (by decide) hname, Cursor.tokens_of_read (by decide) hopening]
  rfl

/-- The tokens of the marker that makes a region an offset. -/
theorem tokens_asOffset (o : Nat) : Cursor.tokens ⟨o, ".asOffset()".toList⟩ =
    [sign '.' o, ⟨.other, "asOffset".toList, o + 1⟩, sign '(' (o + 9), sign ')' (o + 10)] := by
  have hdot : Lexeme.read '.' "asOffset()".toList = ⟨.punct, ['.'], "asOffset()".toList⟩ := rfl
  have hname : Lexeme.read 'a' "sOffset()".toList = ⟨.ident, "asOffset".toList, "()".toList⟩ := rfl
  have hopening : Lexeme.read '(' [')'] = ⟨.punct, ['('], [')']⟩ := rfl
  have hclose : Lexeme.read ')' [] = ⟨.punct, [')'], []⟩ := rfl
  show Cursor.tokens ⟨o, '.' :: "asOffset()".toList⟩ = _
  rw [Cursor.tokens_of_read (by decide) hdot]
  show _ :: Cursor.tokens ⟨o + 1, 'a' :: "sOffset()".toList⟩ = _
  rw [Cursor.tokens_of_read (by decide) hname]
  show _ :: _ :: Cursor.tokens ⟨o + 1 + 8, '(' :: [')']⟩ = _
  rw [Cursor.tokens_of_read (by decide) hopening, Cursor.tokens_of_read (by decide) hclose,
    Cursor.tokens_nil]
  rfl

/-- Whether the four numbers of a region can be written as arguments. -/
structure IsWritable (r : Region) : Prop where
  x : Recognition.IsArgument r.x
  y : Recognition.IsArgument r.y
  w : Recognition.IsArgument r.w
  h : Recognition.IsArgument r.h

end Region

/-- Four numbers are the arguments of a call. -/
theorem CallArguments.read?_numbers (o₁ o₂ o₃ o₄ k₁ k₂ k₃ k₄ : Nat) (x y w h : Int)
    (ts : List Token) :
    read? (numberTokens o₁ x ++ sign ',' k₁ :: (numberTokens o₂ y ++ sign ',' k₂
      :: (numberTokens o₃ w ++ sign ',' k₃ :: (numberTokens o₄ h ++ sign ')' k₄ :: ts)))) =
      some ⟨[numberTokens o₁ x, numberTokens o₂ y, numberTokens o₃ w, numberTokens o₄ h],
        sign ')' k₄, ts⟩ := by
  have hargument : ∀ o i k ts, readTail? 0 (numberTokens o i ++ sign ',' k :: ts) =
      (readTail? 0 ts).map fun r => ⟨numberTokens o i, r.head :: r.others, r.close, r.rest⟩ := by
    intro o i k ts
    rw [readTail?_group fun t => is_of_mem_numberTokens, readTail?_comma rfl, Option.map_map]
    simp [Function.comp_def]
  have hlast : readTail? 0 (numberTokens o₄ h ++ sign ')' k₄ :: ts) =
      some ⟨numberTokens o₄ h, [], sign ')' k₄, ts⟩ := by
    rw [readTail?_group fun t => is_of_mem_numberTokens, readTail?_close rfl]
    simp
  rw [read?, hargument, hargument, hargument, hlast]
  simp

namespace Region

open Recognition

/-- What the marker behind a region is read as. -/
theorem asOffset?_tail (r : Region) (o : Nat) : asOffset? (Cursor.tokens ⟨o, r.tail⟩) =
    if r.asOffset then some (o + Text.byteLen r.tail, []) else none := by
  unfold tail
  cases r.asOffset with
  | false =>
    rw [if_neg Bool.false_ne_true, if_neg Bool.false_ne_true, Cursor.tokens_nil]
    rfl
  | true =>
    rw [if_pos rfl, if_pos rfl, tokens_asOffset]
    rfl

/-- The text of a region is one literal with the numbers of the region. -/
theorem here?_toText {r : Region} (hr : r.IsWritable) (o : Nat) :
    here? (Cursor.tokens ⟨o, r.toText⟩) = some ⟨.literal ⟨o, o + Text.byteLen r.toText,
      .region ⟨r.x, r.y, r.w, r.h, r.asOffset⟩⟩, []⟩ := by
  have hname : Text.byteLen "Region(".toList = 7 := by decide
  have hcomma : ∀ s, Text.byteLen (',' :: s) = 1 + Text.byteLen s := fun _ => rfl
  have hclose : Text.byteLen (')' :: r.tail) = 1 + Text.byteLen r.tail := rfl
  have hlen := congrArg Text.byteLen r.toText_eq
  simp only [Text.byteLen_append, hname, hcomma, hclose] at hlen
  rw [toText_eq, tokens_call, Cursor.tokens_argument _ _ (Or.inl rfl),
    Cursor.tokens_argument _ _ (Or.inl rfl), Cursor.tokens_argument _ _ (Or.inl rfl),
    Cursor.tokens_argument _ _ (Or.inr rfl), here?_of_region rfl, ← toText_eq, region?]
  have hstop : ∀ k, (sign ')' k).stop = k + 1 := fun _ => rfl
  have hopening : (sign '(' (o + 6)).is "(" = true := rfl
  have hhead : Token.is ⟨.other, "Region".toList, o⟩ "Region" = true := by
    simp [Token.is]
  rw [hopening, hhead, Bool.and_self, if_pos rfl, CallArguments.read?_numbers, Option.bind_some]
  simp only [List.map_cons, List.map_nil, int?_numberTokens _ hr.x, int?_numberTokens _ hr.y,
    int?_numberTokens _ hr.w, int?_numberTokens _ hr.h, asOffset?_tail]
  cases hmarker : r.asOffset with
  | false =>
    have htail : r.tail = [] := by
      rw [tail, hmarker, if_neg Bool.false_ne_true]
    rw [htail, Text.byteLen_nil] at hlen
    simp only [Bool.false_eq_true, if_false, htail, hstop, Option.some.injEq, Step.mk.injEq,
      Finding.literal.injEq, Match.mk.injEq, true_and, and_true]
    exact ⟨by omega, Cursor.tokens_nil _⟩
  | true =>
    simp only [if_true, Option.some.injEq, Step.mk.injEq, Finding.literal.injEq, Match.mk.injEq,
      true_and, and_true]
    omega

end Region

end ImageScript
