import ImageScript.Proofs.Script.NestedTokens
import ImageScript.Proofs.Script.Parentheses
import Mathlib.Data.List.Induction

/-!
# Suffix calls and their arguments

The reader of a chain takes exactly the suffix calls of the grammar, one behind the other, and what
it collects is the last attribute of each kind. Numbers are told by the tokens of a text only, in
which what begins with a digit is no string.

Main statements: `Grammar.int?_eq_some_iff`, `Grammar.float?_eq_some_iff`, `Grammar.read?_joined`,
`Grammar.SuffixCalls.readSuffixes_eq`, `Grammar.exists_suffixCalls`.
-/

namespace ImageScript

/-! ### The tokens of a text -/

/-- What the kind of a token tells of its text and the other way round. -/
structure Token.IsRead (t : Token) : Prop where
  content : t.kind = .string → t.content?.isSome = true
  number : ∀ c ∈ t.text.head?, c.isDigit = true ∨ c = '.' → t.kind = .other

namespace Cursor

theorem isRead_of_next? {p q : Cursor} {t : Token} (h : p.next? = some (t, q)) : t.IsRead := by
  obtain ⟨blanks, c, m, k, -, hread, rfl, -, -⟩ := exists_of_next? h
  constructor
  · intro hkind
    have hshape := Lexeme.shape_read c (m ++ q.rest)
    rw [hread] at hshape
    dsimp only at hkind hshape
    generalize htext : c :: m = text at hshape ⊢
    cases hshape with
    | comment => cases hkind
    | docString _ e => cases e <;> cases hkind
    | closed => simp [Token.content?, TokenKind.ofLexeme]
    | unclosed => cases hkind
    | plain hplain => rcases hplain with rfl | rfl | rfl <;> cases hkind
  · intro d hd hnumber
    obtain rfl : c = d := Option.some.inj hd
    have hkind : k = .number ∨ k = .punct := by
      rw [show k = (Lexeme.read c (m ++ q.rest)).kind by rw [hread]]
      rcases hnumber with hdigit | rfl
      · rw [Lexeme.read_of_isDigit hdigit]
        exact Or.inl (Lexeme.readNumber_kind _)
      · have hdot : Lexeme.read '.' (m ++ q.rest) = if (m ++ q.rest).head?.any Char.isDigit then
            Lexeme.readWhile .number ['.'] Char.isDigit (m ++ q.rest)
            else ⟨.punct, ['.'], m ++ q.rest⟩ := by
          simp [Lexeme.read, Lexeme.isQuote, Lexeme.isWordStart]
        rw [hdot]
        split
        · exact Or.inl rfl
        · exact Or.inr rfl
    rcases hkind with rfl | rfl <;> rfl

theorem isRead_of_mem_tokens (p : Cursor) : ∀ t ∈ p.tokens, t.IsRead := by
  fun_induction tokens p with
  | case1 => exact fun t ht => absurd ht List.not_mem_nil
  | case2 p t q hnext ih =>
    intro u hu
    rcases List.mem_cons.1 hu with rfl | hu
    · exact isRead_of_next? hnext
    · exact ih u hu

end Cursor

/-! ### Numbers -/

namespace Grammar

variable {us : List Token} {negative : Bool} {digits ds : Text} {c : Char}

theorem Signed.signedNumber?_eq (h : Signed us negative digits) :
    Recognition.signedNumber? us = some (negative, digits) := by
  cases h with
  | plain number => simp [Recognition.signedNumber?, number]
  | plus sign number =>
    have hminus := Token.is_eq_false sign (show "+" ≠ "-" by decide)
    simp [Recognition.signedNumber?, sign, hminus]
  | minus sign number => simp [Recognition.signedNumber?, sign]

theorem signed_of_signedNumber? (hus : ∀ t ∈ us, t.IsRead)
    (h : Recognition.signedNumber? us = some (negative, c :: ds))
    (hc : c.isDigit = true ∨ c = '.') : Signed us negative (c :: ds) := by
  unfold Recognition.signedNumber? at h
  split at h
  · next n =>
    split at h
    · next hkind =>
      obtain ⟨rfl, htext⟩ := Prod.mk.inj (Option.some.inj h)
      rw [← htext]
      exact .plain hkind
    · cases h
  · next s n =>
    -- Behind a sign any kind of token is taken, but no string begins with a digit or a point.
    have hkind : n.text = c :: ds → n.kind = .other := by
      intro htext
      exact (hus n (by simp)).number c (by rw [htext]; rfl) hc
    split at h
    · next hsign =>
      obtain ⟨rfl, htext⟩ := Prod.mk.inj (Option.some.inj h)
      rw [← htext]
      exact .minus hsign (hkind htext)
    · split at h
      · next hsign =>
        obtain ⟨rfl, htext⟩ := Prod.mk.inj (Option.some.inj h)
        rw [← htext]
        exact .plus hsign (hkind htext)
      · cases h
  · cases h

theorem exists_digits_of_toNat? {n : Nat} (h : Text.toNat? digits = some n) :
    ∃ c ds, digits = c :: ds ∧ c.isDigit = true := by
  unfold Text.toNat? at h
  split at h
  · next hdigits =>
    obtain ⟨c, ds, rfl⟩ := List.exists_cons_of_ne_nil hdigits.1
    exact ⟨c, ds, rfl, by simpa using And.left (by simpa using hdigits.2)⟩
  · cases h

theorem int?_eq_some_iff (hus : ∀ t ∈ us, t.IsRead) {i : Int32} :
    Recognition.int? us = some i ↔ WholeNumber us i := by
  constructor
  · intro h
    obtain ⟨⟨negative, digits⟩, hsigned, h⟩ := Option.bind_eq_some_iff.1 h
    obtain ⟨n, hn, hfits⟩ := Option.bind_eq_some_iff.1 h
    obtain ⟨c, ds, rfl, hc⟩ := exists_digits_of_toNat? hn
    split at hfits
    · next hlt =>
      obtain rfl := Option.some.inj hfits
      refine ⟨negative, _, n, signed_of_signedNumber? hus hsigned (Or.inl hc), hn, hlt, ?_⟩
      rw [Int32.toInt_ofInt_of_le (by split <;> omega) (by split <;> omega)]
    · cases hfits
  · rintro ⟨negative, digits, n, hsigned, hn, hlt, hi⟩
    simp only [Recognition.int?, hsigned.signedNumber?_eq, Option.bind_some, hn, if_pos hlt, ← hi,
      Int32.ofInt_toInt]

theorem float?_eq_some_iff (hus : ∀ t ∈ us, t.IsRead) {x : Float} :
    Recognition.float? us = some x ↔ DecimalNumber us x := by
  constructor
  · intro h
    obtain ⟨⟨negative, digits⟩, hsigned, h⟩ := Option.bind_eq_some_iff.1 h
    dsimp only at h
    split at h
    · next hc =>
      obtain ⟨y, hy, rfl⟩ := Option.map_eq_some_iff.1 h
      cases digits with
      | nil => simp at hc
      | cons c ds =>
        have hc : c.isDigit = true ∨ c = '.' := by simpa using hc
        exact ⟨negative, c, ds, y, signed_of_signedNumber? hus hsigned hc, hc, hy, rfl⟩
    · cases h
  · rintro ⟨negative, c, ds, y, hsigned, hc, hy, rfl⟩
    have hc : (c :: ds).head?.any (fun c => c.isDigit || c = '.') = true := by simpa using hc
    simp only [Recognition.float?, hsigned.signedNumber?_eq, Option.bind_some, if_pos hc, hy,
      Option.map_some]

/-! ### Arguments -/

/-- Whether a token neither begins, divides nor ends arguments. -/
def IsPlain (t : Token) : Prop := t.is "(" = false ∧ t.is ")" = false ∧ t.is "," = false

theorem isPlain_of_is {t : Token} {word : String} (h : t.is word = true)
    (hword : word ∉ ["(", ")", ","]) : IsPlain t := by
  simp only [List.mem_cons, List.not_mem_nil, or_false, not_or] at hword
  exact ⟨Token.is_eq_false h hword.1, Token.is_eq_false h hword.2.1, Token.is_eq_false h hword.2.2⟩

theorem isPlain_of_kind {t : Token} (h : t.kind ≠ .other) : IsPlain t := by
  have hword : ∀ word, t.is word = false := fun word =>
    Bool.eq_false_iff.2 fun his => h (Token.kind_of_is his)
  exact ⟨hword _, hword _, hword _⟩

theorem isPlain_of_digits {t : Token} (h : t.text = c :: ds) (hc : c.isDigit = true ∨ c = '.') :
    IsPlain t := by
  have hword : ∀ word : String, ∀ d, word.toList = [d] → d.isDigit = false → d ≠ '.' →
      t.is word = false := by
    intro word d hd hdigit hpoint
    refine Bool.eq_false_iff.2 fun his => ?_
    have htext := (Token.text_of_is his).symm.trans h
    rw [hd] at htext
    obtain rfl := (List.cons.inj htext).1
    rcases hc with hc | hc
    · rw [hdigit] at hc
      cases hc
    · exact hpoint hc
  exact ⟨hword _ '(' rfl (by decide) (by decide), hword _ ')' rfl (by decide) (by decide),
    hword _ ',' rfl (by decide) (by decide)⟩

theorem Signed.isPlain (h : Signed us negative (c :: ds)) (hc : c.isDigit = true ∨ c = '.') :
    us ≠ [] ∧ ∀ t ∈ us, IsPlain t := by
  generalize hdigits : c :: ds = digits at h
  cases h with
  | plain number =>
    refine ⟨List.cons_ne_nil _ _, fun t ht => ?_⟩
    rw [List.mem_singleton.1 ht]
    exact isPlain_of_digits hdigits.symm hc
  | plus sign number | minus sign number =>
    refine ⟨List.cons_ne_nil _ _, fun t ht => ?_⟩
    rcases List.mem_cons.1 ht with rfl | ht
    · exact isPlain_of_is sign (by decide)
    · rw [List.mem_singleton.1 ht]
      exact isPlain_of_digits hdigits.symm hc

theorem WholeNumber.isPlain {i : Int32} (h : WholeNumber us i) :
    us ≠ [] ∧ ∀ t ∈ us, IsPlain t := by
  obtain ⟨negative, digits, n, hsigned, hn, -, -⟩ := h
  obtain ⟨c, ds, rfl, hc⟩ := exists_digits_of_toNat? hn
  exact hsigned.isPlain (Or.inl hc)

theorem DecimalNumber.isPlain {x : Float} (h : DecimalNumber us x) :
    us ≠ [] ∧ ∀ t ∈ us, IsPlain t := by
  obtain ⟨negative, c, ds, y, hsigned, hc, -, -⟩ := h
  exact hsigned.isPlain hc

/-- The arguments of a suffix stand in no further parentheses, and none is missing. -/
theorem Arguments.isPlain {a : Attribute} {groups : List (List Token)} (h : Arguments a groups) :
    ∀ g ∈ groups, g ≠ [] ∧ ∀ t ∈ g, IsPlain t := by
  cases h with
  | exact | transparent => simp
  | similar number | resize number => simpa using number.isPlain
  | targetOffset dx_number dy_number => simpa using ⟨dx_number.isPlain, dy_number.isPlain⟩
  | image content =>
    rename_i t name
    have hkind : t.kind ≠ .other := by
      intro hkind
      simp [Token.content?, hkind] at content
    simpa using isPlain_of_kind hkind

variable {groups : List (List Token)} {args rest : List Token} {close : Token}

theorem joined_of_read? {ts : List Token} {a : CallArguments} (h : CallArguments.read? ts = some a) :
    ∃ args, ts = args ++ a.close :: a.rest ∧ a.close.is ")" = true ∧ Joined a.groups args := by
  obtain ⟨args, hts, hclose, hdivides, -⟩ := CallArguments.read?_eq_some_iff.1 h
  exact ⟨args, hts, hclose, hdivides.joined⟩

theorem undivided_of_isPlain {g : List Token} (h : ∀ t ∈ g, IsPlain t) :
    CallArguments.Undivided g := by
  induction g with
  | nil => exact .nil
  | cons t g ih =>
    obtain ⟨hopening, hclosing, hcomma⟩ := h t List.mem_cons_self
    exact .plain hopening hclosing hcomma (ih fun u hu => h u (List.mem_cons_of_mem t hu))

/-- Joined groups are read as the arguments of a call. -/
theorem read?_joined (hplain : ∀ g ∈ groups, g ≠ [] ∧ ∀ t ∈ g, IsPlain t)
    (hclose : close.is ")" = true) (h : Joined groups args) (rest : List Token) :
    CallArguments.read? (args ++ close :: rest) = some ⟨groups, close, rest⟩ := by
  refine CallArguments.read?_eq_some_iff.2 ⟨args, rfl, hclose,
    ⟨h, fun g hg => undivided_of_isPlain (hplain g hg).2⟩, ?_⟩
  cases h with
  | none => simp
  | last => simpa using (hplain args List.mem_cons_self).1
  | more => simp

/-! ### Suffix calls -/

/-- A pattern with one more attribute. -/
def Attribute.set (p : PatternLiteral) : Attribute → PatternLiteral
  | exact => { p with exact := true, similarity := none }
  | similar value => { p with similarity := some value, exact := false }
  | targetOffset dx dy => { p with targetOffset := some (dx, dy) }
  | resize factor => { p with resize := some factor }
  | mask m => { p with mask := some m }

variable {a : Attribute} {as : List Attribute} {image : Text} {p q : PatternLiteral}

theorem pattern_append (image : Text) (as : List Attribute) (a : Attribute) :
    pattern image (as ++ [a]) = a.set (pattern image as) := by
  cases a <;> simp [pattern, Attribute.set, Attribute.similarity?, Attribute.targetOffset?,
    Attribute.resize?, Attribute.mask?]

/-- Attributes that are set one behind the other leave the last one of each kind. -/
theorem foldl_set (image : Text) (as : List Attribute) :
    as.foldl Attribute.set (.bare image) = pattern image as := by
  induction as using List.reverseRecOn with
  | nil => rfl
  | append_singleton as a ih => rw [List.foldl_append, ih, pattern_append]; rfl

theorem Arguments.applySuffix_eq (h : Arguments a groups) (hread : ∀ g ∈ groups, ∀ t ∈ g, t.IsRead)
    (p : PatternLiteral) (pos : Nat) :
    Recognition.applySuffix p a.suffix pos groups = .ok (a.set p) := by
  cases h with
  | exact | transparent => rfl
  | similar number low high =>
    have hvalue := (float?_eq_some_iff (hread _ (by simp))).2 number
    simp only [Attribute.suffix, Recognition.applySuffix, hvalue, if_pos (And.intro low high)]
    rfl
  | targetOffset dx_number dy_number =>
    have hdx := (int?_eq_some_iff (hread _ (by simp))).2 dx_number
    have hdy := (int?_eq_some_iff (hread _ (by simp))).2 dy_number
    simp only [Attribute.suffix, Recognition.applySuffix, hdx, hdy]
    rfl
  | resize number positive =>
    have hvalue := (float?_eq_some_iff (hread _ (by simp))).2 number
    simp only [Attribute.suffix, Recognition.applySuffix, hvalue, if_neg positive]
    rfl
  | image content =>
    rename_i t name
    have hkind : t.kind = .string := by
      unfold Token.content? at content
      split at content
      · next h => exact h.1
      · cases content
    simp only [Attribute.suffix, Recognition.applySuffix, hkind, content]
    rfl

/-- A suffix whose arguments are accepted sets its attribute. -/
theorem exists_arguments (hread : ∀ g ∈ groups, ∀ t ∈ g, t.IsRead) {suffix : Suffix} {pos : Nat}
    (h : Recognition.applySuffix p suffix pos groups = .ok q) :
    ∃ a : Attribute, a.suffix = suffix ∧ Arguments a groups ∧ q = a.set p := by
  unfold Recognition.applySuffix at h
  split at h
  · obtain rfl := Except.ok.inj h
    exact ⟨.exact, rfl, .exact, rfl⟩
  · split at h
    · cases h
    · next value hvalue =>
      split at h
      · next hrange =>
        obtain rfl := Except.ok.inj h
        have number := (float?_eq_some_iff (hread _ (by simp))).1 hvalue
        exact ⟨.similar value, rfl, .similar number hrange.1 hrange.2, rfl⟩
      · cases h
  · split at h
    · cases h
    · cases h
    · next dx dy hdx hdy =>
      obtain rfl := Except.ok.inj h
      have dx_number := (int?_eq_some_iff (hread _ (by simp))).1 hdx
      have dy_number := (int?_eq_some_iff (hread _ (by simp))).1 hdy
      exact ⟨.targetOffset dx dy, rfl, .targetOffset dx_number dy_number, rfl⟩
  · split at h
    · cases h
    · next value hvalue =>
      split at h
      · cases h
      · next hpositive =>
        obtain rfl := Except.ok.inj h
        have number := (float?_eq_some_iff (hread _ (by simp))).1 hvalue
        exact ⟨.resize value, rfl, .resize number hpositive, rfl⟩
  · obtain rfl := Except.ok.inj h
    exact ⟨.mask .transparent, rfl, .transparent, rfl⟩
  · split at h
    · next t =>
      split at h
      · next hkind =>
        obtain rfl := Except.ok.inj h
        have hcontent := (hread [t] (by simp) t (by simp)).content hkind
        obtain ⟨name, hname⟩ := Option.isSome_iff_exists.1 hcontent
        exact ⟨.mask (.image name), rfl, .image hname, by rw [hname]; rfl⟩
      · cases h
    · cases h
  all_goals cases h

theorem suffixCall?_of_is {dot name opening : Token} {suffix : Suffix} (hdot : dot.is "." = true)
    (hname : name.is suffix.name = true) (hopening : opening.is "(" = true) (rest : List Token) :
    Recognition.suffixCall? (dot :: name :: opening :: rest) = some (suffix, name, opening, rest) := by
  have hother : ∀ s, s ≠ suffix → name.is (Suffix.name s) = false := by
    intro s hs
    refine Token.is_eq_false hname ?_
    revert hs
    cases s <;> cases suffix <;> decide
  have hfind : (Suffix.all.find? fun s => name.is s.name) = some suffix := by
    cases suffix <;> simp [Suffix.all, hname, hother]
  simp [Recognition.suffixCall?, hdot, hopening, hfind]

theorem suffixCall?_eq_none_iff {ts : List Token} :
    Recognition.suffixCall? ts = none ↔ ¬ CallBegins ts := by
  constructor
  · rintro h ⟨dot, name, opening, suffix, rest, rfl, hdot, hname, hopening⟩
    rw [suffixCall?_of_is hdot hname hopening] at h
    cases h
  · intro h
    cases hcall : Recognition.suffixCall? ts with
    | none => rfl
    | some call =>
      obtain ⟨suffix, name, opening, rest⟩ := call
      obtain ⟨dot, rfl, hdot, hname, hopening, -⟩ := Recognition.exists_of_suffixCall? hcall
      exact absurd ⟨dot, name, opening, suffix, rest, rfl, hdot, hname, hopening⟩ h

theorem Joined.mem (h : Joined groups args) : ∀ g ∈ groups, ∀ t ∈ g, t ∈ args := by
  induction h with
  | none => simp
  | last us => simp
  | more first sign later ih =>
    intro g hg t ht
    rcases List.mem_cons.1 hg with rfl | hg
    · exact List.mem_append_left _ ht
    · exact List.mem_append_right _ (List.mem_cons_of_mem _ (ih g hg t ht))

/-- Where a chain ends that ended at `stop` before some more tokens. -/
def stopBehind (stop : Nat) (us : List Token) : Nat := (us.getLast?.map Token.stop).getD stop

theorem stopBehind_append (stop : Nat) (us vs : List Token) :
    stopBehind stop (us ++ vs) = stopBehind (stopBehind stop us) vs := by
  rw [stopBehind, List.getLast?_append]
  cases h : vs.getLast? <;> simp [stopBehind, h]

theorem getLast?_stop (us : List Token) (close : Token) (vs : List Token) :
    (us ++ close :: vs).getLast?.map Token.stop = some (stopBehind close.stop vs) := by
  rw [List.getLast?_append, List.getLast?_cons]
  cases h : vs.getLast? <;> simp [stopBehind, h]

theorem stopBehind_call (stop : Nat) (dot name opening close : Token) (args : List Token) :
    stopBehind stop (dot :: name :: opening :: (args ++ [close])) = close.stop := by
  simp [stopBehind, List.getLast?_cons]

/-- Suffix calls are read one behind the other, and each sets its attribute. -/
theorem SuffixCalls.readSuffixes_eq (h : SuffixCalls us as) (hread : ∀ t ∈ us, t.IsRead)
    (start : Nat) (p : PatternLiteral) (stop : Nat) (rest : List Token) :
    Recognition.readSuffixes start p stop (us ++ rest) =
      Recognition.readSuffixes start (as.foldl Attribute.set p) (stopBehind stop us) rest := by
  induction h generalizing p stop with
  | nil => rfl
  | @cons us vs a as call later ih =>
    cases call with
    | @call dot name opening close args groups a dot_sign name_word opening_sign joined arguments
        close_sign =>
      have hcall := suffixCall?_of_is dot_sign name_word opening_sign (args ++ close :: (vs ++ rest))
      have hargs := read?_joined arguments.isPlain close_sign joined (vs ++ rest)
      have happly := arguments.applySuffix_eq
        (fun g hg t ht => hread t (by simp [joined.mem g hg t ht])) p name.offset
      have hstep := @Recognition.readSuffixes_of_read start stop p _ _ _ _ _ _ hcall hargs
      rw [happly] at hstep
      have heq : dot :: name :: opening :: (args ++ [close]) ++ vs ++ rest =
          dot :: name :: opening :: (args ++ close :: (vs ++ rest)) := by simp
      rw [heq, hstep, stopBehind_append, stopBehind_call]
      exact ih (fun t ht => hread t (List.mem_append_right _ ht)) (a.set p) close.stop

/-- What a chain is read from are suffix calls, behind which no other one begins. -/
theorem exists_suffixCalls (start : Nat) (p : PatternLiteral) (stop : Nat) (ts : List Token)
    (hread : ∀ t ∈ ts, t.IsRead) {m : Match}
    (h : (Recognition.readSuffixes start p stop ts).finding = .literal m) :
    ∃ us as, ts = us ++ (Recognition.readSuffixes start p stop ts).rest ∧ SuffixCalls us as
      ∧ ¬ CallBegins (Recognition.readSuffixes start p stop ts).rest
      ∧ m = ⟨start, stopBehind stop us, .chain (as.foldl Attribute.set p)⟩ := by
  fun_induction Recognition.readSuffixes start p stop ts with
  | case1 p stop ts hcall =>
    obtain rfl := Finding.literal.inj h
    exact ⟨[], [], rfl, .nil, suffixCall?_eq_none_iff.1 hcall, rfl⟩
  | case2 => cases h
  | case3 => cases h
  | case4 p stop ts suffix name opening rest hcall args hargs q hq ih =>
    obtain ⟨dot, rfl, hdot, hname, hopening, -⟩ := Recognition.exists_of_suffixCall? hcall
    obtain ⟨vs, rfl, hclose, hjoined⟩ := joined_of_read? hargs
    obtain ⟨a, rfl, harguments, rfl⟩ := exists_arguments
      (fun g hg t ht => hread t (by simp [hjoined.mem g hg t ht])) hq
    obtain ⟨us, as, hus, hcalls, hends, rfl⟩ := ih (fun t ht => hread t (by simp [ht])) h
    refine ⟨dot :: name :: opening :: (vs ++ [args.close]) ++ us, a :: as, ?_,
      .cons (.call hdot hname hopening hjoined harguments hclose) hcalls, hends, ?_⟩
    · rw [List.cons_append, List.cons_append, List.cons_append, List.cons_append,
        List.cons_append, List.cons_append, List.append_assoc, List.append_assoc, ← hus]
      rfl
    · rw [stopBehind_append, stopBehind_call]
      rfl

end Grammar

end ImageScript
