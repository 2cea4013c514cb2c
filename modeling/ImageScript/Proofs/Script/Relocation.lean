import ImageScript.Proofs.Script.ImageMentions

/-!
# Recognition at another place

What a part of a text is read as depends on its characters alone: at another place of a larger text
the same tokens and literals are found, moved by as many bytes. And everything found in a part lies
within it.

Main statements: `Cursor.tokens_shift`, `Recognition.here?_shift`, `recognize_middle`,
`within_of_mem_recognizeAll`.
-/

namespace ImageScript

namespace Token

/-- A token `k` bytes further on. -/
def shift (k : Nat) (t : Token) : Token := { t with offset := k + t.offset }

variable (k : Nat) (t : Token)

@[simp] theorem kind_shift : (t.shift k).kind = t.kind := rfl

@[simp] theorem text_shift : (t.shift k).text = t.text := rfl

@[simp] theorem offset_shift : (t.shift k).offset = k + t.offset := rfl

@[simp] theorem stop_shift : (t.shift k).stop = k + t.stop := by
  simp only [stop, offset_shift, text_shift]
  omega

@[simp] theorem is_shift (s : String) : (t.shift k).is s = t.is s := by
  cases t
  rfl

@[simp] theorem content?_shift : (t.shift k).content? = t.content? := by
  cases t
  rfl

@[simp] theorem isDoubleQuoted_shift : (t.shift k).isDoubleQuoted = t.isDoubleQuoted := by
  cases t
  rfl

/-- Whether both ends of a token are boundaries of a text. -/
structure Within (s : Text) (t : Token) : Prop where
  start : s.Boundary t.offset
  stop : s.Boundary t.stop

end Token

namespace Cursor

theorem nextLexeme?_shift (k offset : Nat) (s : Text) :
    nextLexeme? (k + offset) s = (nextLexeme? offset s).map fun p => (k + p.1, p.2) := by
  induction s generalizing offset with
  | nil => rfl
  | cons c r ih =>
    simp only [nextLexeme?]
    split
    · rw [Nat.add_assoc, ih]
    · rfl

theorem next?_shift (k offset : Nat) (s : Text) :
    next? ⟨k + offset, s⟩ = (next? ⟨offset, s⟩).map fun p =>
      (p.1.shift k, ⟨k + p.2.offset, p.2.rest⟩) := by
  simp only [next?, nextLexeme?_shift, Option.map_map]
  cases nextLexeme? offset s with
  | none => rfl
  | some p =>
    simp only [Option.map_some, Function.comp_def, Token.shift, Token.stop]
    rw [Nat.add_assoc]

theorem tokens_of_none {p : Cursor} (h : p.next? = none) : p.tokens = [] := by
  rw [tokens]
  split
  · rfl
  · next h' => rw [h] at h'; simp at h'

theorem tokens_of_some {p q : Cursor} {t : Token} (h : p.next? = some (t, q)) :
    p.tokens = t :: q.tokens := by
  rw [tokens]
  split
  · next h' => rw [h] at h'; simp at h'
  · next h' =>
    rw [h, Option.some.injEq, Prod.mk.injEq] at h'
    obtain ⟨rfl, rfl⟩ := h'
    rfl

theorem tokens_eq_of_next? {p q : Cursor} (h : p.next? = q.next?) : p.tokens = q.tokens := by
  cases hq : q.next? with
  | none => rw [tokens_of_none hq, tokens_of_none (h.trans hq)]
  | some r => rw [tokens_of_some hq, tokens_of_some (h.trans hq)]

/-- A text holds the same tokens wherever it stands. -/
theorem tokens_shift (k : Nat) (p : Cursor) :
    tokens ⟨k + p.offset, p.rest⟩ = p.tokens.map (Token.shift k) := by
  fun_induction tokens p with
  | case1 p hnext =>
    have h : next? ⟨k + p.offset, p.rest⟩ = none := by rw [next?_shift, hnext]; rfl
    rw [tokens_of_none h]
    rfl
  | case2 p t q hnext ih =>
    have h : next? ⟨k + p.offset, p.rest⟩ = some (t.shift k, ⟨k + q.offset, q.rest⟩) := by
      rw [next?_shift, hnext]
      rfl
    rw [tokens_of_some h, List.map_cons, ← ih]

theorem nextLexeme?_append {offset o : Nat} {s : Text} {l : Lexeme}
    (h : nextLexeme? offset s = some (o, l)) :
    ∃ blanks, s = blanks ++ l.text ++ l.rest ∧ o = offset + Text.byteLen blanks := by
  induction s generalizing offset with
  | nil => simp [nextLexeme?] at h
  | cons c r ih =>
    simp only [nextLexeme?] at h
    split at h
    · obtain ⟨blanks, hr, ho⟩ := ih h
      refine ⟨c :: blanks, by simp [hr], ?_⟩
      rw [Text.byteLen_cons]
      omega
    · simp only [Option.some.injEq, Prod.mk.injEq] at h
      obtain ⟨rfl, rfl⟩ := h
      exact ⟨[], by simp [Lexeme.read_text_append], by simp⟩

/-- The ends of every token are boundaries of the text, also where some of it was read before. -/
theorem within_of_mem_tokens (before : Text) (p : Cursor) (hp : p.offset = Text.byteLen before) :
    ∀ t ∈ p.tokens, t.Within (before ++ p.rest) := by
  fun_induction tokens p generalizing before with
  | case1 => exact fun t ht => absurd ht List.not_mem_nil
  | case2 p t q hnext ih =>
    obtain ⟨⟨o, l⟩, hl, hq⟩ := Option.map_eq_some_iff.1 hnext
    simp only [Prod.mk.injEq] at hq
    obtain ⟨rfl, rfl⟩ := hq
    obtain ⟨blanks, hrest, rfl⟩ := nextLexeme?_append hl
    have hstop : p.offset + Text.byteLen blanks + Text.byteLen l.text
        = Text.byteLen (before ++ blanks ++ l.text) := by
      rw [Text.byteLen_append, Text.byteLen_append, hp]
    intro u hu
    rcases List.mem_cons.1 hu with rfl | hu
    · refine ⟨⟨before ++ blanks, l.text ++ l.rest, by simp [hrest], ?_⟩,
        ⟨before ++ blanks ++ l.text, l.rest, by simp [hrest], hstop.symm⟩⟩
      rw [Text.byteLen_append, hp]
    · have hmem := ih (before ++ blanks ++ l.text) hstop u hu
      rw [hrest]
      simpa using hmem

/-- A token is not empty and stands behind the place from which it is read. -/
theorem offset_lt_stop_of_mem_tokens (p : Cursor) :
    ∀ t ∈ p.tokens, p.offset ≤ t.offset ∧ t.offset < t.stop := by
  fun_induction tokens p with
  | case1 => exact fun t ht => absurd ht List.not_mem_nil
  | case2 p t q hnext ih =>
    have hne := (next?_length hnext).1
    obtain ⟨⟨o, l⟩, hl, hq⟩ := Option.map_eq_some_iff.1 hnext
    simp only [Prod.mk.injEq] at hq
    obtain ⟨rfl, rfl⟩ := hq
    obtain ⟨blanks, -, rfl⟩ := nextLexeme?_append hl
    have hpos := Text.byteLen_pos hne
    intro u hu
    rcases List.mem_cons.1 hu with rfl | hu
    · simp only [Token.stop] at hpos ⊢
      omega
    · obtain ⟨hle, hlt⟩ := ih u hu
      simp only [Token.stop] at hle
      exact ⟨by omega, hlt⟩

/-- Tokens stand one behind the other. -/
theorem pairwise_tokens (p : Cursor) : p.tokens.Pairwise fun t u => t.stop ≤ u.offset := by
  fun_induction tokens p with
  | case1 => exact .nil
  | case2 p t q hnext ih =>
    obtain ⟨⟨o, l⟩, -, hq⟩ := Option.map_eq_some_iff.1 hnext
    simp only [Prod.mk.injEq] at hq
    obtain ⟨rfl, rfl⟩ := hq
    exact .cons (fun u hu => (offset_lt_stop_of_mem_tokens _ u hu).1) ih

end Cursor

theorem within_of_mem_tokenize {s : Text} : ∀ t ∈ tokenize s, t.Within s :=
  Cursor.within_of_mem_tokens [] ⟨0, s⟩ rfl

theorem offset_lt_stop_of_mem_tokenize {s : Text} : ∀ t ∈ tokenize s, t.offset < t.stop :=
  fun t ht => (Cursor.offset_lt_stop_of_mem_tokens ⟨0, s⟩ t ht).2

theorem pairwise_tokenize (s : Text) : (tokenize s).Pairwise fun t u => t.stop ≤ u.offset :=
  Cursor.pairwise_tokens ⟨0, s⟩

namespace Match

/-- A literal `k` bytes further on. -/
def shift (k : Nat) (m : Match) : Match := ⟨k + m.start, k + m.stop, m.literal⟩

/-- Whether both ends of a literal are boundaries of a text. -/
structure Within (s : Text) (m : Match) : Prop where
  start : s.Boundary m.start
  stop : s.Boundary m.stop

end Match

namespace CallArguments

/-- The tail of a call `k` bytes further on. -/
def Tail.shift (k : Nat) (r : Tail) : Tail :=
  ⟨r.head.map (Token.shift k), r.others.map (List.map (Token.shift k)), r.close.shift k,
    r.rest.map (Token.shift k)⟩

theorem readTail?_shift (k depth : Nat) (ts : List Token) :
    readTail? depth (ts.map (Token.shift k)) = (readTail? depth ts).map (Tail.shift k) := by
  induction ts generalizing depth with
  | nil => rfl
  | cons t ts ih =>
    simp only [List.map_cons, readTail?, Token.is_shift]
    by_cases hclose : t.is ")" ∧ depth = 0
    · rw [if_pos hclose, if_pos hclose]
      rfl
    · rw [if_neg hclose, if_neg hclose]
      by_cases hcomma : t.is "," ∧ depth = 0
      · rw [if_pos hcomma, if_pos hcomma, ih]
        cases readTail? 0 ts <;> rfl
      · rw [if_neg hcomma, if_neg hcomma, ih]
        cases readTail? _ ts <;> rfl

theorem read?_shift (k : Nat) (ts : List Token) :
    read? (ts.map (Token.shift k)) = (read? ts).map fun a =>
      ⟨a.groups.map (List.map (Token.shift k)), a.close.shift k, a.rest.map (Token.shift k)⟩ := by
  simp only [read?, readTail?_shift]
  cases readTail? 0 ts with
  | none => rfl
  | some r =>
    simp only [Option.map_some, Tail.shift, List.map_eq_nil_iff]
    split <;> rfl

theorem close_mem {ts : List Token} {a : CallArguments} (h : read? ts = some a) :
    a.close ∈ ts := by
  have htail : ∀ (ts : List Token) (depth : Nat) (r : Tail), readTail? depth ts = some r →
      r.close ∈ ts := by
    intro ts
    induction ts with
    | nil => intro depth r h; simp [readTail?] at h
    | cons t ts ih =>
      intro depth r h
      simp only [readTail?] at h
      split at h
      · obtain rfl := Option.some.inj h
        exact List.mem_cons_self ..
      · split at h
        all_goals
          obtain ⟨r', hr, rfl⟩ := Option.map_eq_some_iff.1 h
          have hmem := ih _ _ hr
          exact List.mem_cons_of_mem _ hmem
  obtain ⟨r, hr, rfl⟩ := Option.map_eq_some_iff.1 h
  exact htail ts 0 r hr

end CallArguments

namespace Recognition

theorem signedNumber?_shift (k : Nat) (arg : List Token) :
    signedNumber? (arg.map (Token.shift k)) = signedNumber? arg := by
  match arg with
  | [] => rfl
  | [_] => rfl
  | [s, n] => simp only [List.map_cons, List.map_nil, signedNumber?, Token.is_shift, Token.text_shift]
  | _ :: _ :: _ :: _ => rfl

theorem float?_shift (k : Nat) (arg : List Token) :
    float? (arg.map (Token.shift k)) = float? arg := by
  unfold float?
  rw [signedNumber?_shift]

theorem int?_shift (k : Nat) (arg : List Token) : int? (arg.map (Token.shift k)) = int? arg := by
  unfold int?
  rw [signedNumber?_shift]

/-- Only the error of a suffix call knows where the call stands. -/
theorem applySuffix_shift (k : Nat) (p : PatternLiteral) (suffix : Suffix) (pos pos' : Nat)
    (args : List (List Token)) :
    (applySuffix p suffix pos' (args.map (List.map (Token.shift k)))).toOption =
      (applySuffix p suffix pos args).toOption := by
  cases suffix with
  | exact => cases args <;> rfl
  | similar =>
    match args with
    | [] => rfl
    | [arg] =>
      simp only [List.map_cons, List.map_nil, applySuffix, float?_shift]
      cases float? arg with
      | none => rfl
      | some value =>
        simp only
        split <;> rfl
    | _ :: _ :: _ => rfl
  | targetOffset =>
    match args with
    | [] => rfl
    | [_] => rfl
    | [a, b] =>
      simp only [List.map_cons, List.map_nil, applySuffix, int?_shift]
      cases int? a <;> cases int? b <;> rfl
    | _ :: _ :: _ :: _ => rfl
  | resize =>
    match args with
    | [] => rfl
    | [arg] =>
      simp only [List.map_cons, List.map_nil, applySuffix, float?_shift]
      cases float? arg with
      | none => rfl
      | some value =>
        simp only
        split <;> rfl
    | _ :: _ :: _ => rfl
  | mask =>
    match args with
    | [] => rfl
    | [[]] => rfl
    | [[t]] =>
      simp only [List.map_cons, List.map_nil, applySuffix, Token.kind_shift, Token.content?_shift]
      cases t.kind <;> rfl
    | [_ :: _ :: _] => rfl
    | _ :: _ :: _ => rfl

theorem suffixCall?_shift (k : Nat) (ts : List Token) :
    suffixCall? (ts.map (Token.shift k)) = (suffixCall? ts).map fun c =>
      (c.1, c.2.1.shift k, c.2.2.1.shift k, c.2.2.2.map (Token.shift k)) := by
  match ts with
  | [] => rfl
  | [_] => rfl
  | [_, _] => rfl
  | dot :: name :: opening :: rest =>
    simp only [List.map_cons, suffixCall?, Token.is_shift]
    split
    · simp only [Option.map_map]
      rfl
    · rfl

/-- The literal that a step found, if it found one, and where the scan goes on. -/
def Step.outcome (s : Step) : Option Match × List Token := (s.finding.match?, s.rest)

/-- What a step finds `k` bytes further on. -/
def Step.shifted (k : Nat) (s : Step) : Option Match × List Token :=
  (s.finding.match?.map (Match.shift k), s.rest.map (Token.shift k))

section

variable {start stop : Nat} {p q : PatternLiteral} {ts rest : List Token} {suffix : Suffix}
  {name opening : Token} {args : CallArguments} {e : LiteralError}

theorem readSuffixes_of_none (h : suffixCall? ts = none) :
    readSuffixes start p stop ts = ⟨.literal ⟨start, stop, .chain p⟩, ts⟩ := by
  rw [readSuffixes]
  split
  · rfl
  · next h' => rw [h] at h'; simp at h'

theorem readSuffixes_of_unclosed (h : suffixCall? ts = some (suffix, name, opening, rest))
    (ha : CallArguments.read? rest = none) :
    readSuffixes start p stop ts = ⟨.rejected (.unclosed opening.offset suffix), rest⟩ := by
  rw [readSuffixes]
  split
  · next h' => rw [h] at h'; simp at h'
  · next h' =>
    rw [h, Option.some.injEq, Prod.mk.injEq, Prod.mk.injEq, Prod.mk.injEq] at h'
    obtain ⟨rfl, rfl, rfl, rfl⟩ := h'
    split
    · rfl
    · next ha' => rw [ha] at ha'; simp at ha'

theorem readSuffixes_of_read (h : suffixCall? ts = some (suffix, name, opening, rest))
    (ha : CallArguments.read? rest = some args) :
    readSuffixes start p stop ts =
      match applySuffix p suffix name.offset args.groups with
      | .error e => ⟨.rejected e, args.rest⟩
      | .ok q => readSuffixes start q args.close.stop args.rest := by
  rw [readSuffixes]
  split
  · next h' => rw [h] at h'; simp at h'
  · next h' =>
    rw [h, Option.some.injEq, Prod.mk.injEq, Prod.mk.injEq, Prod.mk.injEq] at h'
    obtain ⟨rfl, rfl, rfl, rfl⟩ := h'
    split
    · next ha' => rw [ha] at ha'; simp at ha'
    · next ha' =>
      rw [ha, Option.some.injEq] at ha'
      subst ha'
      rfl

end

theorem readSuffixes_shift (k start : Nat) (p : PatternLiteral) (stop : Nat) (ts : List Token) :
    (readSuffixes (k + start) p (k + stop) (ts.map (Token.shift k))).outcome =
      (readSuffixes start p stop ts).shifted k := by
  have hcall := suffixCall?_shift k ts
  fun_induction readSuffixes start p stop ts with
  | case1 p stop ts h =>
    rw [h] at hcall
    rw [readSuffixes_of_none hcall]
    rfl
  | case2 p stop ts suffix name opening rest h ha =>
    have hargs := CallArguments.read?_shift k rest
    rw [h] at hcall
    rw [ha] at hargs
    rw [readSuffixes_of_unclosed hcall hargs]
    rfl
  | case3 p stop ts suffix name opening rest h args ha e he =>
    have hargs := CallArguments.read?_shift k rest
    have happly := applySuffix_shift k p suffix name.offset (k + name.offset) args.groups
    rw [h] at hcall
    rw [ha] at hargs
    rw [readSuffixes_of_read hcall hargs]
    simp only [Token.offset_shift]
    rw [he] at happly
    cases happlied : applySuffix p suffix (k + name.offset)
      (args.groups.map (List.map (Token.shift k))) with
    | error e' => rfl
    | ok q => rw [happlied] at happly; simp [Except.toOption] at happly
  | case4 p stop ts suffix name opening rest h args ha q hq ih =>
    have hargs := CallArguments.read?_shift k rest
    have happly := applySuffix_shift k p suffix name.offset (k + name.offset) args.groups
    rw [h] at hcall
    rw [ha] at hargs
    rw [readSuffixes_of_read hcall hargs]
    simp only [Token.offset_shift]
    rw [hq] at happly
    cases happlied : applySuffix p suffix (k + name.offset)
      (args.groups.map (List.map (Token.shift k))) with
    | error e' => rw [happlied] at happly; simp [Except.toOption] at happly
    | ok q' =>
      rw [happlied] at happly
      simp only [Except.toOption, Option.some.injEq] at happly
      subst happly
      have hstep := ih (suffixCall?_shift k args.rest)
      rw [Token.stop_shift]
      exact hstep

@[simp] theorem imageName?_shift (k : Nat) (t : Token) : imageName? (t.shift k) = imageName? t := by
  cases t
  rfl

theorem marker?_shift (k : Nat) (ts : List Token) :
    (marker? (ts.map (Token.shift k))).map Step.outcome = (marker? ts).map (Step.shifted k) := by
  cases ts with
  | nil => rfl
  | cons t ts =>
    simp only [List.map_cons, marker?, Token.isDoubleQuoted_shift, Token.content?_shift]
    split
    · simp only [Option.map_some, Step.outcome, Step.shifted, Finding.match?, Match.shift,
        Token.offset_shift, Token.stop_shift]
    · rfl

theorem chain?_shift (k : Nat) (ts : List Token) :
    (chain? (ts.map (Token.shift k))).map Step.outcome = (chain? ts).map (Step.shifted k) := by
  match ts with
  | [] => rfl
  | [_] => rfl
  | [_, _] => rfl
  | [_, _, _] => rfl
  | head :: opening :: name :: close :: ts =>
    simp only [List.map_cons, chain?, Token.is_shift, imageName?_shift]
    split
    · rw [Option.map_map, Option.map_map]
      cases imageName? name with
      | none => rfl
      | some image =>
        simp only [Option.map_some, Function.comp_apply, Token.offset_shift, Token.stop_shift]
        rw [readSuffixes_shift]
    · rfl

theorem asOffset?_shift (k : Nat) (ts : List Token) :
    asOffset? (ts.map (Token.shift k)) =
      (asOffset? ts).map fun r => (k + r.1, r.2.map (Token.shift k)) := by
  match ts with
  | [] => rfl
  | [_] => rfl
  | [_, _] => rfl
  | [_, _, _] => rfl
  | dot :: name :: opening :: close :: ts =>
    simp only [List.map_cons, asOffset?, Token.is_shift]
    split
    · simp only [Option.map_some, Token.stop_shift]
    · rfl

theorem region?_shift (k : Nat) (ts : List Token) :
    (region? (ts.map (Token.shift k))).map Step.outcome = (region? ts).map (Step.shifted k) := by
  match ts with
  | [] => rfl
  | [_] => rfl
  | head :: opening :: ts =>
    simp only [List.map_cons, region?, Token.is_shift]
    split
    · rw [CallArguments.read?_shift]
      cases CallArguments.read? ts with
      | none => rfl
      | some args =>
        have hnumbers : (args.groups.map (List.map (Token.shift k))).map int? =
            args.groups.map int? := by
          simp only [List.map_map, Function.comp_def, int?_shift]
        simp only [Option.map_some, Option.bind_some, hnumbers, asOffset?_shift]
        split
        · cases asOffset? args.rest with
          | none =>
            simp only [Option.map_none, Option.map_some, Step.outcome, Step.shifted,
              Finding.match?, Match.shift, Token.offset_shift, Token.stop_shift]
          | some r =>
            simp only [Option.map_some, Step.outcome, Step.shifted, Finding.match?, Match.shift,
              Token.offset_shift]
        · rfl
    · rfl

theorem fileName?_shift (k : Nat) (ts : List Token) :
    (fileName? (ts.map (Token.shift k))).map Step.outcome =
      (fileName? ts).map (Step.shifted k) := by
  cases ts with
  | nil => rfl
  | cons t ts =>
    simp only [List.map_cons, fileName?, Token.isDoubleQuoted_shift, Token.content?_shift,
      imageName?_shift]
    split
    · rw [Option.map_map, Option.map_map]
      cases imageName? t with
      | none => rfl
      | some name =>
        simp only [Option.map_some, Function.comp_apply, Step.outcome, Step.shifted,
          Finding.match?, Match.shift, Token.offset_shift, Token.stop_shift]
    · rfl

/-- A place is read alike wherever the text stands. -/
theorem here?_shift (k : Nat) (ts : List Token) :
    (here? (ts.map (Token.shift k))).map Step.outcome = (here? ts).map (Step.shifted k) := by
  simp only [here?, Option.orElse_eq_orElse, Option.orElse_eq_or, Option.map_or, marker?_shift,
    chain?_shift, region?_shift, fileName?_shift]

/-- The literals that a scan finds. -/
def literals (ts : List Token) : List Match := (scan ts).filterMap Finding.match?

theorem literals_of_none {t : Token} {ts : List Token} (h : here? (t :: ts) = none) :
    literals (t :: ts) = literals ts := by
  unfold literals
  rw [scan]
  split
  · next h' => rw [h] at h'; simp at h'
  · rfl

theorem literals_of_some {t : Token} {ts : List Token} {s : Step}
    (h : here? (t :: ts) = some s) :
    literals (t :: ts) = s.outcome.1.toList ++ literals s.outcome.2 := by
  unfold literals
  rw [scan]
  split
  · next h' =>
    rw [h, Option.some.injEq] at h'
    subst h'
    simp only [List.filterMap_cons, Step.outcome]
    cases s.finding.match? <;> rfl
  · next h' => rw [h] at h'; simp at h'

/-- A literal is found at the head of some of the tokens. -/
theorem exists_here?_of_mem_literals {ts : List Token} {m : Match} (h : m ∈ literals ts) :
    ∃ us s, us <:+ ts ∧ here? us = some s ∧ s.finding = .literal m := by
  obtain ⟨f, hf, hm⟩ := List.mem_filterMap.1 h
  cases f with
  | rejected e => cases hm
  | literal m' =>
    obtain rfl := Option.some.inj hm
    exact exists_here?_of_mem_scan ts hf

theorem literals_shift (k : Nat) (ts : List Token) :
    literals (ts.map (Token.shift k)) = (literals ts).map (Match.shift k) := by
  fun_induction scan ts with
  | case1 => simp [literals, scan]
  | case2 t ts s hs ih =>
    have hshift := here?_shift k (t :: ts)
    rw [hs, Option.map_some, Option.map_eq_some_iff] at hshift
    obtain ⟨s', hs', houtcome⟩ := hshift
    rw [List.map_cons, literals_of_some hs, literals_of_some hs', houtcome, List.map_append]
    simp only [Step.shifted, Step.outcome, ih]
    cases s.finding.match? <;> rfl
  | case3 t ts hs ih =>
    have hshift := here?_shift k (t :: ts)
    rw [hs, Option.map_none, Option.map_eq_none_iff] at hshift
    rw [List.map_cons, literals_of_none hs, literals_of_none hshift, ih]

/-! ### Bounds -/

section

variable {s : Text}

theorem readSuffixes_within {start stop : Nat} {ts : List Token} (p : PatternLiteral)
    (hstart : s.Boundary start) (hstop : s.Boundary stop) (hts : ∀ t ∈ ts, t.Within s) :
    ∀ m, (readSuffixes start p stop ts).finding.match? = some m → m.Within s := by
  fun_induction readSuffixes start p stop ts with
  | case1 p stop ts h =>
    intro m hm
    obtain rfl := Option.some.inj hm
    exact ⟨hstart, hstop⟩
  | case2 => exact fun m hm => absurd hm (by simp [Finding.match?])
  | case3 => exact fun m hm => absurd hm (by simp [Finding.match?])
  | case4 p stop ts suffix name opening rest h args ha q hq ih =>
    have hrest : ∀ t ∈ rest, t.Within s :=
      fun t ht => hts t ((suffixCall?_suffix h).subset ht)
    refine ih (hrest _ (CallArguments.close_mem ha)).stop ?_
    exact fun t ht => hrest t ((CallArguments.read?_suffix ha).subset ht)

/-- A literal begins and ends with a token. -/
theorem here?_within {ts : List Token} {found : Step} (hts : ∀ t ∈ ts, t.Within s)
    (h : here? ts = some found) : ∀ m, found.finding.match? = some m → m.Within s := by
  cases reads_of_here? h with
  | @quoted t ts l quoted literal =>
    intro m hm
    obtain rfl := Option.some.inj hm
    exact ⟨(hts t (by simp)).start, (hts t (by simp)).stop⟩
  | @chain head opening name close ts image _ head_word opening_sign content close_sign suffixes =>
    rw [← suffixes]
    exact readSuffixes_within _ (hts head (by simp)).start (hts close (by simp)).stop
      fun t ht => hts t (by simp [ht])
  | @region head opening ts args x y w h head_word opening_sign call numbers plain =>
    intro m hm
    obtain rfl := Option.some.inj hm
    exact ⟨(hts head (by simp)).start, (hts _ (by simp [CallArguments.close_mem call])).stop⟩
  | @offset head opening ts rest args x y w h stop head_word opening_sign call numbers marker =>
    intro m hm
    obtain rfl := Option.some.inj hm
    obtain ⟨dot, name, opening', close, hrest, -, -, -, -, rfl⟩ := exists_of_asOffset? marker
    have hclose : close ∈ ts := (CallArguments.read?_suffix call).subset (by simp [hrest])
    exact ⟨(hts head (by simp)).start, (hts close (by simp [hclose])).stop⟩

theorem literals_within {ts : List Token} (hts : ∀ t ∈ ts, t.Within s) :
    ∀ m ∈ literals ts, m.Within s := by
  fun_induction scan ts with
  | case1 => exact fun m hm => absurd hm (by simp [literals, scan])
  | case2 t ts found hs ih =>
    intro m hm
    rw [literals_of_some hs, List.mem_append, Option.mem_toList] at hm
    rcases hm with hm | hm
    · exact here?_within hts hs m hm
    · exact ih (fun u hu => hts u ((found_here? hs).rest_suffix.subset hu)) m hm
  | case3 t ts hs ih =>
    rw [literals_of_none hs]
    exact ih fun u hu => hts u (List.mem_cons_of_mem _ hu)

end

end Recognition

theorem recognizeAll_eq_literals (s : Text) :
    recognizeAll s = Recognition.literals (tokenize s) := by
  unfold recognizeAll recognize findings
  rw [Text.slice?_whole]
  rfl

/-- The literals of a part of a text are those of the part alone. -/
theorem recognize_middle (a s b : Text) :
    recognize (a ++ s ++ b) (Text.byteLen a) (Text.byteLen a + Text.byteLen s) =
      (recognizeAll s).map (Match.shift (Text.byteLen a)) := by
  have hslice := Text.slice?_append a s b
  have htokens := Cursor.tokens_shift (Text.byteLen a) ⟨0, s⟩
  rw [Text.byteLen_append] at hslice
  rw [Nat.add_zero] at htokens
  rw [recognizeAll_eq_literals, tokenize, ← Recognition.literals_shift, ← htokens]
  unfold recognize findings
  rw [hslice]
  rfl

/-- The ends of a literal are boundaries of its text. -/
theorem within_of_mem_recognizeAll {s : Text} {m : Match} (h : m ∈ recognizeAll s) :
    m.Within s := by
  rw [recognizeAll_eq_literals] at h
  exact Recognition.literals_within within_of_mem_tokenize m h

end ImageScript
