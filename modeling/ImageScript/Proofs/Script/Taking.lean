import ImageScript.Proofs.Script.Continuation

/-!
# What a step of the scan takes

A step takes some first tokens and looks at those behind them only to see whether its literal goes
on. Behind the same first tokens it finds the same, as long as the literal does not go on there. The
tokens of a literal hold as many closing parentheses as opening ones, so they fit between those of a
call around them.

Main statement: `Recognition.exists_taken`.
-/

namespace ImageScript

namespace CallArguments

/-- Whether some tokens can stand in an argument of a call and leave its parentheses as they are. -/
def Balanced (us : List Token) : Prop :=
  ∀ depth ts, readTail? depth (us ++ ts) =
    (readTail? depth ts).map fun r => { r with head := us ++ r.head }

theorem Balanced.nil : Balanced [] := by
  intro depth ts
  cases h : readTail? depth ts <;> simp [h]

theorem Balanced.append {us vs : List Token} (hu : Balanced us) (hv : Balanced vs) :
    Balanced (us ++ vs) := by
  intro depth ts
  rw [List.append_assoc, hu, hv, Option.map_map]
  simp [Function.comp_def]

/-- A word that is no sign of a call. -/
theorem balanced_singleton {t : Token} (hopen : t.is "(" = false) (hclose : t.is ")" = false)
    (hcomma : t.is "," = false) : Balanced [t] := by
  intro depth ts
  simp [readTail?, hopen, hclose, hcomma]

theorem balanced_of_string {t : Token} (h : t.kind = .string) : Balanced [t] := by
  have hword : ∀ word, t.is word = false := by
    intro word
    refine Bool.eq_false_iff.2 fun h' => ?_
    rw [Token.kind_of_is h'] at h
    simp at h
  exact balanced_singleton (hword _) (hword _) (hword _)

theorem balanced_of_is {t : Token} {word : String} (h : t.is word = true)
    (hsign : word ∉ ["(", ")", ","]) : Balanced [t] := by
  have hword : ∀ sign ∈ ["(", ")", ","], t.is sign = false := fun sign hmem =>
    Token.is_eq_false h fun heq => hsign (heq ▸ hmem)
  exact balanced_singleton (hword _ (by simp)) (hword _ (by simp)) (hword _ (by simp))

theorem Balanced.call {opening close : Token} {us : List Token} (h : Balanced us)
    (hopening : opening.is "(" = true) (hclose : close.is ")" = true) :
    Balanced (opening :: us ++ [close]) := by
  have hopening' := Token.is_eq_false hopening (show "(" ≠ ")" by decide)
  have hcomma := Token.is_eq_false hopening (show "(" ≠ "," by decide)
  have hclose' := Token.is_eq_false hclose (show ")" ≠ "(" by decide)
  intro depth ts
  have hend : readTail? (depth + 1) (close :: ts) =
      (readTail? depth ts).map fun r => { r with head := close :: r.head } := by
    simp [readTail?, hclose, hclose']
  have hinner := h (depth + 1) (close :: ts)
  rw [hend] at hinner
  simp [readTail?, hopening, hopening', hcomma, hinner, Function.comp_def]

/-- What stands before the closing parenthesis of a call is read alike whatever follows the call, and
in an outer call the parenthesis closes the inner one. -/
theorem exists_of_readTail? {k : Nat} {ts : List Token} {r : Tail} (h : readTail? k ts = some r) :
    ∃ us, ts = us ++ r.close :: r.rest ∧ r.close.is ")" = true
      ∧ (∀ ts', readTail? k (us ++ r.close :: ts') = some { r with rest := ts' })
      ∧ ∀ depth ts', readTail? (depth + k + 1) (us ++ r.close :: ts') =
          (readTail? depth ts').map fun r' => { r' with head := us ++ r.close :: r'.head } := by
  induction ts generalizing k r with
  | nil => simp [readTail?] at h
  | cons t ts ih =>
    simp only [readTail?] at h
    split at h
    · next hclose =>
      obtain rfl := Option.some.inj h
      obtain ⟨hclose, rfl⟩ := hclose
      refine ⟨[], rfl, hclose, fun ts' => by simp [readTail?, hclose], ?_⟩
      intro depth ts'
      have hopen := Token.is_eq_false hclose (show ")" ≠ "(" by decide)
      simp [readTail?, hclose, hopen]
    · next hclose =>
      split at h
      · next hcomma =>
        obtain ⟨r, hr, rfl⟩ := Option.map_eq_some_iff.1 h
        obtain ⟨hcomma, rfl⟩ := hcomma
        obtain ⟨us, rfl, hend, hagain, hinner⟩ := ih hr
        have hopen := Token.is_eq_false hcomma (show "," ≠ "(" by decide)
        have hclose' := Token.is_eq_false hcomma (show "," ≠ ")" by decide)
        refine ⟨t :: us, rfl, hend, fun ts' => ?_, fun depth ts' => ?_⟩
        · simp [readTail?, hcomma, hclose', hagain]
        · simp [readTail?, hopen, hclose', hinner, Function.comp_def]
      · next hcomma =>
        obtain ⟨r, hr, rfl⟩ := Option.map_eq_some_iff.1 h
        obtain ⟨us, rfl, hend, hagain, hinner⟩ := ih hr
        refine ⟨t :: us, rfl, hend, fun ts' => ?_, fun depth ts' => ?_⟩
        · simp [readTail?, hcomma, hclose, hagain]
        · -- One parenthesis deeper, the depth behind the token is one more, too.
          have hdeeper : (if t.is "(" then depth + k + 1 + 1 else if t.is ")" then depth + k
              else depth + k + 1) =
              depth + (if t.is "(" then k + 1 else if t.is ")" then k - 1 else k) + 1 := by
            split
            · rfl
            · split
              · next hclose' =>
                have hk : k ≠ 0 := fun hk => hclose ⟨hclose', hk⟩
                omega
              · rfl
          simp [readTail?, hdeeper, hinner, Function.comp_def]

theorem exists_of_read? {ts : List Token} {a : CallArguments} (h : read? ts = some a) :
    ∃ us, ts = us ++ a.close :: a.rest ∧ a.close.is ")" = true
      ∧ (∀ ts', read? (us ++ a.close :: ts') = some { a with rest := ts' })
      ∧ ∀ opening : Token, opening.is "(" = true → Balanced (opening :: us ++ [a.close]) := by
  obtain ⟨r, hr, rfl⟩ := Option.map_eq_some_iff.1 h
  obtain ⟨us, hts, hend, hagain, hinner⟩ := exists_of_readTail? hr
  refine ⟨us, hts, hend, ?_, ?_⟩
  · intro ts'
    simp [read?, hagain]
  · intro opening hopening depth ts'
    have hclose := Token.is_eq_false hopening (show "(" ≠ ")" by decide)
    have hcomma := Token.is_eq_false hopening (show "(" ≠ "," by decide)
    have hcall := hinner depth ts'
    simp only [Nat.add_zero] at hcall
    simp [readTail?, hopening, hclose, hcomma, hcall, Function.comp_def]

end CallArguments

/-- Whether a finding is what it is before some tokens: a literal does not go on with them, and they
do not close a call that was left open. -/
def Finding.Ends : Finding → List Token → Prop
  | .literal ⟨_, _, .chain _⟩, ts => Recognition.suffixCall? ts = none
  | .literal ⟨_, _, .region r⟩, ts => r.asOffset = true ∨ Recognition.asOffset? ts = none
  | .literal ⟨_, _, .marker⟩, _ | .literal ⟨_, _, .fileName _⟩, _ => True
  | .rejected (.unclosed _ _), ts => CallArguments.read? ts = none
  | .rejected _, _ => True

namespace Recognition

open CallArguments

/-! ### Suffix calls -/

theorem balanced_suffixName {dot name : Token} {suffix : Suffix} (hdot : dot.is "." = true)
    (hname : name.is suffix.name = true) : Balanced [dot, name] := by
  refine (balanced_of_is hdot (by decide)).append (balanced_of_is hname ?_)
  cases suffix <;> decide

/-- A bad suffix call was closed. -/
theorem applySuffix_error {p : PatternLiteral} {suffix : Suffix} {pos : Nat}
    {args : List (List Token)} {e : LiteralError} (h : applySuffix p suffix pos args = .error e)
    (ts : List Token) : (Finding.rejected e).Ends ts := by
  unfold applySuffix at h
  repeat' split at h
  all_goals first | cases h; trivial | cases h

/-- The suffix calls of a chain are read alike whatever follows them, as long as the chain does not
go on. -/
theorem exists_of_readSuffixes (start : Nat) (p : PatternLiteral) (close : Token) (stop : Nat)
    (ts : List Token) (hclose : close.is ")" = true) (hstop : stop = close.stop) :
    let s := readSuffixes start p stop ts
    ∃ us, ts = us ++ s.rest ∧ s.finding.Ends s.rest
      ∧ (∀ ts', s.finding.Ends ts' → readSuffixes start p stop (us ++ ts') = ⟨s.finding, ts'⟩)
      ∧ ∀ m, s.finding = .literal m → Balanced us ∧ ∃ last q,
        (close :: us).getLast? = some last ∧ last.is ")" = true
          ∧ m = ⟨start, last.stop, .chain q⟩ := by
  fun_induction readSuffixes start p stop ts generalizing close with
  | case1 p stop ts h =>
    refine ⟨[], rfl, h, fun ts' h' => readSuffixes_of_none h', ?_⟩
    intro m hm
    obtain rfl := Finding.literal.inj hm
    exact ⟨.nil, close, p, rfl, hclose, by rw [hstop]⟩
  | case2 p stop ts suffix name opening rest h ha =>
    obtain ⟨dot, rfl, -, -, -, hagain⟩ := exists_of_suffixCall? h
    refine ⟨[dot, name, opening], rfl, ha, fun ts' h' => ?_, fun m hm => by simp at hm⟩
    exact readSuffixes_of_unclosed (hagain ts') h'
  | case3 p stop ts suffix name opening rest h args ha e he =>
    obtain ⟨dot, rfl, -, -, -, hagain⟩ := exists_of_suffixCall? h
    obtain ⟨us, rfl, -, hread, -⟩ := exists_of_read? ha
    refine ⟨dot :: name :: opening :: us ++ [args.close], by simp, applySuffix_error he _, ?_,
      fun m hm => by simp at hm⟩
    intro ts' _
    have hstep := @readSuffixes_of_read start stop p _ _ _ _ _ _
      (hagain (us ++ args.close :: ts')) (hread ts')
    simpa [he] using hstep
  | case4 p stop ts suffix name opening rest h args ha q hq ih =>
    obtain ⟨dot, rfl, hdot, hname, hopening, hagain⟩ := exists_of_suffixCall? h
    obtain ⟨us, rfl, hend, hread, hcall⟩ := exists_of_read? ha
    obtain ⟨vs, hrest, hends, htaken, hliteral⟩ := ih args.close hend rfl
    refine ⟨dot :: name :: opening :: us ++ [args.close] ++ vs, by simp [← hrest], hends, ?_, ?_⟩
    · intro ts' h'
      have hstep := @readSuffixes_of_read start stop p _ _ _ _ _ _
        (hagain (us ++ args.close :: (vs ++ ts'))) (hread (vs ++ ts'))
      rw [hq] at hstep
      simpa [htaken ts' h'] using hstep
    · intro m hm
      obtain ⟨hbalanced, last, q', hlast, hm'⟩ := hliteral m hm
      have hsplit : close :: (dot :: name :: opening :: us ++ [args.close] ++ vs) =
          (close :: dot :: name :: opening :: us) ++ (args.close :: vs) := by simp
      refine ⟨((balanced_suffixName hdot hname).append (hcall opening hopening)).append hbalanced,
        last, q', ?_, hm'⟩
      rw [hsplit, List.getLast?_append, hlast]
      rfl

/-! ### Whole steps -/

/-- The form of the tokens of a literal. -/
def Shape : Literal → List Token → Prop
  | .chain _, us => ∃ head a b rest, us = head :: a :: b :: rest ∧ head.is "Pattern" = true
  | .region _, us => ∃ head a b rest, us = head :: a :: b :: rest ∧ head.is "Region" = true
  | .marker, us => ∃ t, us = [t] ∧ t.isDoubleQuoted = true ∧ quoted? t = some .marker
  | .fileName name, us =>
    ∃ t, us = [t] ∧ t.isDoubleQuoted = true ∧ quoted? t = some (.fileName name)

/-- Whether a literal stands on some tokens. -/
structure Covers (us : List Token) (m : Match) : Prop where
  balanced : Balanced us
  shape : Shape m.literal us
  start_eq : ∀ t ∈ us.head?, m.start = t.offset
  stop_eq : ∀ t ∈ us.getLast?, m.stop = t.stop
  closed : ∀ t ∈ us.getLast?, t.IsClosed

/-- What a step has taken: behind the same tokens it finds the same, as long as what it found does
not go on there. -/
structure Taken (us : List Token) (s : Step) : Prop where
  ends : s.finding.Ends s.rest
  again : ∀ ts, s.finding.Ends ts → here? (us ++ ts) = some ⟨s.finding, ts⟩
  covers : ∀ m, s.finding = .literal m → Covers us m

/-- A string that is a literal by itself has something in it. -/
theorem isClosed_of_quoted? {t : Token} {l : Literal} (h : quoted? t = some l) : t.IsClosed := by
  have hcontent : ∃ content, t.content? = some content ∧ content ≠ [] := by
    unfold quoted? at h
    split at h
    · next hmarker => exact ⟨_, hmarker, by decide⟩
    · obtain ⟨name, hname, -⟩ := Option.map_eq_some_iff.1 h
      obtain ⟨hcontent, himage⟩ := Option.filter_eq_some_iff.1 hname
      refine ⟨name, hcontent, ?_⟩
      rintro rfl
      simp [ImageName.isImage, Text.splitLast?] at himage
  obtain ⟨content, hcontent, hne⟩ := hcontent
  unfold Token.content? at hcontent
  split at hcontent
  · next hstring =>
    obtain rfl := Option.some.inj hcontent
    refine Or.inr ⟨hstring.1, ?_⟩
    have hlen := List.length_pos_iff.2 hne
    simp only [List.length_dropLast, List.length_drop] at hlen
    omega
  · simp at hcontent

theorem kind_of_imageName? {t : Token} {name : Text} (h : imageName? t = some name) :
    t.kind = .string := by
  obtain ⟨hcontent, -⟩ := Option.filter_eq_some_iff.1 h
  unfold Token.content? at hcontent
  split at hcontent
  · next hstring => exact hstring.1
  · simp at hcontent

theorem taken_quoted {t : Token} {l : Literal} (hquoted : t.isDoubleQuoted = true)
    (hliteral : quoted? t = some l) (ts : List Token) :
    Taken [t] ⟨.literal ⟨t.offset, t.stop, l⟩, ts⟩ := by
  have hkind : Shape l [t] ∧ ∀ ts, (Finding.literal ⟨t.offset, t.stop, l⟩).Ends ts := by
    rcases cases_of_quoted? hliteral with ⟨rfl, -⟩ | ⟨name, rfl, -⟩
    · exact ⟨⟨t, rfl, hquoted, hliteral⟩, fun _ => trivial⟩
    · exact ⟨⟨t, rfl, hquoted, hliteral⟩, fun _ => trivial⟩
  refine ⟨hkind.2 _, fun ts' _ => here?_of_reads (.quoted hquoted hliteral), fun m hm => ?_⟩
  obtain rfl := Finding.literal.inj hm
  refine ⟨balanced_of_string (Token.kind_of_isDoubleQuoted hquoted), hkind.1, ?_, ?_, ?_⟩
  · simp
  · simp
  · simpa using isClosed_of_quoted? hliteral

theorem exists_taken_chain {head opening name close : Token} {ts : List Token} {image : Text}
    {s : Step} (hhead : head.is "Pattern" = true) (hopening : opening.is "(" = true)
    (himage : imageName? name = some image) (hclose : close.is ")" = true)
    (hsuffixes : readSuffixes head.offset (.bare image) close.stop ts = s) :
    ∃ us, head :: opening :: name :: close :: ts = us ++ s.rest ∧ Taken us s := by
  subst hsuffixes
  obtain ⟨us, hts, hends, htaken, hliteral⟩ := exists_of_readSuffixes head.offset (.bare image)
    close close.stop ts hclose rfl
  refine ⟨head :: opening :: name :: close :: us, by simp [← hts], hends, ?_, ?_⟩
  · intro ts' hends'
    exact here?_of_reads (.chain hhead hopening himage hclose (htaken ts' hends'))
  · intro m hm
    obtain ⟨hbalanced, last, q, hlast, hlastClose, rfl⟩ := hliteral m hm
    have hgetLast : (head :: opening :: name :: close :: us).getLast? = some last := by
      rw [← hlast]
      simp
    have hname := balanced_of_string (kind_of_imageName? himage)
    refine ⟨?_, ⟨head, opening, name, close :: us, rfl, hhead⟩, by simp, ?_, ?_⟩
    · exact ((balanced_of_is hhead (by decide)).append (hname.call hopening hclose)).append
        hbalanced
    · rw [hgetLast]
      simp
    · rw [hgetLast]
      rintro t ⟨⟩
      exact Or.inl hlastClose

/-- A region on the tokens up to a closing parenthesis. -/
theorem covers_region {head opening last : Token} {us : List Token} {r : RegionLiteral}
    (hhead : head.is "Region" = true) (hlast : us.getLast? = some last)
    (hclose : last.is ")" = true) (hbalanced : Balanced (head :: opening :: us)) :
    Covers (head :: opening :: us) ⟨head.offset, last.stop, .region r⟩ := by
  have hend : (head :: opening :: us).getLast? = some last := by
    rw [List.getLast?_cons, List.getLast?_cons, hlast]
    rfl
  obtain ⟨b, vs, rfl⟩ := List.exists_cons_of_ne_nil (l := us) (by rintro rfl; simp at hlast)
  refine ⟨hbalanced, ⟨head, opening, b, vs, rfl, hhead⟩, by simp, ?_, ?_⟩
  · rw [hend]
    simp
  · rw [hend]
    rintro t ⟨⟩
    exact Or.inl hclose

/-- Every step takes some first tokens. -/
theorem exists_taken {ts : List Token} {s : Step} (h : here? ts = some s) :
    ∃ us, ts = us ++ s.rest ∧ Taken us s := by
  cases reads_of_here? h with
  | @quoted t ts l hquoted hliteral => exact ⟨[t], rfl, taken_quoted hquoted hliteral ts⟩
  | chain hhead hopening himage hclose hsuffixes =>
    exact exists_taken_chain hhead hopening himage hclose hsuffixes
  | @region head opening ts args x y w z hhead hopening hcall hnumbers hplain =>
    obtain ⟨us, rfl, hclose, hread, hbalanced⟩ := exists_of_read? hcall
    have hbalanced := (balanced_of_is hhead (by decide)).append (hbalanced opening hopening)
    refine ⟨head :: opening :: (us ++ [args.close]), by simp, Or.inr hplain, ?_, ?_⟩
    · intro ts' hends
      have hplain' : asOffset? ts' = none := by simpa [Finding.Ends] using hends
      have htokens : head :: opening :: (us ++ [args.close]) ++ ts' =
          head :: opening :: (us ++ args.close :: ts') := by simp
      rw [htokens]
      exact here?_of_reads (.region hhead hopening (hread ts') hnumbers hplain')
    · intro m hm
      obtain rfl := Finding.literal.inj hm
      exact covers_region hhead List.getLast?_concat hclose (by simpa using hbalanced)
  | @offset head opening ts rest args x y w z stop hhead hopening hcall hnumbers hmarker =>
    obtain ⟨us, rfl, -, hread, hbalanced⟩ := exists_of_read? hcall
    have hbalanced := (balanced_of_is hhead (by decide)).append (hbalanced opening hopening)
    obtain ⟨dot, name, op, last, hrest, hdot, hname, hop, hlast, rfl⟩ :=
      exists_of_asOffset? hmarker
    refine ⟨head :: opening :: (us ++ [args.close, dot, name, op] ++ [last]), by simp [hrest],
      Or.inl rfl, ?_, ?_⟩
    · intro ts' _
      have htokens : head :: opening :: (us ++ [args.close, dot, name, op] ++ [last]) ++ ts' =
          head :: opening :: (us ++ args.close :: (dot :: name :: op :: last :: ts')) := by simp
      rw [htokens]
      exact here?_of_reads (.offset hhead hopening (hread _) hnumbers
        (asOffset?_of_is hdot hname hop hlast ts'))
    · intro m hm
      obtain rfl := Finding.literal.inj hm
      refine covers_region hhead List.getLast?_concat hlast ?_
      have hmarker' := ((balanced_of_is hdot (by decide)).append
        (balanced_of_is hname (by decide))).append (Balanced.nil.call hop hlast)
      simpa using hbalanced.append hmarker'

/-- A step takes its first token at least. -/
theorem Taken.ne_nil {us : List Token} {s : Step} (h : Taken us s) : us ≠ [] := by
  rintro rfl
  exact absurd (here?_rest_lt (h.again s.rest h.ends)) (Nat.lt_irrefl _)

/-- Where the text ends nothing goes on. -/
theorem ends_nil (f : Finding) : f.Ends [] := by
  cases f with
  | literal m =>
    obtain ⟨start, stop, l⟩ := m
    cases l with
    | marker => trivial
    | chain p => rfl
    | region r => exact Or.inr rfl
    | fileName name => trivial
  | rejected e =>
    cases e with
    | unclosed pos suffix => rfl
    | malformedArgument => trivial
    | wrongArity => trivial
    | outOfRange => trivial

variable {us : List Token} {s : Step}

/-- The literals behind the tokens of a step are found as they are by themselves. -/
theorem Taken.literals_append (h : Taken us s) {ts : List Token} (hends : s.finding.Ends ts) :
    literals (us ++ ts) = s.finding.match?.toList ++ literals ts := by
  have hagain := h.again ts hends
  cases hrow : us ++ ts with
  | nil =>
    rw [hrow, here?_nil] at hagain
    simp at hagain
  | cons t vs =>
    rw [hrow] at hagain
    exact literals_of_some hagain

theorem Taken.literals_eq (h : Taken us s) : literals us = s.finding.match?.toList := by
  have happend := h.literals_append (ends_nil s.finding)
  rw [List.append_nil] at happend
  rw [happend]
  simp [literals, scan]

/-- Tokens that are one literal hold no other. -/
theorem literals_of_here? {ts : List Token} {m : Match} (h : here? ts = some ⟨.literal m, []⟩) :
    literals ts = [m] := by
  obtain ⟨us, hus, htaken⟩ := exists_taken h
  rw [hus, List.append_nil, htaken.literals_eq]
  rfl

/-- A single token of a place without a literal is none by itself. -/
theorem here?_singleton {t : Token} {ts : List Token} (h : here? (t :: ts) = none) :
    here? [t] = none := by
  rw [Option.eq_none_iff_forall_ne_some]
  intro s hs
  cases reads_of_here? hs with
  | quoted hquoted hliteral =>
    rw [here?_of_reads (.quoted hquoted hliteral)] at h
    cases h

/-- A literal begins with the token at which it is found. -/
theorem start_of_here? {t : Token} {ts rest : List Token} {m : Match}
    (h : here? (t :: ts) = some ⟨.literal m, rest⟩) : m.start = t.offset := by
  obtain ⟨us, hus, htaken⟩ := exists_taken h
  obtain ⟨u, us, rfl⟩ := List.exists_cons_of_ne_nil htaken.ne_nil
  obtain ⟨rfl, -⟩ := List.cons.inj hus
  exact (htaken.covers m rfl).start_eq t rfl

/-- A literal begins with one of the tokens. -/
theorem exists_token_of_mem_literals {ts : List Token} {m : Match} (h : m ∈ literals ts) :
    ∃ t ∈ ts, m.start = t.offset := by
  obtain ⟨us, ⟨f, rest⟩, hus, hhere, rfl⟩ := exists_here?_of_mem_literals h
  cases us with
  | nil =>
    rw [here?_nil] at hhere
    cases hhere
  | cons t us => exact ⟨t, hus.subset (List.mem_cons_self ..), start_of_here? hhere⟩

end Recognition

end ImageScript
