import Mathlib.Logic.Relation
import ImageScript.Proofs.Script.Acceptance
import ImageScript.Proofs.Script.Lossless

/-!
# Where the scan goes on

The scan of a text keeps nothing but its place. Wherever it comes to, the literals from there on are
those of a scan that begins there, whatever was found or given up before. A chain is given up for its
first bad suffix, and the scan goes on behind the parenthesis that closes this suffix, or behind the
one that opens it where none closes it.

Main statements: `Grammar.givenUp_iff`, `scan_undisturbed`.
-/

namespace ImageScript

/-! ### Chains that are given up -/

namespace Grammar

open Recognition CallArguments

/-- How a chain comes to be given up, and the tokens where the scan goes on: behind good suffixes
there is one whose call is never closed, or one whose arguments are bad. -/
inductive GivenUp : List Token → List Token → Prop where
  | unclosed {us vs rest : List Token} {dot name opening : Token} {image : Text}
      {as : List Attribute} {suffix : Suffix} (call : PatternCall us image)
      (suffixes : SuffixCalls vs as) (dot_sign : dot.is "." = true)
      (name_word : name.is suffix.name = true) (opening_sign : opening.is "(" = true)
      (open_end : ∀ args close rest', rest = args ++ close :: rest' → Enclosed args →
        close.is ")" = false) :
      GivenUp (us ++ vs ++ dot :: name :: opening :: rest) rest
  | bad {us vs args rest : List Token} {dot name opening close : Token} {image : Text}
      {as : List Attribute} {suffix : Suffix} (call : PatternCall us image)
      (suffixes : SuffixCalls vs as) (dot_sign : dot.is "." = true)
      (name_word : name.is suffix.name = true) (opening_sign : opening.is "(" = true)
      (enclosed : Enclosed args) (close_sign : close.is ")" = true)
      (no_call : ∀ a, ¬ SuffixCall (dot :: name :: opening :: (args ++ [close])) a) :
      GivenUp (us ++ vs ++ dot :: name :: opening :: (args ++ close :: rest)) rest

/-- Behind the suffix calls that are read, a chain is given up for the next one. -/
theorem exists_badSuffix (start : Nat) (p : PatternLiteral) (stop : Nat) (ts : List Token)
    (hread : ∀ t ∈ ts, t.IsRead) {e : LiteralError}
    (h : (readSuffixes start p stop ts).finding = .rejected e) :
    ∃ vs as dot name opening suffix behind, ts = vs ++ dot :: name :: opening :: behind
      ∧ SuffixCalls vs as ∧ dot.is "." = true ∧ name.is (Suffix.name suffix) = true
      ∧ opening.is "(" = true
      ∧ (read? behind = none ∧ (readSuffixes start p stop ts).rest = behind
        ∨ ∃ args, read? behind = some args ∧ (readSuffixes start p stop ts).rest = args.rest
          ∧ ∃ q pos e', applySuffix q suffix pos args.groups = .error e') := by
  fun_induction readSuffixes start p stop ts with
  | case1 => cases h
  | case2 p stop ts suffix name opening rest hcall ha =>
    obtain ⟨dot, rfl, hdot, hname, hopening, -⟩ := exists_of_suffixCall? hcall
    exact ⟨[], [], dot, name, opening, suffix, rest, rfl, .nil, hdot, hname, hopening,
      Or.inl ⟨ha, rfl⟩⟩
  | case3 p stop ts suffix name opening rest hcall args ha e' he =>
    obtain ⟨dot, rfl, hdot, hname, hopening, -⟩ := exists_of_suffixCall? hcall
    exact ⟨[], [], dot, name, opening, suffix, rest, rfl, .nil, hdot, hname, hopening,
      Or.inr ⟨args, ha, rfl, p, name.offset, e', he⟩⟩
  | case4 p stop ts suffix name opening rest hcall args ha q hq ih =>
    obtain ⟨dot, rfl, hdot, hname, hopening, -⟩ := exists_of_suffixCall? hcall
    obtain ⟨us, rfl, hclose, hjoined⟩ := joined_of_read? ha
    obtain ⟨a, rfl, harguments, rfl⟩ := exists_arguments
      (fun g hg t ht => hread t (by simp [hjoined.mem g hg t ht])) hq
    obtain ⟨vs, as, dot', name', opening', suffix', behind, hrest, hcalls, hlater⟩ :=
      ih (fun t ht => hread t (by simp [ht])) h
    refine ⟨dot :: name :: opening :: (us ++ [args.close]) ++ vs, a :: as, dot', name', opening',
      suffix', behind, by simp [hrest],
      .cons (.call hdot hname hopening hjoined harguments hclose) hcalls, hlater⟩

/-- A suffix call is read as one, and its arguments are taken. -/
theorem SuffixCall.reads {dot name opening close : Token} {args : List Token} {a : Attribute}
    (h : SuffixCall (dot :: name :: opening :: (args ++ [close])) a)
    (hread : ∀ t ∈ args, t.IsRead) (rest : List Token) :
    suffixCall? (dot :: name :: opening :: rest) = some (a.suffix, name, opening, rest)
      ∧ ∃ groups, read? (args ++ close :: rest) = some ⟨groups, close, rest⟩
        ∧ ∀ p pos, applySuffix p a.suffix pos groups = .ok (a.set p) := by
  generalize htokens : dot :: name :: opening :: (args ++ [close]) = ts at h
  cases h with
  | @call dot' name' opening' close' args' groups a dot_sign name_word opening_sign joined arguments
      close_sign =>
    simp only [List.cons.injEq] at htokens
    obtain ⟨rfl, rfl, rfl, hargs⟩ := htokens
    obtain ⟨rfl, hclose⟩ := List.append_inj' hargs rfl
    obtain rfl := (List.cons.inj hclose).1
    exact ⟨suffixCall?_of_is dot_sign name_word opening_sign rest, groups,
      read?_joined arguments.isPlain close_sign joined rest, fun p pos =>
        arguments.applySuffix_eq (fun g hg t ht => hread t (joined.mem g hg t ht)) p pos⟩

theorem givenUp_of_here? {us rest : List Token} {e : LiteralError} (hread : ∀ t ∈ us, t.IsRead)
    (h : here? us = some ⟨.rejected e, rest⟩) : GivenUp us rest := by
  cases reads_of_here? h with
  | @chain head opening name close ts image _ hhead hopening himage hclose hstep =>
    obtain ⟨hcontent, hisImage⟩ := Option.filter_eq_some_iff.1 himage
    have call : PatternCall [head, opening, name, close] image :=
      .call hhead hopening hcontent hisImage hclose
    obtain ⟨vs, as, dot, name', opening', suffix, behind, rfl, hcalls, hdot, hname, hopening',
      hend⟩ := exists_badSuffix head.offset (.bare image) close.stop ts
        (fun t ht => hread t (by simp [ht])) (congrArg Step.finding hstep)
    rw [hstep] at hend
    have hus : head :: opening :: name :: close :: (vs ++ dot :: name' :: opening' :: behind) =
        [head, opening, name, close] ++ vs ++ dot :: name' :: opening' :: behind := by simp
    rcases hend with ⟨hnone, rfl⟩ | ⟨args, hargs, rfl, q, pos, e', herror⟩
    · rw [hus]
      exact .unclosed call hcalls hdot hname hopening' (read?_eq_none_iff.1 hnone)
    · obtain ⟨us, rfl, henclosed, hclose'⟩ := exists_enclosed_of_read? hargs
      rw [hus]
      refine .bad call hcalls hdot hname hopening' henclosed hclose' fun a hcall => ?_
      obtain ⟨hsuffix, groups, hgroups, happly⟩ :=
        hcall.reads (fun t ht => hread t (by simp [ht])) args.rest
      rw [suffixCall?_of_is hdot hname hopening', Option.some.injEq, Prod.mk.injEq] at hsuffix
      rw [hargs, Option.some.injEq] at hgroups
      rw [hsuffix.1, hgroups, happly] at herror
      cases herror

/-- Before a suffix of a chain is read, its suffixes before it were. -/
theorem here?_chain {us vs : List Token} {image : Text} {as : List Attribute}
    (call : PatternCall us image) (suffixes : SuffixCalls vs as) (hread : ∀ t ∈ vs, t.IsRead)
    (ts : List Token) : ∃ start stop,
      here? (us ++ vs ++ ts) = some (readSuffixes start (pattern image as) stop ts) := by
  cases call with
  | @call head opening name close image head_word opening_sign content isImage close_sign =>
    have hname : imageName? name = some image := by simp [imageName?, content, isImage]
    have hsuffixes := suffixes.readSuffixes_eq hread head.offset (.bare image) close.stop ts
    rw [foldl_set] at hsuffixes
    exact ⟨head.offset, stopBehind close.stop vs,
      here?_of_reads (.chain head_word opening_sign hname close_sign hsuffixes)⟩

theorem GivenUp.exists_here? {us rest : List Token} (h : GivenUp us rest)
    (hread : ∀ t ∈ us, t.IsRead) : ∃ e, here? us = some ⟨.rejected e, rest⟩ := by
  cases h with
  | @unclosed us vs rest dot name opening image as suffix call suffixes dot_sign name_word
      opening_sign open_end =>
    obtain ⟨start, stop, hhere⟩ := here?_chain call suffixes (fun t ht => hread t (by simp [ht]))
      (dot :: name :: opening :: rest)
    have hcall := suffixCall?_of_is dot_sign name_word opening_sign rest
    rw [hhere, readSuffixes_of_unclosed hcall (read?_eq_none_iff.2 open_end)]
    exact ⟨_, rfl⟩
  | @bad us vs args rest dot name opening close image as suffix call suffixes dot_sign name_word
      opening_sign enclosed close_sign no_call =>
    obtain ⟨start, stop, hhere⟩ := here?_chain call suffixes (fun t ht => hread t (by simp [ht]))
      (dot :: name :: opening :: (args ++ close :: rest))
    have hcall := suffixCall?_of_is dot_sign name_word opening_sign (args ++ close :: rest)
    obtain ⟨groups, hgroups⟩ := read?_enclosed enclosed close_sign rest
    rw [hhere, readSuffixes_of_read hcall hgroups]
    cases happly : applySuffix (pattern image as) suffix name.offset groups with
    | error e => exact ⟨e, rfl⟩
    | ok q =>
      obtain ⟨us', hargs, -, hjoined⟩ := joined_of_read? hgroups
      obtain rfl := List.append_cancel_right hargs
      obtain ⟨a, rfl, harguments, -⟩ := exists_arguments
        (fun g hg t ht => hread t (by simp [hjoined.mem g hg t ht])) happly
      exact absurd (.call dot_sign name_word opening_sign hjoined harguments close_sign) (no_call a)

/-- A chain is given up exactly for a suffix whose call is never closed or whose arguments are bad. -/
theorem givenUp_iff {us rest : List Token} (hread : ∀ t ∈ us, t.IsRead) :
    GivenUp us rest ↔ ∃ e, here? us = some ⟨.rejected e, rest⟩ :=
  ⟨fun h => h.exists_here? hread, fun ⟨_, h⟩ => givenUp_of_here? hread h⟩

end Grammar

/-! ### Reading from a token on -/

theorem pairwise_offset_tokenize (s : Text) :
    (tokenize s).Pairwise fun t u => t.offset < u.offset := by
  refine (pairwise_tokenize s).imp_of_mem fun ht _ hle => ?_
  exact Nat.lt_of_lt_of_le (offset_lt_stop_of_mem_tokenize _ ht) hle

namespace Cursor

/-- Reading may begin at the first token as well as at the blanks before it. -/
theorem exists_tokens_at {p : Cursor} {t : Token} {ts : List Token} (h : p.tokens = t :: ts) :
    ∃ blanks r, p.rest = blanks ++ r ∧ t.offset = p.offset + Text.byteLen blanks
      ∧ tokens ⟨t.offset, r⟩ = t :: ts := by
  cases hnext : p.next? with
  | none =>
    rw [tokens_of_none hnext] at h
    cases h
  | some u =>
    obtain ⟨u, q⟩ := u
    rw [tokens_of_some hnext] at h
    obtain ⟨rfl, htokens⟩ := List.cons.inj h
    obtain ⟨⟨o, l⟩, hl, hq⟩ := Option.map_eq_some_iff.1 hnext
    obtain ⟨rfl, rfl⟩ := Prod.mk.inj hq
    rw [nextLexeme?_eq] at hl
    split at hl
    · cases hl
    · next c r hdrop =>
      simp only [Option.some.injEq, Prod.mk.injEq] at hl
      obtain ⟨rfl, rfl⟩ := hl
      have hblank : Lexeme.isBlank c = false := by
        have hhead := List.head?_dropWhile_not Lexeme.isBlank p.rest
        rw [hdrop] at hhead
        simpa using hhead
      refine ⟨p.rest.takeWhile Lexeme.isBlank, c :: r, ?_, rfl, ?_⟩
      · rw [← hdrop, List.takeWhile_append_dropWhile]
      · rw [tokens_of_read hblank rfl]
        exact congrArg _ htokens

end Cursor

/-- What is found from a token on is found among the tokens from there on. -/
theorem recognize_of_suffix {s : Text} {t : Token} {ts : List Token} (h : t :: ts <:+ tokenize s) :
    recognize s t.offset (Text.byteLen s) = Recognition.literals (t :: ts) := by
  obtain ⟨us, hus⟩ := h
  obtain ⟨x, r, hs, -, hr, -, -⟩ := Cursor.exists_cut ⟨0, s⟩ hus.symm
  obtain ⟨blanks, part, rfl, hoffset, htokens⟩ := Cursor.exists_tokens_at hr
  obtain rfl : s = x ++ (blanks ++ part) := hs
  have hslice := Text.slice?_append (x ++ blanks) part []
  have hstart : t.offset = Text.byteLen (x ++ blanks) := by
    rw [hoffset, Text.byteLen_append, Nat.zero_add]
  rw [List.append_nil, List.append_assoc, ← hstart] at hslice
  unfold recognize findings
  rw [hslice]
  dsimp only
  rw [htokens]
  rfl

/-! ### One round after the other -/

namespace Recognition

/-- One round of the scan: it goes on behind what it found, behind a suffix for which it gave a chain
up, or behind a token that begins nothing. -/
inductive Moves : List Token → List Token → Prop where
  | found {us rest : List Token} {m : Match} (literal : here? us = some ⟨.literal m, rest⟩) :
      Moves us rest
  | resumed {us rest : List Token} {e : LiteralError}
      (rejected : here? us = some ⟨.rejected e, rest⟩) : Moves us rest
  | skipped {t : Token} {us : List Token} (nothing : here? (t :: us) = none) : Moves (t :: us) us

/-- Whether the scan of a text comes to some tokens. -/
def Reaches (s : Text) (us : List Token) : Prop := Relation.ReflTransGen Moves (tokenize s) us

theorem moves_of_here? {us : List Token} {s : Step} (h : here? us = some s) : Moves us s.rest := by
  obtain ⟨finding, rest⟩ := s
  cases finding with
  | literal m => exact .found h
  | rejected e => exact .resumed h

/-- Every round leaves the first token behind. -/
theorem Moves.exists_cons {us rest : List Token} (h : Moves us rest) :
    ∃ t ts, us = t :: ts ∧ rest <:+ ts := by
  cases h with
  | found literal => exact exists_of_here? literal
  | resumed rejected => exact exists_of_here? rejected
  | skipped nothing => exact ⟨_, _, rfl, List.suffix_refl _⟩

/-- The literals of a round, all of which begin with its first token. -/
theorem Moves.literals_eq {t : Token} {ts rest : List Token} (h : Moves (t :: ts) rest) :
    ∃ ms, literals (t :: ts) = ms ++ literals rest ∧ ∀ m ∈ ms, m.start = t.offset := by
  cases h with
  | found literal =>
    refine ⟨_, literals_of_some literal, fun m hm => ?_⟩
    obtain rfl := Option.some.inj (Option.mem_toList.1 hm)
    exact start_of_here? literal
  | resumed rejected => exact ⟨[], literals_of_some rejected, fun m hm => absurd hm List.not_mem_nil⟩
  | skipped nothing => exact ⟨[], literals_of_none nothing, fun m hm => absurd hm List.not_mem_nil⟩

theorem Reaches.suffix {s : Text} {us : List Token} (h : Reaches s us) : us <:+ tokenize s := by
  induction h with
  | refl => exact List.suffix_refl _
  | tail _ hmoves ih =>
    obtain ⟨t, ts, rfl, hrest⟩ := hmoves.exists_cons
    exact (hrest.trans (List.suffix_cons t ts)).trans ih

/-- What was found on the way begins before every token that is left. -/
theorem Reaches.literals_eq {s : Text} {us : List Token} (h : Reaches s us) :
    ∃ ms, literals (tokenize s) = ms ++ literals us ∧ ∀ m ∈ ms, ∀ t ∈ us, m.start < t.offset := by
  induction h with
  | refl => exact ⟨[], rfl, fun m hm => absurd hm List.not_mem_nil⟩
  | @tail us rest hreaches hmoves ih =>
    obtain ⟨ms, hms, hbefore⟩ := ih
    obtain ⟨t, ts, rfl, hrest⟩ := hmoves.exists_cons
    obtain ⟨ms', hms', hstart⟩ := hmoves.literals_eq
    have hpairs := (pairwise_offset_tokenize s).sublist (Reaches.suffix hreaches).sublist
    refine ⟨ms ++ ms', by rw [hms, hms', List.append_assoc], ?_⟩
    intro m hm u hu
    rcases List.mem_append.1 hm with hm | hm
    · exact hbefore m hm u (List.mem_cons_of_mem t (hrest.subset hu))
    · rw [hstart m hm]
      exact (List.pairwise_cons.1 hpairs).1 u (hrest.subset hu)

/-- What is found from a token on does not begin before it. -/
theorem offset_le_start {t : Token} {ts : List Token}
    (hpairs : (t :: ts).Pairwise fun u v => u.offset < v.offset) :
    ∀ m ∈ literals (t :: ts), t.offset ≤ m.start := by
  intro m hm
  obtain ⟨u, hu, hstart⟩ := exists_token_of_mem_literals hm
  rw [hstart]
  rcases List.mem_cons.1 hu with rfl | hu
  · exact Nat.le_refl _
  · exact Nat.le_of_lt ((List.pairwise_cons.1 hpairs).1 u hu)

/-- A literal of a text is found at some tokens to which the scan comes. -/
theorem exists_reaches {s : Text} {us : List Token} (h : Reaches s us) {m : Match}
    (hm : m ∈ literals us) : ∃ vs rest, Reaches s vs ∧ here? vs = some ⟨.literal m, rest⟩ := by
  fun_induction stands us with
  | case1 => simp [literals, scan] at hm
  | case2 t ts found hs ih =>
    rw [literals_of_some hs, List.mem_append] at hm
    rcases hm with hm | hm
    · obtain ⟨finding, rest⟩ := found
      cases finding with
      | literal m' =>
        obtain rfl := Option.some.inj (Option.mem_toList.1 hm)
        exact ⟨t :: ts, rest, h, hs⟩
      | rejected e => exact absurd hm List.not_mem_nil
    · exact ih (h.tail (moves_of_here? hs)) hm
  | case3 t ts hs ih =>
    rw [literals_of_none hs] at hm
    exact ih (h.tail (.skipped hs)) hm

end Recognition

open Recognition in
/-- Whether the scan of a text goes on alike whatever it met before. -/
structure Undisturbed (s : Text) : Prop where
  /-- The scan reports what is found at the tokens to which it comes. -/
  reported : ∀ m, m ∈ recognizeAll s ↔ ∃ us rest, Reaches s us ∧ here? us = some ⟨.literal m, rest⟩
  /-- From any of these on, the literals are those of a scan that begins there. -/
  resumes : ∀ us, Reaches s us → ∀ t ∈ us.head?,
    (recognizeAll s).filter (t.offset ≤ ·.start) = recognize s t.offset (Text.byteLen s)
  /-- A chain is given up behind the parenthesis that closes its bad suffix, or behind the one that
  opens it where none closes it. -/
  givenUp : ∀ us, Reaches s us → ∀ rest,
    (∃ e, here? us = some ⟨.rejected e, rest⟩) ↔ Grammar.GivenUp us rest
  /-- Every round leaves the first token behind. -/
  advances : ∀ us, Reaches s us → ∀ rest, Moves us rest → ∃ t ts, us = t :: ts ∧ rest <:+ ts

/-- A bad candidate changes nothing of what is found behind it. -/
theorem scan_undisturbed (s : Text) : Undisturbed s where
  reported m := by
    rw [recognizeAll_eq_literals]
    constructor
    · exact Recognition.exists_reaches Relation.ReflTransGen.refl
    · rintro ⟨us, rest, hreaches, hhere⟩
      obtain ⟨ms, hms, -⟩ := hreaches.literals_eq
      obtain ⟨t, ts, rfl, -⟩ := Recognition.exists_of_here? hhere
      rw [hms, Recognition.literals_of_some hhere]
      exact List.mem_append_right _ (List.mem_append_left _ (List.mem_singleton_self m))
  resumes us hreaches t ht := by
    obtain ⟨ts, rfl⟩ : ∃ ts, us = t :: ts := by
      cases us with
      | nil => cases ht
      | cons u us => exact ⟨us, by rw [Option.some.inj ht]⟩
    have hsuffix := Recognition.Reaches.suffix hreaches
    have hpairs := (pairwise_offset_tokenize s).sublist hsuffix.sublist
    obtain ⟨ms, hms, hbefore⟩ := hreaches.literals_eq
    rw [recognizeAll_eq_literals, hms, recognize_of_suffix hsuffix, List.filter_append,
      List.filter_eq_nil_iff.2, List.nil_append, List.filter_eq_self.2]
    · intro m hm
      exact decide_eq_true (Recognition.offset_le_start hpairs m hm)
    · intro m hm
      have hlt := hbefore m hm t (List.mem_cons_self ..)
      rw [decide_eq_true_eq]
      omega
  givenUp us hreaches rest :=
    (Grammar.givenUp_iff fun t ht => Cursor.isRead_of_mem_tokens _ t
      ((Recognition.Reaches.suffix hreaches).subset ht)).symm
  advances _ _ _ h := h.exists_cons

end ImageScript
