import ImageScript.Proofs.Document.Agreement
import ImageScript.Proofs.Document.ReadingBack

/-!
# Canonical text is stable

Writing a script in canonical form can change what stands around a literal: a chain that becomes a
bare name shows a quote to the token before it, and fits between the parentheses of another chain.
Where neither happens, and where every chain is read back when its widget is written alone, the
canonical text of a script is read as the script was, and so it is its own canonical text.

Main statement: `stable_of_apart`.
-/

namespace ImageScript

variable {σ : Type} [FileSystem σ] (b : Bundle) (fs : σ)

open Recognition Synthesis

/-- The canonical text of a script. -/
def canonical (s : Text) : Text := Glyph.join (reading b fs s)

theorem join_map_char (s : Text) : Glyph.join (s.map .char) = s := by
  induction s with
  | nil => rfl
  | cons c s ih => exact congrArg (c :: ·) ih

/-- Whether a literal is a chain that is written as the bare name of its image. -/
def IsShortened (l : Literal) : Prop :=
  ∃ p g, l = .chain p ∧ widgetGlyphs? b fs l = some g ∧ (Glyph.join g).head? = some '"'

/-- Whether a literal among some tokens stands between the parentheses of `Pattern( )`. -/
def Enclosed (ts : List Token) (m : Match) : Prop :=
  ∃ head us, head :: us <:+ ts ∧ Rewrites.Encloses head us m

/-- Whether the literals among some tokens can be written without an effect on each other and on
what stands around them. -/
structure Apart (ts : List Token) : Prop where
  /-- The widget of a chain that is written alone is read as itself. -/
  alone : ∀ m ∈ literals ts, ∀ p g, m.literal = .chain p →
    widgetGlyphs? b fs m.literal = some g → reading b fs (Glyph.join g) = g
  /-- No chain that becomes a bare name follows two quotes, which would open a doc string. -/
  unglued : ∀ m ∈ literals ts, IsShortened b fs m.literal →
    ∀ t ∈ ts, t.text = ['"', '"'] → t.stop ≠ m.start
  /-- No chain that becomes a bare name makes a chain of what stands around it. -/
  bare : ∀ m ∈ literals ts, IsShortened b fs m.literal → ¬ Enclosed ts m

/-- What the canonical text of the rest of a script, which stands behind `o` bytes, has in common
with it. -/
structure Stable (o : Nat) (s : Text) : Prop where
  readsBack : ReadsBack b fs s
  rewrites : ∀ o', Rewrites (IsShortened b fs) (Cursor.tokens ⟨o, s⟩)
    (Cursor.tokens ⟨o', canonical b fs s⟩)
  head : (canonical b fs s).head? = s.head? ∨ s.head? = some 'P'
    ∧ (canonical b fs s).head? = some '"'
    ∧ ∃ m ∈ literals (Cursor.tokens ⟨o, s⟩), m.start = o ∧ IsShortened b fs m.literal

variable {b fs}

/-- A chain is enclosed by another one only. -/
theorem Enclosed.two_le {ts : List Token} {m : Match} {p : PatternLiteral} (h : Enclosed ts m)
    (hp : m.literal = .chain p) : 2 ≤ ts.countP (·.is "Pattern") := by
  obtain ⟨head, us, hus, opening, vs, close, rest, rfl, hhead, -, hhere, -⟩ := h
  obtain ⟨ws, rfl, htaken⟩ := exists_taken hhere
  have hshape := (htaken.covers m rfl).shape
  rw [hp] at hshape
  obtain ⟨inner, c, d, ws, rfl, hinner⟩ := hshape
  refine Nat.le_trans ?_ hus.sublist.countP_le
  simp only [List.cons_append, List.countP_cons, hhead, hinner, if_true]
  omega

/-- The widget of a literal that is written alone is read as itself. -/
theorem Apart.reading_eq {p : Cursor} {ts : List Token} {m : Match} {g : List Glyph}
    (h : Apart b fs ts) (hts : ts = p.tokens) (hm : m ∈ literals ts)
    (hwidget : widgetGlyphs? b fs m.literal = some g) : reading b fs (Glyph.join g) = g := by
  by_cases hchain : ∃ l, m.literal = .chain l
  · obtain ⟨l, hl⟩ := hchain
    exact h.alone m hm l g hl hwidget
  · exact reading_of_not_chain (hts ▸ hm) hwidget fun l hl => hchain ⟨l, hl⟩

/-- What is behind some of the tokens is apart with all of them. -/
theorem Apart.behind {us ts : List Token} (h : Apart b fs (us ++ ts))
    (hsub : ∀ m ∈ literals ts, m ∈ literals (us ++ ts)) : Apart b fs ts where
  alone m hm := h.alone m (hsub m hm)
  unglued m hm hshort t ht := h.unglued m (hsub m hm) hshort t (List.mem_append_right us ht)
  bare m hm hshort := by
    rintro ⟨head, vs, hvs, hencloses⟩
    exact h.bare m (hsub m hm) hshort ⟨head, vs, hvs.trans (List.suffix_append us ts), hencloses⟩

/-- A bare name is written for a bare name or for a chain. -/
theorem source_of_bare {l l' : Literal} {g : List Glyph} (h : WrittenAs b fs l g l')
    {us ts : List Token} {start stop o : Nat} (hcovers : Covers us ⟨start, stop, l⟩)
    (hhere : here? (us ++ ts) = some ⟨.literal ⟨start, stop, l⟩, ts⟩) {w : Token}
    (hw : Cursor.tokens ⟨o, Glyph.join g⟩ = [w]) (hname : (imageName? w).isSome) :
    (∃ u, us = [u] ∧ (imageName? u).isSome)
      ∨ ∃ m, here? (us ++ ts) = some ⟨.literal m, ts⟩ ∧ IsShortened b fs m.literal := by
  have hquote : (Glyph.join g).head? = some '"' := by
    have hshape := ((h.taken o).covers _ rfl).shape
    rw [hw] at hshape
    rw [h.opening]
    cases l' with
    | marker => rfl
    | fileName name => rfl
    | chain p =>
      obtain ⟨head, c, d, rest, heq, -⟩ := hshape
      simp at heq
    | region r =>
      obtain ⟨head, c, d, rest, heq, -⟩ := hshape
      simp at heq
  cases l with
  | chain p => exact Or.inr ⟨_, hhere, p, g, rfl, h.widget, hquote⟩
  | fileName name =>
    obtain ⟨u, rfl, -, hu⟩ := hcovers.shape
    refine Or.inl ⟨u, rfl, ?_⟩
    unfold quoted? at hu
    split at hu
    · simp at hu
    · obtain ⟨name', hname', -⟩ := Option.map_eq_some_iff.1 hu
      rw [hname']
      rfl
  | marker =>
    obtain rfl := Option.some.inj ((widgetGlyphs?_marker b fs).symm.trans h.widget)
    have hmarker : Glyph.join [.pattern (Pattern.quoted captureMarker)] =
        Pattern.quoted captureMarker := List.append_nil _
    rw [hmarker] at hw
    rw [imageName?_of_captureMarker hw] at hname
    simp at hname
  | region r =>
    obtain rfl := Option.some.inj ((widgetGlyphs?_region b fs r).symm.trans h.widget)
    have hletter : (Glyph.join [.region (Region.ofLiteral [] r).toText]).head? = some 'R' := rfl
    rw [hletter] at hquote
    simp at hquote

namespace Stable

variable {o : Nat} {x r : Text}

/-- A token before a text that is stable may have the canonical text behind it. -/
theorem carries (h : Stable b fs (o + Text.byteLen x) r)
    (hapart : Apart b fs (Cursor.tokens ⟨o, x⟩ ++ Cursor.tokens ⟨o + Text.byteLen x, r⟩))
    (hsub : ∀ m ∈ literals (Cursor.tokens ⟨o + Text.byteLen x, r⟩),
      m ∈ literals (Cursor.tokens ⟨o, x⟩ ++ Cursor.tokens ⟨o + Text.byteLen x, r⟩)) :
    ∀ u ∈ (tokenize x).getLast?, u.stop = Text.byteLen x → u.Carries r (canonical b fs r) := by
  intro u hu hstop
  refine Or.inr ?_
  rcases h.head with heq | ⟨hletter, hquote, m, hm, hstart, hshort⟩
  · exact Or.inl heq
  · refine Or.inr ⟨hletter, hquote, fun htext => ?_⟩
    refine hapart.unglued m (hsub m hm) hshort (u.shift o) ?_ htext ?_
    · rw [Cursor.tokens_eq_tokenize]
      exact List.mem_append_left _ (List.mem_map_of_mem (List.mem_of_getLast? hu))
    · rw [hstart, Token.stop_shift, hstop]

/-- Text that is kept before a stable text. -/
theorem keep (h : Stable b fs (o + Text.byteLen x) r) (hx : x ≠ []) (hparts : Parts x r)
    (hapart : Apart b fs (Cursor.tokens ⟨o, x⟩ ++ Cursor.tokens ⟨o + Text.byteLen x, r⟩))
    (hkept : reading b fs x = x.map .char)
    (hliterals : literals (Cursor.tokens ⟨o, x⟩ ++ Cursor.tokens ⟨o + Text.byteLen x, r⟩) =
      literals (Cursor.tokens ⟨o, x⟩) ++ literals (Cursor.tokens ⟨o + Text.byteLen x, r⟩))
    (hagain : let ts := Cursor.tokens ⟨o + Text.byteLen x, canonical b fs r⟩
      literals (Cursor.tokens ⟨o, x⟩ ++ ts) = literals (Cursor.tokens ⟨o, x⟩) ++ literals ts) :
    Stable b fs o (x ++ r) := by
  have hparts' : Parts x (canonical b fs r) := by
    refine hparts.carry (h.carries hapart fun m hm => ?_)
    rw [hliterals]
    exact List.mem_append_right _ hm
  have hreading := reading_append b fs (seam_of_parts o hparts hliterals)
  have hcanonical : canonical b fs (x ++ r) = x ++ canonical b fs r := by
    rw [canonical, hreading, hkept, Glyph.join_append, join_map_char]
    rfl
  refine ⟨?_, ?_, ?_⟩
  · unfold ReadsBack
    rw [show Glyph.join (reading b fs (x ++ r)) = x ++ canonical b fs r from hcanonical,
      reading_append b fs (seam_of_parts o hparts' hagain), hreading]
    exact congrArg (reading b fs x ++ ·) h.readsBack
  · intro o'
    rw [hcanonical, hparts.tokens, hparts'.tokens, Cursor.tokens_eq_tokenize o x,
      Cursor.tokens_eq_tokenize o' x]
    exact (h.rewrites _).keepAll fun t _ => .shift t o o'
  · obtain ⟨c, x, rfl⟩ := List.exists_cons_of_ne_nil hx
    rw [hcanonical]
    exact Or.inl rfl

/-- A literal that is written anew before a stable text. -/
theorem swap {l : Literal} {g : List Glyph} (h : Stable b fs (o + Text.byteLen x) r)
    (hparts : Parts x r)
    (hapart : Apart b fs (Cursor.tokens ⟨o, x⟩ ++ Cursor.tokens ⟨o + Text.byteLen x, r⟩))
    (htaken : Taken (Cursor.tokens ⟨o, x⟩)
      ⟨.literal ⟨o, o + Text.byteLen x, l⟩, Cursor.tokens ⟨o + Text.byteLen x, r⟩⟩)
    (hwidget : widgetGlyphs? b fs l = some g) : Stable b fs o (x ++ r) := by
  have hliterals := htaken.literals_append htaken.ends
  have hmem : ⟨o, o + Text.byteLen x, l⟩ ∈
      literals (Cursor.tokens ⟨o, x⟩ ++ Cursor.tokens ⟨o + Text.byteLen x, r⟩) := by
    rw [hliterals]
    exact List.mem_cons_self ..
  have halone := hapart.reading_eq (hparts.tokens o).symm hmem hwidget
  obtain ⟨l', hwritten⟩ := exists_writtenAs b fs hwidget halone
    fun name hname => head?_of_fileName (hname ▸ hwidget)
  have hcovers := htaken.covers _ rfl
  have hx : reading b fs x = g := by
    rw [reading_of_literal htaken.literals_eq rfl rfl, hwidget]
    rfl
  have hreading : reading b fs (x ++ r) = g ++ reading b fs r := by
    rw [reading_append b fs (seam_of_parts o hparts ?_), hx]
    rw [hliterals, htaken.literals_eq]
  have hcanonical : canonical b fs (x ++ r) = Glyph.join g ++ canonical b fs r := by
    rw [canonical, hreading, Glyph.join_append]
    rfl
  have hparts' : Parts (Glyph.join g) (canonical b fs r) := by
    refine (Parts.nil (Glyph.join g)).carry fun u hu _ => Or.inl ?_
    exact ((hwritten.taken 0).covers _ rfl).closed u hu
  have hends : ∀ o', (Finding.literal ⟨o, o + Text.byteLen x, l⟩).Ends
      (Cursor.tokens ⟨o', canonical b fs r⟩) := fun o' => (h.rewrites o').ends htaken.ends
  refine ⟨?_, ?_, ?_⟩
  · have hliterals' := (hwritten.taken 0).literals_append
      (hwritten.ends (hends (0 + Text.byteLen (Glyph.join g))) 0 (0 + Text.byteLen (Glyph.join g)))
    unfold ReadsBack
    rw [show Glyph.join (reading b fs (x ++ r)) = _ from hcanonical,
      reading_append b fs (seam_of_parts 0 hparts' ?_), hreading, halone]
    · exact congrArg (g ++ ·) h.readsBack
    · rw [hliterals', (hwritten.taken 0).literals_eq]
  · intro o'
    rw [hcanonical, hparts.tokens, hparts'.tokens]
    exact .swap hcovers.toBlock ((hwritten.taken o').covers _ rfl).toBlock
      (fun w hw hname => source_of_bare hwritten hcovers (htaken.again _ htaken.ends) hw hname)
      (h.rewrites _)
  · rw [hcanonical, List.head?_append, List.head?_append, hwritten.opening,
      head?_of_covers hcovers rfl]
    simp only [Option.some_or, Option.some.injEq]
    rcases hwritten.opening_eq with heq | ⟨⟨p, rfl⟩, hquote⟩
    · exact Or.inl heq
    · have hshort : IsShortened b fs (.chain p) :=
        ⟨p, g, rfl, hwidget, by rw [hwritten.opening, hquote]⟩
      rw [← hparts.tokens] at hmem
      exact Or.inr ⟨rfl, hquote, ⟨o, o + Text.byteLen x, .chain p⟩, hmem, rfl, hshort⟩

/-- Tokens that a step took and that stay text. -/
theorem keep_taken {found : Step} (h : Stable b fs (o + Text.byteLen x) r) (hx : x ≠ [])
    (hparts : Parts x r)
    (hapart : Apart b fs (Cursor.tokens ⟨o, x⟩ ++ Cursor.tokens ⟨o + Text.byteLen x, r⟩))
    (hkept : reading b fs x = x.map .char) (htaken : Taken (Cursor.tokens ⟨o, x⟩) found)
    (hrest : found.rest = Cursor.tokens ⟨o + Text.byteLen x, r⟩) : Stable b fs o (x ++ r) := by
  have hends := htaken.ends
  rw [hrest] at hends
  refine h.keep hx hparts hapart hkept ?_ ?_
  · rw [htaken.literals_append hends, htaken.literals_eq]
  · have hends' := (h.rewrites (o + Text.byteLen x)).ends hends
    dsimp only
    rw [htaken.literals_append hends', htaken.literals_eq]

/-- What a step took, whether it stays text or is written anew. -/
theorem taken {f : Finding} (h : Stable b fs (o + Text.byteLen x) r) (hx : x ≠ [])
    (hparts : Parts x r)
    (hapart : Apart b fs (Cursor.tokens ⟨o, x⟩ ++ Cursor.tokens ⟨o + Text.byteLen x, r⟩))
    (htaken : Taken (Cursor.tokens ⟨o, x⟩) ⟨f, Cursor.tokens ⟨o + Text.byteLen x, r⟩⟩)
    (hfirst : ∀ t ∈ (Cursor.tokens ⟨o, x⟩).head?, t.offset = o)
    (hlast : ∀ t ∈ (Cursor.tokens ⟨o, x⟩).getLast?, t.stop = o + Text.byteLen x) :
    Stable b fs o (x ++ r) := by
  have hself := htaken.literals_eq
  cases f with
  | rejected e => exact h.keep_taken hx hparts hapart (reading_of_no_literal hself) htaken rfl
  | literal m =>
    have hcovers := htaken.covers m rfl
    have hne : Cursor.tokens ⟨o, x⟩ ≠ [] := by
      obtain ⟨head, rest, heq, -⟩ := hcovers.toBlock.exists_head
      rw [heq]
      exact List.cons_ne_nil head rest
    obtain ⟨start, stop, l⟩ := m
    obtain rfl : start = o :=
      (hcovers.start_eq _ (List.head?_eq_some_head hne)).trans
        (hfirst _ (List.head?_eq_some_head hne))
    obtain rfl : stop = start + Text.byteLen x :=
      (hcovers.stop_eq _ (List.getLast?_eq_some_getLast hne)).trans
        (hlast _ (List.getLast?_eq_some_getLast hne))
    cases hwidget : widgetGlyphs? b fs l with
    | some g => exact h.swap hparts hapart htaken hwidget
    | none =>
      refine h.keep_taken hx hparts hapart ?_ htaken rfl
      rw [reading_of_literal hself rfl rfl, hwidget]
      rfl

/-- A token that is no literal. -/
theorem keep_token {t : Token} (h : Stable b fs (o + Text.byteLen x) r) (hx : x ≠ [])
    (hparts : Parts x r) (ht : Cursor.tokens ⟨o, x⟩ = [t])
    (hapart : Apart b fs (Cursor.tokens ⟨o, x⟩ ++ Cursor.tokens ⟨o + Text.byteLen x, r⟩))
    (hnone : here? (t :: Cursor.tokens ⟨o + Text.byteLen x, r⟩) = none) :
    Stable b fs o (x ++ r) := by
  have hself : literals [t] = [] := by
    rw [literals_of_none (here?_singleton hnone)]
    simp [literals, scan]
  have hkept : reading b fs x = x.map .char := reading_of_no_literal (by rw [ht, hself])
  refine h.keep hx hparts hapart hkept ?_ ?_
  · rw [ht, hself]
    exact literals_of_none hnone
  · rw [ht, hself]
    refine literals_of_none ((h.rewrites _).here?_eq_none ⟨rfl, rfl⟩ hnone ?_)
    rintro m hshort ⟨opening, us, close, rest, hts, hhead, hopening, hhere, hclose⟩
    -- The scan passes the two tokens before the literal and finds it.
    have hfound : m ∈ literals (t :: opening :: us) := by
      rw [hts] at hnone
      have hskip : here? (opening :: us) = none :=
        here?_of_not_opens (Token.opens_of_is hopening (by decide) (by decide)) us
      rw [literals_of_none hnone, literals_of_none hskip]
      cases us with
      | nil => simp [here?_nil] at hhere
      | cons u us =>
        rw [literals_of_some hhere]
        exact List.mem_cons_self ..
    rw [ht, List.singleton_append, hts] at hapart
    exact hapart.bare m hfound hshort ⟨t, opening :: us, List.suffix_refl _, opening, us, close, rest,
      rfl, hhead, hopening, hhere, hclose⟩

theorem nil (o : Nat) : Stable b fs o [] := by
  have htokens := Cursor.tokens_nil
  have hreading := Synthesis.reading_nil b fs
  have hcanonical : canonical b fs [] = [] := by
    rw [canonical, hreading]
    rfl
  refine ⟨?_, ?_, Or.inl (by rw [hcanonical])⟩
  · unfold ReadsBack
    rw [hreading]
    exact hreading
  · intro o'
    rw [hcanonical, htokens, htokens]
    exact .nil

/-- A blank before a stable text. -/
theorem blank {c : Char} (hc : Lexeme.isBlank c = true) (h : Stable b fs (o + Text.byteLen [c]) r)
    (hapart : Apart b fs (Cursor.tokens ⟨o + Text.byteLen [c], r⟩)) : Stable b fs o (c :: r) := by
  have hnext : ∀ o, Cursor.next? ⟨o, [c]⟩ = none := by
    intro o
    simp [Cursor.next?, Cursor.nextLexeme?, hc]
  have htokens : Cursor.tokens ⟨o, [c]⟩ = [] := Cursor.tokens_of_none (hnext o)
  have hnone : literals [] = [] := by simp [literals, scan]
  have hparts : Parts [c] r := by
    refine .of_tokens (o := o) ?_
    rw [htokens]
    exact Cursor.tokens_append_of_none (hnext o) r
  refine h.keep (x := [c]) (by simp) hparts ?_ ?_ ?_ ?_
  · rw [htokens]
    exact hapart
  · exact reading_of_no_literal (by rw [htokens, hnone])
  · rw [htokens, hnone]
    rfl
  · rw [htokens, hnone]
    rfl

end Stable

/-- Some first tokens are a text of their own before the rest. -/
theorem exists_cut_of_tokens {o : Nat} {s : Text} {us ts : List Token}
    (h : Cursor.tokens ⟨o, s⟩ = us ++ ts) (hus : us ≠ []) : ∃ x r, s = x ++ r ∧ x ≠ [] ∧ Parts x r
      ∧ Cursor.tokens ⟨o, x⟩ = us ∧ Cursor.tokens ⟨o + Text.byteLen x, r⟩ = ts
      ∧ ∀ u ∈ us.getLast?, u.stop = o + Text.byteLen x := by
  obtain ⟨x, r, hs, hx, hr, -, hlast⟩ := Cursor.exists_cut ⟨o, s⟩ h
  dsimp only at hs hx hr hlast
  refine ⟨x, r, hs, ?_, .of_tokens (o := o) ?_, hx, hr, hlast⟩
  · rintro rfl
    rw [Cursor.tokens_nil] at hx
    exact hus hx.symm
  · rw [← hs, h, hx, hr]

/-- The canonical text of a script that is apart is read as the script. -/
theorem stable_of_apart (o : Nat) (s : Text) (h : Apart b fs (Cursor.tokens ⟨o, s⟩)) :
    Stable b fs o s := by
  cases s with
  | nil => exact .nil o
  | cons c s =>
    by_cases hblank : Lexeme.isBlank c = true
    · have hnext : Cursor.next? ⟨o, [c]⟩ = none := by
        simp [Cursor.next?, Cursor.nextLexeme?, hblank]
      have hbehind : Apart b fs (Cursor.tokens ⟨o + Text.byteLen [c], s⟩) := by
        rw [← Cursor.tokens_append_of_none hnext s]
        exact h
      exact .blank hblank (stable_of_apart _ s hbehind) hbehind
    · obtain ⟨t, ts, htokens, hoffset⟩ :=
        Cursor.exists_next?_of_not_blank (Bool.eq_false_iff.2 hblank) o s
      cases hhere : here? (t :: ts) with
      | none =>
        obtain ⟨x, r, hs, hx, hparts, hus, hts, -⟩ :=
          exists_cut_of_tokens (htokens.trans (List.singleton_append (x := t)).symm) (by simp)
        have hlt : r.length < (c :: s).length := by
          rw [hs, List.length_append]
          have hpos := List.length_pos_iff.2 hx
          omega
        rw [hs] at h ⊢
        rw [hparts.tokens] at h
        rw [← hts] at hhere
        have hbehind := h.behind fun m hm => by
          rw [hus]
          exact (literals_of_none hhere).symm ▸ hm
        exact (stable_of_apart _ r hbehind).keep_token hx hparts hus h hhere
      | some found =>
        obtain ⟨us, hsplit, htaken⟩ := exists_taken hhere
        obtain ⟨x, r, hs, hx, hparts, rfl, hts, hlast⟩ :=
          exists_cut_of_tokens (htokens.trans hsplit) htaken.ne_nil
        have hlt : r.length < (c :: s).length := by
          rw [hs, List.length_append]
          have hpos := List.length_pos_iff.2 hx
          omega
        obtain ⟨f, rest⟩ := found
        obtain rfl : Cursor.tokens ⟨o + Text.byteLen x, r⟩ = rest := hts
        have hfirst : ∀ u ∈ (Cursor.tokens ⟨o, x⟩).head?, u.offset = o := by
          intro u hu
          obtain ⟨us, hus⟩ := List.head?_eq_some_iff.1 (Option.mem_def.1 hu)
          rw [hus, List.cons_append, List.cons.injEq] at hsplit
          rw [← hsplit.1, hoffset]
        rw [hs] at h ⊢
        rw [hparts.tokens] at h
        have hbehind := h.behind fun m hm => by
          rw [htaken.literals_append htaken.ends]
          exact List.mem_append_right _ hm
        exact (stable_of_apart _ r hbehind).taken hx hparts h htaken hfirst hlast
termination_by s.length

end ImageScript
