import ImageScript.Proofs.Document.Seam
import ImageScript.Proofs.Script.Rewriting

/-!
# The text of one literal

A text that is one literal from end to end is read as the widget of the literal. Conversely, a text
that is read as one widget is one literal, and so the text of a widget that stands for itself begins
with the first token of a literal and ends with a closed one.

Main statements: `reading_of_literal`, `exists_literal_of_reading`.
-/

namespace ImageScript

variable {σ : Type} [FileSystem σ] (b : Bundle) (fs : σ)

open Recognition

/-- Nothing is left of the slice up to a boundary where it stands at the start. -/
theorem eq_zero_of_slice {s : Text} {n : Nat} (hn : s.Boundary n) (h : Text.slice 0 n s = []) :
    n = 0 := by
  obtain ⟨a, c, rfl, rfl⟩ := hn
  have hslice := Text.slice_append [] a c
  simp only [List.nil_append, Text.byteLen_nil] at hslice
  rw [hslice] at h
  rw [h, Text.byteLen_nil]

theorem eq_byteLen_of_slice {s : Text} {n : Nat} (hn : s.Boundary n)
    (h : Text.slice n (Text.byteLen s) s = []) : n = Text.byteLen s := by
  obtain ⟨a, c, rfl, rfl⟩ := hn
  have hslice := Text.slice_append a c []
  rw [List.append_nil] at hslice
  rw [hslice] at h
  rw [h, List.append_nil]

/-- The character with which a literal begins. -/
def Literal.opening : Literal → Char
  | .chain _ => 'P'
  | .region _ => 'R'
  | .marker | .fileName _ => '"'

/-- The first token of a text begins with its first character, unless blanks stand before it. -/
theorem head?_of_tokens {o : Nat} {x : Text} {t : Token} {ts : List Token}
    (h : Cursor.tokens ⟨o, x⟩ = t :: ts) (hoffset : t.offset = o) : x.head? = t.text.head? := by
  cases hnext : Cursor.next? ⟨o, x⟩ with
  | none =>
    rw [Cursor.tokens_of_none hnext] at h
    simp at h
  | some v =>
    obtain ⟨v, q⟩ := v
    rw [Cursor.tokens_of_some hnext, List.cons.injEq] at h
    obtain ⟨rfl, -⟩ := h
    obtain ⟨blanks, c, m, k, hx, -, rfl, -, -⟩ := Cursor.exists_of_next? hnext
    have hnil : blanks = [] := by
      by_contra hne
      have hpos := Text.byteLen_pos hne
      dsimp only at hoffset
      omega
    dsimp only at hx
    rw [hx, hnil]
    rfl

/-- A literal at the head of a text begins with the character of its sort. -/
theorem head?_of_covers {o : Nat} {x : Text} {m : Match} (h : Covers (Cursor.tokens ⟨o, x⟩) m)
    (hstart : m.start = o) : x.head? = some m.literal.opening := by
  have hhead : ∀ {head : Token} {rest : List Token}, Cursor.tokens ⟨o, x⟩ = head :: rest →
      x.head? = head.text.head? := by
    intro head rest htokens
    refine head?_of_tokens htokens ?_
    rw [← h.start_eq head (by rw [htokens]; rfl), hstart]
  have hshape := h.shape
  have hquoted : ∀ {t : Token}, Cursor.tokens ⟨o, x⟩ = [t] → t.isDoubleQuoted = true →
      x.head? = some '"' := by
    intro t htokens hquoted
    simp only [Token.isDoubleQuoted, Bool.and_eq_true, decide_eq_true_eq] at hquoted
    rw [hhead htokens, hquoted.2]
  cases hl : m.literal with
  | marker =>
    rw [hl] at hshape
    obtain ⟨t, htokens, ht, -⟩ := hshape
    exact hquoted htokens ht
  | fileName name =>
    rw [hl] at hshape
    obtain ⟨t, htokens, ht, -⟩ := hshape
    exact hquoted htokens ht
  | chain p =>
    rw [hl] at hshape
    obtain ⟨head, c, d, rest, htokens, hword⟩ := hshape
    rw [hhead htokens, Token.text_of_is hword]
    rfl
  | region r =>
    rw [hl] at hshape
    obtain ⟨head, c, d, rest, htokens, hword⟩ := hshape
    rw [hhead htokens, Token.text_of_is hword]
    rfl

namespace Text

theorem count_ofNat (n : Nat) : (ofNat n).count '(' = 0 := by
  rw [List.count_eq_zero]
  intro hmem
  have hdigit := Nat.isDigit_of_mem_toDigits (by decide) (by decide) hmem
  exact absurd hdigit (by decide)

theorem count_ofInt (i : Int) : (ofInt i).count '(' = 0 := by
  cases i with
  | ofNat n => exact count_ofNat n
  | negSucc n =>
    rw [ofInt, List.count_cons, count_ofNat]
    rfl

end Text

theorem Region.count_toText (r : Region) :
    r.toText.count '(' = if r.asOffset then 2 else 1 := by
  have hname : "Region(".toList.count '(' = 1 := by decide
  have hclose : ")".toList.count '(' = 0 := by decide
  have hmarker : ".asOffset()".toList.count '(' = 1 := by decide
  have hcomma : ∀ s : Text, List.count '(' (',' :: s) = List.count '(' s := fun s => by
    rw [List.count_cons]
    rfl
  unfold toText
  simp only [List.count_append, hcomma, Text.count_ofInt, hname, hclose]
  cases r.asOffset with
  | false => simp
  | true => rw [if_pos rfl, if_pos rfl, hmarker]

/-- The text of a region tells whether it is marked as an offset. -/
theorem Region.asOffset_of_toText {r r' : Region} (h : r.toText = r'.toText) :
    r.asOffset = r'.asOffset := by
  have heq := congrArg (List.count '(') h
  rw [count_toText, count_toText] at heq
  cases hr : r.asOffset <;> cases hr' : r'.asOffset <;> simp [hr, hr'] at heq ⊢

namespace Synthesis

theorem widgetGlyphs?_marker :
    widgetGlyphs? b fs .marker = some [.pattern (Pattern.quoted captureMarker)] := rfl

theorem widgetGlyphs?_region (r : RegionLiteral) :
    widgetGlyphs? b fs (.region r) = some [.region (Region.ofLiteral [] r).toText] := rfl

/-- A literal with an image becomes a pattern. -/
theorem exists_pattern_of_widgetGlyphs? {l : Literal} {g : List Glyph} (himage : l.image? ≠ none)
    (h : widgetGlyphs? b fs l = some g) : ∃ p : Pattern, g = [.pattern p.toText] := by
  obtain ⟨w, hw, rfl⟩ := Option.map_eq_some_iff.1 h
  cases l with
  | marker => exact absurd rfl himage
  | region r => exact absurd rfl himage
  | chain p =>
    obtain ⟨name, path, -, -, rfl⟩ := exists_of_pattern? hw
    exact ⟨_, rfl⟩
  | fileName name =>
    obtain ⟨name, path, -, -, rfl⟩ := exists_of_pattern? hw
    exact ⟨_, rfl⟩

/-- The text of a widget begins with the character of its literal, but the one of a pattern may
begin with a quote or with a letter. -/
theorem head?_of_widgetGlyphs? {l : Literal} {g : List Glyph}
    (h : widgetGlyphs? b fs l = some g) : (Glyph.join g).head? = some l.opening
      ∨ l.image? ≠ none ∧ ((Glyph.join g).head? = some '"' ∨ (Glyph.join g).head? = some 'P') := by
  have hpattern : l.image? ≠ none →
      (Glyph.join g).head? = some '"' ∨ (Glyph.join g).head? = some 'P' := by
    intro himage
    obtain ⟨p, rfl⟩ := exists_pattern_of_widgetGlyphs? b fs himage h
    rw [Glyph.join, List.flatMap_cons, List.flatMap_nil, List.append_nil]
    exact Segment.head?_toText_pattern p
  cases l with
  | marker =>
    obtain rfl := Option.some.inj ((widgetGlyphs?_marker b fs).symm.trans h)
    exact Or.inl rfl
  | region r =>
    obtain rfl := Option.some.inj ((widgetGlyphs?_region b fs r).symm.trans h)
    exact Or.inl rfl
  | chain p => exact Or.inr ⟨by simp [Literal.image?], hpattern (by simp [Literal.image?])⟩
  | fileName name => exact Or.inr ⟨by simp [Literal.image?], hpattern (by simp [Literal.image?])⟩

/-- A literal becomes one glyph, which is no character. -/
theorem exists_of_widgetGlyphs? {l : Literal} {g : List Glyph}
    (h : widgetGlyphs? b fs l = some g) : ∃ γ, g = [γ] ∧ ∀ c, γ ≠ .char c := by
  have hpattern : l.image? ≠ none → ∃ γ, g = [γ] ∧ ∀ c, γ ≠ .char c := by
    intro himage
    obtain ⟨p, rfl⟩ := exists_pattern_of_widgetGlyphs? b fs himage h
    exact ⟨_, rfl, by simp⟩
  cases l with
  | marker =>
    obtain rfl := Option.some.inj ((widgetGlyphs?_marker b fs).symm.trans h)
    exact ⟨_, rfl, by simp⟩
  | region r =>
    obtain rfl := Option.some.inj ((widgetGlyphs?_region b fs r).symm.trans h)
    exact ⟨_, rfl, by simp⟩
  | chain p => exact hpattern (by simp [Literal.image?])
  | fileName name => exact hpattern (by simp [Literal.image?])

variable {b fs} {s : Text} {hi cursor : Nat} {ms : List Match}

theorem slice_of_readFrom_nil (h : readFrom b fs s hi cursor ms = []) :
    Text.slice cursor hi s = [] := by
  induction ms with
  | nil => simpa [readFrom] using h
  | cons m ms ih =>
    simp only [readFrom] at h
    split at h
    · exact ih h
    · next g hg =>
      obtain ⟨γ, rfl, -⟩ := exists_of_widgetGlyphs? b fs hg
      simp at h

/-- One widget is read from one literal, with no text before and behind it. -/
theorem exists_of_readFrom_singleton {γ : Glyph} (hγ : ∀ c, γ ≠ .char c)
    (h : readFrom b fs s hi cursor ms = [γ]) : ∃ m ∈ ms, widgetGlyphs? b fs m.literal = some [γ]
      ∧ Text.slice cursor m.start s = [] ∧ Text.slice m.stop hi s = [] := by
  induction ms with
  | nil =>
    simp only [readFrom, List.map_eq_singleton_iff] at h
    obtain ⟨c, -, hc⟩ := h
    exact absurd hc.symm (hγ c)
  | cons m ms ih =>
    simp only [readFrom] at h
    split at h
    · obtain ⟨m', hm', hrest⟩ := ih h
      exact ⟨m', List.mem_cons_of_mem _ hm', hrest⟩
    · next g hg =>
      refine ⟨m, List.mem_cons_self .., ?_⟩
      obtain ⟨δ, rfl, -⟩ := exists_of_widgetGlyphs? b fs hg
      cases hslice : Text.slice cursor m.start s with
      | nil =>
        rw [hslice] at h
        simp only [List.map_nil, List.nil_append, List.cons_append, List.cons.injEq] at h
        obtain ⟨rfl, hrest⟩ := h
        exact ⟨hg, rfl, slice_of_readFrom_nil hrest⟩
      | cons c r =>
        rw [hslice] at h
        simp only [List.map_cons, List.cons_append, List.cons.injEq] at h
        exact absurd h.1.symm (hγ c)

end Synthesis

variable {b fs}

/-- A text that is one literal from end to end is read as its widget. -/
theorem reading_of_literal {o : Nat} {x : Text} {m : Match}
    (h : literals (Cursor.tokens ⟨o, x⟩) = [m]) (hstart : m.start = o)
    (hstop : m.stop = o + Text.byteLen x) :
    reading b fs x = (Synthesis.widgetGlyphs? b fs m.literal).getD (x.map .char) := by
  rw [literals_tokens] at h
  obtain ⟨m, hm, rfl⟩ := List.map_eq_singleton_iff.1 h
  obtain ⟨start, stop, l⟩ := m
  simp only [Match.shift] at hstart hstop
  obtain rfl : start = 0 := by omega
  obtain rfl : stop = Text.byteLen x := by omega
  have hbefore : Text.slice 0 0 x = [] := Text.slice_append [] [] x
  have hbehind : Text.slice (Text.byteLen x) (Text.byteLen x) x = [] := by
    have hslice := Text.slice_append x [] []
    rwa [List.append_nil, List.append_nil] at hslice
  rw [Synthesis.reading_eq_readFrom, hm]
  simp only [Synthesis.readFrom, Match.shift, hbefore, hbehind, Text.slice_whole, List.map_nil,
    List.nil_append, List.append_nil]
  cases Synthesis.widgetGlyphs? b fs l <;> rfl

/-- A text without literals is read character by character. -/
theorem reading_of_no_literal {o : Nat} {x : Text} (h : literals (Cursor.tokens ⟨o, x⟩) = []) :
    reading b fs x = x.map .char := by
  rw [literals_tokens, List.map_eq_nil_iff] at h
  rw [Synthesis.reading_eq_readFrom, h, Synthesis.readFrom, Text.slice_whole]

/-- A text that is one literal is one wherever it stands. -/
theorem here?_tokens {x : Text} {l : Literal}
    (h : here? (tokenize x) = some ⟨.literal ⟨0, Text.byteLen x, l⟩, []⟩) (o : Nat) :
    here? (Cursor.tokens ⟨o, x⟩) = some ⟨.literal ⟨o, o + Text.byteLen x, l⟩, []⟩ := by
  have hshift := here?_shift o (tokenize x)
  rw [h, ← Cursor.tokens_eq_tokenize, Option.map_some, Option.map_eq_some_iff] at hshift
  obtain ⟨⟨finding, rest⟩, hhere, houtcome⟩ := hshift
  rw [hhere]
  cases finding with
  | rejected e => simp [Step.outcome, Step.shifted, Finding.match?] at houtcome
  | literal m =>
    simp only [Step.outcome, Step.shifted, Finding.match?, Option.map_some, List.map_nil,
      Prod.mk.injEq, Option.some.injEq] at houtcome
    obtain ⟨rfl, rfl⟩ := houtcome
    rfl

/-- A text that is read as one widget is one literal, wherever it stands. -/
theorem exists_literal_of_reading {x : Text} {γ : Glyph} (hγ : ∀ c, γ ≠ .char c)
    (h : reading b fs x = [γ]) : ∃ l, Synthesis.widgetGlyphs? b fs l = some [γ]
      ∧ ∀ o, here? (Cursor.tokens ⟨o, x⟩) = some ⟨.literal ⟨o, o + Text.byteLen x, l⟩, []⟩ := by
  suffices h : ∃ m, here? (tokenize x) = some ⟨.literal m, []⟩ ∧ m.start = 0
      ∧ m.stop = Text.byteLen x ∧ Synthesis.widgetGlyphs? b fs m.literal = some [γ] by
    obtain ⟨⟨start, stop, l⟩, hhere, rfl, rfl, hwidget⟩ := h
    exact ⟨l, hwidget, here?_tokens hhere⟩
  rw [Synthesis.reading_eq_readFrom] at h
  obtain ⟨m, hm, hwidget, hbefore, hbehind⟩ := Synthesis.exists_of_readFrom_singleton hγ h
  have hwithin := within_of_mem_recognizeAll hm
  have hstart := eq_zero_of_slice hwithin.start hbefore
  have hstop := eq_byteLen_of_slice hwithin.stop hbehind
  rw [recognizeAll_eq_literals] at hm
  have hpairwise := pairwise_tokenize x
  have hwithin' := fun t (ht : t ∈ tokenize x) => (within_of_mem_tokenize t ht).stop.le
  have hnonempty := fun t (ht : t ∈ tokenize x) => offset_lt_stop_of_mem_tokenize t ht
  -- A literal that begins with a later token does not begin with the text.
  have hfirst : ∀ us vs, tokenize x = us ++ vs → us ≠ [] → m ∉ literals vs := by
    intro us vs hsplit hus hm
    obtain ⟨t, us, rfl⟩ := List.exists_cons_of_ne_nil hus
    obtain ⟨v, hv, hoffset⟩ := exists_token_of_mem_literals hm
    rw [hsplit] at hpairwise hnonempty
    have hle := List.rel_of_pairwise_cons hpairwise (List.mem_append_right us hv)
    have hlt := hnonempty t (by simp)
    omega
  cases htokens : tokenize x with
  | nil =>
    rw [htokens] at hm
    simp [literals, scan] at hm
  | cons t ts =>
    rw [htokens] at hm hfirst
    cases hhere : here? (t :: ts) with
    | none =>
      rw [literals_of_none hhere] at hm
      exact absurd hm (hfirst [t] ts rfl (by simp))
    | some s =>
      obtain ⟨us, hsplit, htaken⟩ := exists_taken hhere
      rw [literals_of_some hhere, List.mem_append, Option.mem_toList] at hm
      rcases hm with hm | hm
      · obtain ⟨finding, rest⟩ := s
        cases finding with
        | rejected e => simp [Step.outcome, Finding.match?] at hm
        | literal m' =>
          obtain rfl : m' = m := Option.some.inj hm
          refine ⟨m', ?_, hstart, hstop, hwidget⟩
          cases rest with
          | nil => rfl
          | cons v rest =>
            -- A token behind the literal would stand behind the end of the text.
            obtain ⟨last, hlast⟩ : ∃ last, us.getLast? = some last :=
              ⟨_, List.getLast?_eq_some_getLast htaken.ne_nil⟩
            have hlastStop := (htaken.covers m' rfl).stop_eq last hlast
            have hv : v ∈ tokenize x := by
              rw [htokens, hsplit]
              simp
            have hend := hwithin' v hv
            have hlt := hnonempty v hv
            rw [htokens, hsplit, List.pairwise_append] at hpairwise
            have hle := hpairwise.2.2 last (List.mem_of_getLast? hlast) v (by simp)
            omega
      · exact absurd hm (hfirst us s.rest hsplit htaken.ne_nil)

/-! ### Written widgets -/

open Synthesis

variable (b fs)

/-- What the text of a widget is by itself: a literal that makes the same widget, and that begins a
chain only where the widget comes from one. -/
structure WrittenAs (l : Literal) (g : List Glyph) (l' : Literal) : Prop where
  widget : widgetGlyphs? b fs l = some g
  widget' : widgetGlyphs? b fs l' = some g
  opening : (Glyph.join g).head? = some l'.opening
  chain : (Glyph.join g).head? = some 'P' → ∃ p, l = .chain p
  taken : ∀ o, Taken (Cursor.tokens ⟨o, Glyph.join g⟩)
    ⟨.literal ⟨o, o + Text.byteLen (Glyph.join g), l'⟩, []⟩

theorem exists_writtenAs {l : Literal} {g : List Glyph} (hwidget : widgetGlyphs? b fs l = some g)
    (halone : reading b fs (Glyph.join g) = g)
    (hplain : ∀ name, l = .fileName name → (Glyph.join g).head? = some '"') :
    ∃ l', WrittenAs b fs l g l' := by
  obtain ⟨γ, rfl, hγ⟩ := exists_of_widgetGlyphs? b fs hwidget
  obtain ⟨l', hwidget', hhere⟩ := exists_literal_of_reading hγ halone
  have htaken : ∀ o, Taken (Cursor.tokens ⟨o, Glyph.join [γ]⟩)
      ⟨.literal ⟨o, o + Text.byteLen (Glyph.join [γ]), l'⟩, []⟩ := by
    intro o
    obtain ⟨us, hus, htaken⟩ := exists_taken (hhere o)
    rw [List.append_nil] at hus
    rwa [hus]
  refine ⟨l', hwidget, hwidget', ?_, ?_, htaken⟩
  · exact head?_of_covers ((htaken 0).covers _ rfl) rfl
  · intro hletter
    cases l with
    | chain p => exact ⟨p, rfl⟩
    | fileName name =>
      rw [hplain name rfl] at hletter
      simp at hletter
    | marker =>
      rcases head?_of_widgetGlyphs? b fs hwidget with h | ⟨himage, -⟩
      · rw [hletter] at h
        simp [Literal.opening] at h
      · exact absurd rfl himage
    | region r =>
      rcases head?_of_widgetGlyphs? b fs hwidget with h | ⟨himage, -⟩
      · rw [hletter] at h
        simp [Literal.opening] at h
      · exact absurd rfl himage

variable {b fs}

/-- A widget is written with the first character of its literal, but a chain may lose its name. -/
theorem WrittenAs.opening_eq {l l' : Literal} {g : List Glyph} (h : WrittenAs b fs l g l') :
    l'.opening = l.opening ∨ (∃ p, l = .chain p) ∧ l'.opening = '"' := by
  have hopening := h.opening
  rcases head?_of_widgetGlyphs? b fs h.widget with heq | ⟨himage, hquote | hletter⟩
  · rw [heq, Option.some.injEq] at hopening
    exact Or.inl hopening.symm
  · rw [hquote, Option.some.injEq] at hopening
    cases l with
    | chain p => exact Or.inr ⟨⟨p, rfl⟩, hopening.symm⟩
    | fileName name => exact Or.inl hopening.symm
    | marker => exact absurd rfl himage
    | region r => exact absurd rfl himage
  · rw [hletter, Option.some.injEq] at hopening
    obtain ⟨p, rfl⟩ := h.chain hletter
    exact Or.inl hopening.symm

/-- The literal that a widget is written as ends where the one it comes from does. -/
theorem WrittenAs.ends {l l' : Literal} {g : List Glyph} (h : WrittenAs b fs l g l') {start stop : Nat}
    {ts : List Token} (hends : (Finding.literal ⟨start, stop, l⟩).Ends ts) (start' stop' : Nat) :
    (Finding.literal ⟨start', stop', l'⟩).Ends ts := by
  have hm := h.widget
  cases l' with
  | marker => trivial
  | fileName name => trivial
  | chain p' =>
    obtain ⟨p, rfl⟩ := h.chain h.opening
    exact hends
  | region r' =>
    obtain rfl := Option.some.inj ((widgetGlyphs?_region b fs r').symm.trans h.widget')
    have hpattern : l.image? = none := by
      by_contra himage
      obtain ⟨q, hq⟩ := exists_pattern_of_widgetGlyphs? b fs himage hm
      simp at hq
    cases l with
    | marker =>
      rw [widgetGlyphs?_marker] at hm
      simp at hm
    | chain p => simp [Literal.image?] at hpattern
    | fileName name => simp [Literal.image?] at hpattern
    | region r =>
      rw [widgetGlyphs?_region] at hm
      simp only [Option.some.injEq, List.cons.injEq, Glyph.region.injEq, and_true] at hm
      have hmarker : r.asOffset = r'.asOffset := Region.asOffset_of_toText hm
      exact Or.imp_left (fun h => hmarker ▸ h) hends

/-- The marker of a capture is no image name. -/
theorem imageName?_of_captureMarker {o : Nat} {w : Token}
    (h : Cursor.tokens ⟨o, Pattern.quoted captureMarker⟩ = [w]) : imageName? w = none := by
  have hnext : Cursor.next? ⟨o, Pattern.quoted captureMarker⟩ =
      some (⟨.string, Pattern.quoted captureMarker, o⟩, ⟨o + 22, []⟩) := rfl
  rw [Cursor.tokens_of_some hnext, List.cons.injEq] at h
  rw [← h.1]
  rfl

end ImageScript
