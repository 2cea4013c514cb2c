import ImageScript.Proofs.Document.WidgetText
import ImageScript.Proofs.Edit.Save
import ImageScript.Proofs.Script.NestedTokens
import ImageScript.Proofs.Script.Spelling

/-!
# Widgets that are read back

A widget that does not come from a chain is written so that it is read back: a marker and a region
by their form, and a bare name because a name that stood in double quotes, and stands for a file of
the bundle, has nothing in it that would close the string before its end.

Main statement: `reading_of_not_chain`.
-/

namespace ImageScript

namespace Text

/-- A part of a text between two separators begins at the start or behind a separator. -/
theorem exists_of_mem_pieces {sep : Char} {s part : Text}
    (h : part ∈ (pieces sep s).1 :: (pieces sep s).2) :
    ∃ u w, s = u ++ part ++ w ∧ (u = [] ∨ u.getLast? = some sep) := by
  have hs := joinPieces_pieces sep s
  rcases List.mem_cons.1 h with rfl | h
  · exact ⟨[], _, hs.symm, Or.inl rfl⟩
  · obtain ⟨before, behind, hothers⟩ := List.append_of_mem h
    rw [joinPieces, hothers, List.flatMap_append, List.flatMap_cons] at hs
    refine ⟨(pieces sep s).1 ++ before.flatMap (sep :: ·) ++ [sep], behind.flatMap (sep :: ·), ?_,
      Or.inr List.getLast?_concat⟩
    generalize (pieces sep s).1 = first at hs ⊢
    rw [← hs]
    simp

/-- A part without backslashes has no quotes and no line breaks. -/
theorem IsEscaped.plain {sep quote : Char} {s part : Text} (h : IsEscaped quote s)
    (hsep : sep ≠ '\\') (hpart : part ∈ (pieces sep s).1 :: (pieces sep s).2)
    (hslash : '\\' ∉ part) : ∀ c ∈ part, c ≠ '\\' ∧ c ≠ '\n' ∧ c ≠ quote := by
  intro c hc
  have hno : c = quote ∨ c = '\n' → False := by
    intro hbad
    obtain ⟨u, w, rfl, hu⟩ := exists_of_mem_pieces hpart
    obtain ⟨a, d, rfl⟩ := List.append_of_mem hc
    have hlast := h (u ++ a) c (d ++ w) (by simp) hbad
    rw [List.getLast?_append] at hlast
    cases ha : a.getLast? with
    | none =>
      rw [ha, Option.none_or] at hlast
      rcases hu with rfl | hu
      · simp at hlast
      · rw [hu, Option.some.injEq] at hlast
        exact hsep hlast
    | some e =>
      rw [ha, Option.some_or, Option.some.injEq] at hlast
      exact hslash (List.mem_append_left _ (hlast ▸ List.mem_of_getLast? ha))
  exact ⟨fun heq => hslash (heq ▸ hc), fun heq => hno (Or.inr heq), fun heq => hno (Or.inl heq)⟩

end Text

theorem Cursor.exists_next?_of_mem_tokens {p : Cursor} {t : Token} (h : t ∈ p.tokens) :
    ∃ q r, Cursor.next? q = some (t, r) := by
  fun_induction Cursor.tokens p with
  | case1 => exact absurd h List.not_mem_nil
  | case2 p u q hnext ih =>
    rcases List.mem_cons.1 h with rfl | h
    · exact ⟨p, q, hnext⟩
    · exact ih h

/-- The content of a string in double quotes was read up to the quote that closes it. -/
theorem exists_readLine_of_content? {p : Cursor} {t : Token} {content : Text} (ht : t ∈ p.tokens)
    (hquoted : t.isDoubleQuoted = true) (hcontent : t.content? = some content) :
    ∃ s r, Lexeme.readLine '"' s = ⟨.closed, content ++ ['"'], r⟩ := by
  obtain ⟨q, r, hnext⟩ := Cursor.exists_next?_of_mem_tokens ht
  obtain ⟨blanks, c, m, k, -, hread, rfl, -⟩ := Cursor.exists_of_next? hnext
  simp only [Token.isDoubleQuoted, Bool.and_eq_true, decide_eq_true_eq, List.head?_cons,
    Option.some.injEq] at hquoted
  obtain ⟨hkind, rfl⟩ := hquoted
  have hbody : m.dropLast = content := by
    unfold Token.content? at hcontent
    split at hcontent
    · exact Option.some.inj hcontent
    · simp at hcontent
  rw [Lexeme.read, if_neg (by decide), if_pos (by decide)] at hread
  split at hread
  · obtain ⟨rfl, -, -⟩ := Lexeme.mk.inj hread
    unfold TokenKind.ofLexeme at hkind
    split at hkind <;> simp_all
  · obtain ⟨rfl, htext, -⟩ := Lexeme.mk.inj hread
    have hclosed : (Lexeme.readLine '"' (m ++ r.rest)).termination = .closed := by
      cases hend : (Lexeme.readLine '"' (m ++ r.rest)).termination with
      | closed => rfl
      | unclosed =>
        rw [hend] at hkind
        simp [TokenKind.ofLexeme] at hkind
    obtain ⟨body, hline, -⟩ := Lexeme.isEscaped_of_readLine (by decide) hclosed
    rw [List.cons.injEq] at htext
    rw [← htext.2, hline, List.dropLast_concat] at hbody
    refine ⟨m ++ r.rest, (Lexeme.readLine '"' (m ++ r.rest)).rest, ?_⟩
    rw [← hclosed, ← hbody, ← hline]

/-- The content of a string in double quotes is escaped. -/
theorem isEscaped_of_content? {p : Cursor} {t : Token} {content : Text} (ht : t ∈ p.tokens)
    (hquoted : t.isDoubleQuoted = true) (hcontent : t.content? = some content) :
    Text.IsEscaped '"' content := by
  obtain ⟨s, r, hread⟩ := exists_readLine_of_content? ht hquoted hcontent
  have hclosed : (Lexeme.readLine '"' s).termination = .closed := by rw [hread]
  obtain ⟨body, hline, hescaped⟩ := Lexeme.isEscaped_of_readLine (by decide) hclosed
  rw [hread] at hline
  exact List.append_cancel_right hline ▸ hescaped

/-- The content of a string in double quotes can be put in double quotes again. -/
theorem isQuotable_of_content? {p : Cursor} {t : Token} {content : Text} (ht : t ∈ p.tokens)
    (hquoted : t.isDoubleQuoted = true) (hcontent : t.content? = some content) :
    IsQuotable content := by
  obtain ⟨s, r, hread⟩ := exists_readLine_of_content? ht hquoted hcontent
  have halone : Lexeme.readLine '"' (content ++ ['"'] ++ []) = ⟨.closed, content ++ ['"'], []⟩ :=
    Lexeme.readLine_carry (by decide) hread (Or.inl rfl)
  rw [List.append_nil] at halone
  exact ⟨by rw [halone], by rw [halone]⟩

/-- The name of a file is one of the parts between the slashes of its path. -/
theorem Path.mem_pieces_of_fileName? {s n : Text} (h : fileName? ⟨s⟩ = some n) :
    n ∈ (Text.pieces '/' s).1 :: (Text.pieces '/' s).2 := by
  have hmem := List.mem_of_getLast? (getLast?_of_fileName? h)
  rw [components_eq, List.mem_append] at hmem
  rcases hmem with hmem | hmem
  · unfold firstComponents at hmem
    repeat' split at hmem
    · simp at hmem
    · simp at hmem
    · simp at hmem
    · rw [List.mem_singleton] at hmem
      exact eq_of_componentOf hmem.symm ▸ List.mem_cons_self ..
  · obtain ⟨piece, hpiece, heq⟩ := List.mem_map.1 hmem
    exact List.mem_cons_of_mem _ (eq_of_componentOf heq ▸ (List.mem_filter.1 hpiece).1)

namespace Synthesis

variable {σ : Type} [FileSystem σ] {b : Bundle} {fs : σ}

open Recognition

/-- Whether a name is that of an image, and its own name within the bundle. -/
structure IsOwnName (b : Bundle) (name : Text) : Prop where
  isImage : ImageName.isImage name = true
  widgetName?_eq : widgetName? b name = some name
  ne_nil : name ≠ []
  no_backslash : '\\' ∉ name

theorem isOwnName_of_resolve {image name : Text} {path : Path}
    (hname : widgetName? b image = some name) (h : b.resolve fs name = .ok path) :
    IsOwnName b name := by
  unfold Bundle.resolve at h
  cases hcandidate : b.candidate? name with
  | none =>
    rw [hcandidate] at h
    cases h
  | some p =>
    have hleaf := Path.isName_of_fileName? (fileName?_of_candidate? hname hcandidate)
    have hrelative : Path.isAbsolute ⟨name⟩ = false := by
      simp only [Path.isAbsolute, decide_eq_false_iff_not]
      exact fun hhead => hleaf.no_slash (List.mem_of_mem_head? hhead)
    unfold Bundle.candidate? at hcandidate
    rw [if_neg (Bool.eq_false_iff.1 hrelative)] at hcandidate
    split at hcandidate
    · cases hcandidate
    · next himage =>
      split at hcandidate
      · next hisLeaf =>
        refine ⟨by simpa using himage, ?_, hleaf.ne_nil, ?_⟩
        · rw [widgetName?, if_neg (Bool.eq_false_iff.1 hrelative), if_pos hisLeaf]
        · simp only [ImageName.isLeaf, Bool.and_eq_true, Bool.not_eq_true', List.contains_eq_mem,
            decide_eq_false_iff_not] at hisLeaf
          exact hisLeaf.2
      · cases hcandidate

theorem mem_pieces_of_widgetName? {image name : Text} (h : widgetName? b image = some name) :
    name ∈ (Text.pieces '/' image).1 :: (Text.pieces '/' image).2 := by
  unfold widgetName? at h
  split at h
  · split at h
    · exact Path.mem_pieces_of_fileName? h
    · cases h
  · split at h
    · next hleaf =>
      obtain rfl := Option.some.inj h
      simp only [ImageName.isLeaf, Bool.and_eq_true, Bool.not_eq_true', List.contains_eq_mem,
        decide_eq_false_iff_not] at hleaf
      rw [Text.pieces_of_not_mem hleaf.1.2]
      exact List.mem_cons_self ..
    · cases h

theorem toText_of_isDefault {p : Pattern} (hname : p.imageName ≠ []) (h : p.isDefault = true) :
    p.toText = Pattern.quoted p.imageName := by
  rw [Pattern.toText, if_neg hname, if_pos h]

theorem isDefault_bare (id name image : Text) (path : Option Path) :
    Pattern.isDefault { Pattern.ofLiteral id name (.bare image) with resolvedPath := path } =
      true := by
  have hsimilarity : (Pattern.defaultSimilarity == Pattern.defaultSimilarity) = true := by
    decide +kernel
  simp [Pattern.isDefault, Pattern.ofLiteral, PatternLiteral.bare, Pattern.new, hsimilarity]

/-- A bare name is written as the name that it has within the bundle. -/
theorem exists_of_widgetGlyphs?_fileName {image : Text} {g : List Glyph}
    (h : widgetGlyphs? b fs (.fileName image) = some g) : ∃ name path,
      widgetName? b image = some name ∧ b.resolve fs name = .ok path
        ∧ g = [.pattern (Pattern.quoted name)] := by
  obtain ⟨w, hw, rfl⟩ := Option.map_eq_some_iff.1 h
  obtain ⟨name, path, hname, hresolve, rfl⟩ := exists_of_pattern? hw
  refine ⟨name, path, hname, hresolve, congrArg (fun s => [Glyph.pattern s]) ?_⟩
  exact toText_of_isDefault (isOwnName_of_resolve hname hresolve).ne_nil
    (isDefault_bare _ name image _)

/-- A name of its own is a bare name that makes the same widget. -/
theorem widgetGlyphs?_fileName {image name : Text} {path : Path} {g : List Glyph}
    (h : widgetGlyphs? b fs (.fileName image) = some g) (hname : widgetName? b image = some name)
    (hresolve : b.resolve fs name = .ok path) : widgetGlyphs? b fs (.fileName name) = some g := by
  have hown := (isOwnName_of_resolve hname hresolve).widgetName?_eq
  rw [← h]
  unfold widgetGlyphs? widget? pattern?
  simp only [PatternLiteral.bare, hname, hown, hresolve]
  rfl

/-- The text of a bare name begins with a quote. -/
theorem head?_of_fileName {image : Text} {g : List Glyph}
    (h : widgetGlyphs? b fs (.fileName image) = some g) : (Glyph.join g).head? = some '"' := by
  obtain ⟨name, path, -, -, rfl⟩ := exists_of_widgetGlyphs?_fileName h
  rfl

end Synthesis

open Synthesis Recognition

variable {σ : Type} [FileSystem σ] {b : Bundle} {fs : σ}

theorem reading_of_here? {x : Text} {l : Literal} {g : List Glyph}
    (h : here? (tokenize x) = some ⟨.literal ⟨0, Text.byteLen x, l⟩, []⟩)
    (hwidget : widgetGlyphs? b fs l = some g) : reading b fs x = g := by
  rw [reading_of_literal (literals_of_here? h) rfl (Nat.zero_add _).symm, hwidget, Option.getD_some]

/-- A name in quotes that is one token is read as one literal. -/
theorem here?_quoted {name : Text} {l : Literal} (h : IsQuotable name)
    (hquoted : quoted? ⟨.string, Pattern.quoted name, 0⟩ = some l) :
    here? (tokenize (Pattern.quoted name)) =
      some ⟨.literal ⟨0, Text.byteLen (Pattern.quoted name), l⟩, []⟩ := by
  have htokens := Cursor.tokens_quoted 0 (r := []) h (by simp)
  rw [List.append_nil, Cursor.tokens_nil] at htokens
  rw [tokenize, htokens, here?_of_quoted rfl, hquoted, Option.map_some, Token.stop, Nat.zero_add]

theorem content?_quoted (name : Text) (o : Nat) :
    Token.content? ⟨.string, Pattern.quoted name, o⟩ = some name := by
  simp [Token.content?, Pattern.quoted]

theorem here?_marker : here? (tokenize (Pattern.quoted captureMarker)) =
    some ⟨.literal ⟨0, Text.byteLen (Pattern.quoted captureMarker), .marker⟩, []⟩ := by
  have hplain : ∀ c ∈ captureMarker, c ≠ '\\' ∧ c ≠ '\n' ∧ c ≠ '"' :=
    List.forall_iff_forall_mem.1 (by decide)
  refine here?_quoted (isQuotable_of_plain hplain) ?_
  rw [quoted?, if_pos (content?_quoted captureMarker 0)]

/-- A name of its own in quotes is read as the bare name. -/
theorem Synthesis.IsOwnName.here?_quoted {name : Text} (hown : IsOwnName b name)
    (h : IsQuotable name) : here? (tokenize (Pattern.quoted name)) =
      some ⟨.literal ⟨0, Text.byteLen (Pattern.quoted name), .fileName name⟩, []⟩ := by
  refine ImageScript.here?_quoted h ?_
  have hmarker : name ≠ captureMarker := by
    rintro rfl
    exact absurd hown.isImage (by decide)
  rw [quoted?, content?_quoted, if_neg (by simpa using hmarker), imageName?, content?_quoted]
  simp [hown.isImage]

/-- The name of a widget can be put in double quotes where the image stood in them. -/
theorem isQuotable_of_widgetName? {image name : Text} {p : Cursor} {t : Token} (ht : t ∈ p.tokens)
    (hquoted : t.isDoubleQuoted = true) (hcontent : t.content? = some image)
    (hname : widgetName? b image = some name) (hown : IsOwnName b name) : IsQuotable name :=
  isQuotable_of_plain <| (isEscaped_of_content? ht hquoted hcontent).plain (by decide)
    (mem_pieces_of_widgetName? hname) hown.no_backslash

theorem reading_marker :
    reading b fs (Pattern.quoted captureMarker) = [.pattern (Pattern.quoted captureMarker)] :=
  reading_of_here? here?_marker (widgetGlyphs?_marker b fs)

theorem reading_region {r : RegionLiteral} (hr : (Region.ofLiteral [] r).IsWritable) :
    reading b fs (Region.ofLiteral [] r).toText = [.region (Region.ofLiteral [] r).toText] := by
  refine reading_of_here? (l := .region r) ?_ (widgetGlyphs?_region b fs r)
  have hhere := Region.here?_toText hr 0
  rwa [Nat.zero_add] at hhere

theorem reading_fileName {image : Text} {g : List Glyph} {p : Cursor} {t : Token}
    (h : widgetGlyphs? b fs (.fileName image) = some g) (ht : t ∈ p.tokens)
    (hquoted : t.isDoubleQuoted = true) (himage : imageName? t = some image) :
    reading b fs (Glyph.join g) = g := by
  obtain ⟨name, path, hname, hresolve, rfl⟩ := exists_of_widgetGlyphs?_fileName h
  have hown := isOwnName_of_resolve hname hresolve
  have hcontent := (Option.filter_eq_some_iff.1 himage).1
  have hjoin : Glyph.join [.pattern (Pattern.quoted name)] = Pattern.quoted name :=
    List.append_nil _
  rw [hjoin]
  exact reading_of_here? (hown.here?_quoted (isQuotable_of_widgetName? ht hquoted hcontent hname hown))
    (widgetGlyphs?_fileName h hname hresolve)

theorem isWritable_of_numbers {groups : List (List Token)} {r : RegionLiteral}
    (h : groups.map int? = [some r.x, some r.y, some r.w, some r.h]) :
    (Region.ofLiteral [] r).IsWritable := by
  have hargument : ∀ i, some i ∈ groups.map int? → IsArgument i := by
    intro i hi
    obtain ⟨group, -, hgroup⟩ := List.mem_map.1 hi
    exact isArgument_of_int? hgroup
  rw [h] at hargument
  exact ⟨hargument _ (by simp [Region.ofLiteral]), hargument _ (by simp [Region.ofLiteral]),
    hargument _ (by simp [Region.ofLiteral]), hargument _ (by simp [Region.ofLiteral])⟩

/-- The numbers of a region that was read can be written. -/
theorem isWritable_of_here? {ts : List Token} {s : Step} {m : Match} {r : RegionLiteral}
    (h : here? ts = some s) (hfinding : s.finding = .literal m) (hliteral : m.literal = .region r) :
    (Region.ofLiteral [] r).IsWritable := by
  cases reads_of_here? h with
  | quoted quoted literal =>
    obtain rfl := Finding.literal.inj hfinding
    rcases cases_of_quoted? literal with ⟨rfl, -⟩ | ⟨name, rfl, -⟩ <;> cases hliteral
  | @chain head opening name close ts image _ head_word opening_sign content close_sign suffixes =>
    have himage := (readSuffixes_image head.offset (.bare image) close.stop ts).2 m
      (by rw [suffixes, hfinding])
    rw [hliteral] at himage
    cases himage
  | region head_word opening_sign call numbers =>
    obtain rfl := Finding.literal.inj hfinding
    obtain rfl := Literal.region.inj hliteral
    exact isWritable_of_numbers numbers
  | offset head_word opening_sign call numbers =>
    obtain rfl := Finding.literal.inj hfinding
    obtain rfl := Literal.region.inj hliteral
    exact isWritable_of_numbers numbers

/-- A widget that does not come from a chain is read back from its text. -/
theorem reading_of_not_chain {p : Cursor} {m : Match} {g : List Glyph} (hm : m ∈ literals p.tokens)
    (h : widgetGlyphs? b fs m.literal = some g) (hchain : ∀ l, m.literal ≠ .chain l) :
    reading b fs (Glyph.join g) = g := by
  obtain ⟨us, s, hus, hs, hfinding⟩ := exists_here?_of_mem_literals hm
  obtain ⟨vs, rfl, htaken⟩ := exists_taken hs
  have hshape := (htaken.covers m hfinding).shape
  cases hliteral : m.literal with
  | chain l => exact absurd hliteral (hchain l)
  | marker =>
    rw [hliteral] at h
    obtain rfl := Option.some.inj ((widgetGlyphs?_marker b fs).symm.trans h)
    exact (congrArg (reading b fs) (List.append_nil _)).trans reading_marker
  | region r =>
    rw [hliteral] at h
    obtain rfl := Option.some.inj ((widgetGlyphs?_region b fs r).symm.trans h)
    exact (congrArg (reading b fs) (List.append_nil _)).trans
      (reading_region (isWritable_of_here? hs hfinding hliteral))
  | fileName image =>
    rw [hliteral] at h hshape
    obtain ⟨t, rfl, hquoted, ht⟩ := hshape
    have himage : imageName? t = some image := by
      rcases cases_of_quoted? ht with ⟨hl, -⟩ | ⟨name, hl, hname⟩
      · cases hl
      · rw [hname, Literal.fileName.inj hl]
    exact reading_fileName h (hus.subset (by simp)) hquoted himage

end ImageScript
