import ImageScript.Proofs.Document.Identity
import ImageScript.Proofs.Script.Relocation

/-!
# Outlines

Two rows of segments have the same outline when their segments agree one by one in kind and in
canonical text. Glyphs are to outlines what atoms are to rows, and what a text is read as is a row of
glyphs that depends on nothing but the text, the bundle and the files.

Main statements: `outline_eq_iff`, `glyphs_segments`.
-/

namespace ImageScript

namespace Segment

/-- What sort of segment one is. -/
inductive Kind where
  | run
  | pattern
  | region
deriving DecidableEq, Repr

def kind : Segment → Kind
  | text _ => .run
  | pattern _ => .pattern
  | region _ => .region

/-- The kinds and the canonical texts of a row of segments. -/
def outline (row : List Segment) : List (Kind × Text) := row.map fun s => (s.kind, s.toText)

end Segment

/-- An atom without its id and its attributes: a character, or the canonical text of a widget. -/
inductive Glyph where
  | char (c : Char)
  | pattern (s : Text)
  | region (s : Text)
deriving DecidableEq, Repr

namespace Glyph

def toText : Glyph → Text
  | char c => [c]
  | pattern s | region s => s

/-- The canonical text of a row of glyphs. -/
def join (gs : List Glyph) : Text := gs.flatMap toText

@[simp] theorem join_nil : join [] = [] := rfl

@[simp] theorem join_append (gs hs : List Glyph) : join (gs ++ hs) = join gs ++ join hs :=
  List.flatMap_append

/-- Puts a glyph before an outline. -/
def attach : Glyph → List (Segment.Kind × Text) → List (Segment.Kind × Text)
  | char c, (.run, s) :: rest => (.run, c :: s) :: rest
  | char c, rest => (.run, [c]) :: rest
  | pattern s, rest => (.pattern, s) :: rest
  | region s, rest => (.region, s) :: rest

end Glyph

def Atom.glyph : Atom → Glyph
  | char c => .char c
  | pattern p => .pattern p.toText
  | region r => .region r.toText

@[simp] theorem Atom.toText_glyph (a : Atom) : a.glyph.toText = a.toText := by cases a <;> rfl

theorem Atom.join_map_glyph (as : List Atom) :
    Glyph.join (as.map Atom.glyph) = as.flatMap Atom.toText := by
  unfold Glyph.join
  rw [List.flatMap_map]
  simp only [Atom.toText_glyph]

namespace Segment

/-- The glyphs of a row of segments. -/
def glyphs (row : List Segment) : List Glyph := (atoms row).map Atom.glyph

@[simp] theorem glyphs_nil : glyphs [] = [] := rfl

@[simp] theorem glyphs_append (as bs : List Segment) :
    glyphs (as ++ bs) = glyphs as ++ glyphs bs := by
  unfold glyphs
  rw [atoms_append, List.map_append]

theorem glyphs_cons (s : Segment) (rest : List Segment) :
    glyphs (s :: rest) = glyphs [s] ++ glyphs rest := glyphs_append [s] rest

theorem join_glyphs (row : List Segment) : Glyph.join (glyphs row) = joinText row := by
  rw [joinText_eq_flatMap]
  exact Atom.join_map_glyph _

theorem outline_attach (a : Atom) (row : List Segment) :
    outline (attach a.toSegment row) = a.glyph.attach (outline row) := by
  cases a with
  | char c =>
    cases row with
    | nil => rfl
    | cons t row => cases t <;> rfl
  | pattern p => rfl
  | region r => rfl

/-- The outline of a normal row is made from its glyphs. -/
theorem IsNormal.outline_eq {row : List Segment} (h : IsNormal row) :
    outline row = (glyphs row).foldr Glyph.attach [] := by
  have hrow : ∀ as : List Atom,
      outline (Atom.toRow as) = (as.map Atom.glyph).foldr Glyph.attach [] := by
    intro as
    induction as with
    | nil => rfl
    | cons a as ih => rw [Atom.toRow, outline_attach, ih, List.map_cons, List.foldr_cons]
  have heq := hrow (atoms row)
  rwa [h] at heq

/-- The glyphs of one entry of an outline. -/
def glyphsOf : Kind × Text → List Glyph
  | (.run, s) => s.map .char
  | (.pattern, s) => [.pattern s]
  | (.region, s) => [.region s]

theorem glyphs_eq_flatMap (row : List Segment) : glyphs row = (outline row).flatMap glyphsOf := by
  induction row with
  | nil => rfl
  | cons s rest ih =>
    have hs : glyphs [s] = glyphsOf (s.kind, s.toText) := by
      cases s with
      | text t =>
        simp [glyphs, atoms, atomsOf, glyphsOf, kind, toText, Function.comp_def, Atom.glyph]
      | pattern p => rfl
      | region r => rfl
    rw [glyphs_cons, ih, hs]
    rfl

/-- Normal rows have the same outline exactly where they have the same glyphs. -/
theorem outline_eq_iff {row row' : List Segment} (h : IsNormal row) (h' : IsNormal row') :
    outline row = outline row' ↔ glyphs row = glyphs row' := by
  constructor
  · intro heq
    rw [glyphs_eq_flatMap, glyphs_eq_flatMap, heq]
  · intro heq
    rw [h.outline_eq, h'.outline_eq, heq]

/-! ### Texts of widgets -/

theorem head?_toText_pattern (p : Pattern) :
    p.toText.head? = some '"' ∨ p.toText.head? = some 'P' := by
  unfold Pattern.toText
  split
  · exact Or.inl rfl
  · split
    · exact Or.inl rfl
    · exact Or.inr rfl

theorem head?_toText_region (r : Region) : r.toText.head? = some 'R' := rfl

theorem toText_ne_nil {w : Segment} (hw : w.isWidget = true) : w.toText ≠ [] := by
  cases w with
  | text s => simp [isWidget] at hw
  | pattern p =>
    intro h
    have hhead := head?_toText_pattern p
    rw [show p.toText = [] from h] at hhead
    simp at hhead
  | region r =>
    intro h
    have hhead := head?_toText_region r
    rw [show r.toText = [] from h] at hhead
    simp at hhead

/-- The text of a widget tells its kind. -/
theorem glyphs_eq_of_toText {v w : Segment} (hv : v.isWidget = true) (hw : w.isWidget = true)
    (h : v.toText = w.toText) : glyphs [v] = glyphs [w] := by
  have hne : ∀ (p : Pattern) (r : Region), p.toText ≠ r.toText := by
    intro p r heq
    have hp := head?_toText_pattern p
    rw [heq, head?_toText_region] at hp
    simp at hp
  cases v with
  | text s => simp [isWidget] at hv
  | pattern p =>
    cases w with
    | text s => simp [isWidget] at hw
    | pattern q => exact congrArg (fun s => [Glyph.pattern s]) h
    | region r => exact absurd h (hne p r)
  | region r =>
    cases w with
    | text s => simp [isWidget] at hw
    | pattern p => exact absurd h.symm (hne p r)
    | region r' => exact congrArg (fun s => [Glyph.region s]) h

end Segment

namespace Synthesis

variable {σ : Type} [FileSystem σ] (b : Bundle) (fs : σ)

open Segment

theorem glyphs_pattern? (l : PatternLiteral) (ids ids' : IdSource) :
    (pattern? b fs l ids).1.map (fun w => glyphs [w]) =
      (pattern? b fs l ids').1.map fun w => glyphs [w] := by
  unfold pattern?
  split
  · rfl
  · split <;> rfl

/-- What a literal becomes does not depend on the ids. -/
theorem glyphs_widget? (l : Literal) (ids ids' : IdSource) :
    (widget? b fs l ids).1.map (fun w => glyphs [w]) =
      (widget? b fs l ids').1.map fun w => glyphs [w] := by
  cases l with
  | marker => rfl
  | region r => rfl
  | chain p => exact glyphs_pattern? b fs p ids ids'
  | fileName name => exact glyphs_pattern? b fs (.bare name) ids ids'

/-- What a literal becomes, if its image is there. -/
def widgetGlyphs? (l : Literal) : Option (List Glyph) :=
  (widget? b fs l (.ofSeed [])).1.map fun w => glyphs [w]

/-- The glyphs from byte `cursor` to byte `hi`, given the literals between them. -/
def readFrom (s : Text) (hi : Nat) : Nat → List Match → List Glyph
  | cursor, [] => (Text.slice cursor hi s).map .char
  | cursor, m :: ms =>
    match widgetGlyphs? b fs m.literal with
    | none => readFrom s hi cursor ms
    | some g => (Text.slice cursor m.start s).map .char ++ (g ++ readFrom s hi m.stop ms)

theorem glyphs_run (s : Text) : glyphs (run s) = s.map .char := by
  unfold run
  split
  · next h => rw [h]; rfl
  · simp [glyphs, atoms, atomsOf, Function.comp_def, Atom.glyph]

/-- The ids are of no account for what is read. -/
theorem glyphs_build (s : Text) (hi cursor : Nat) (ms : List Match) (ids : IdSource) :
    glyphs (build b fs s hi cursor ms ids).1 = readFrom b fs s hi cursor ms := by
  induction ms generalizing cursor ids with
  | nil => exact glyphs_run _
  | cons m ms ih =>
    have hwidget : (widget? b fs m.literal ids).1.map (fun w => glyphs [w]) =
        widgetGlyphs? b fs m.literal := glyphs_widget? b fs m.literal ids _
    unfold build readFrom
    rw [← hwidget]
    cases widget? b fs m.literal ids with
    | mk w ids' =>
      cases w with
      | none => exact ih cursor ids'
      | some w =>
        simp only [Option.map_some, glyphs_append, glyphs_run]
        rw [glyphs_cons w, ih]

/-- The literals of a part make the same glyphs in the part and in the whole. -/
theorem readFrom_middle (a s c : Text) {cursor : Nat} {ms : List Match}
    (hcursor : cursor ≤ Text.byteLen s) (hms : ∀ m ∈ ms, m.Within s) :
    readFrom b fs (a ++ s ++ c) (Text.byteLen a + Text.byteLen s) (Text.byteLen a + cursor)
      (ms.map (Match.shift (Text.byteLen a))) = readFrom b fs s (Text.byteLen s) cursor ms := by
  induction ms generalizing cursor with
  | nil => rw [List.map_nil, readFrom, readFrom, Text.slice_middle a s c (Nat.le_refl _)]
  | cons m ms ih =>
    have hm := hms m (List.mem_cons_self ..)
    have hrest : ∀ m' ∈ ms, m'.Within s := fun m' hm' => hms m' (List.mem_cons_of_mem _ hm')
    simp only [List.map_cons, readFrom, Match.shift]
    cases widgetGlyphs? b fs m.literal with
    | none => exact ih hcursor hrest
    | some g =>
      have htail := ih hm.stop.le hrest
      simp only [htail, Text.slice_middle a s c hm.start.le]

end Synthesis

/-- What a text is read as. -/
def reading {σ : Type} [FileSystem σ] (b : Bundle) (fs : σ) (s : Text) : List Glyph :=
  Segment.glyphs (Document.ofText s b fs).segments

namespace Synthesis

variable {σ : Type} [FileSystem σ] (b : Bundle) (fs : σ)

theorem reading_eq_readFrom (s : Text) :
    reading b fs s = readFrom b fs s (Text.byteLen s) 0 (recognizeAll s) := glyphs_build ..

theorem reading_nil : reading b fs [] = [] := by
  have hnone : recognizeAll [] = [] := by
    rw [recognizeAll_eq_literals, tokenize, Cursor.tokens_of_none rfl]
    simp [Recognition.literals, Recognition.scan]
  rw [reading_eq_readFrom, hnone]
  rfl

/-- A part of a text is read as it is by itself. -/
theorem glyphs_segments (a s c : Text) (ids : IdSource) :
    Segment.glyphs (segments b fs (a ++ s ++ c) (Text.byteLen a) (Text.byteLen a + Text.byteLen s)
      ids).1 = reading b fs s := by
  unfold segments
  rw [glyphs_build, recognize_middle, reading_eq_readFrom]
  exact readFrom_middle b fs a s c (Nat.zero_le _) fun m hm => within_of_mem_recognizeAll hm

end Synthesis

end ImageScript
