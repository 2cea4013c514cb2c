import ImageScript.Proofs.Document.Agreement
import ImageScript.Proofs.Document.Distinctness
import ImageScript.Proofs.Document.WidgetText

/-!
# Which widgets outlast a reparse

When lines are read again, a widget within them is kept exactly where a literal is read as a widget
with its text and that widget comes to stand at its offset. Offsets are counted in what is read, so
that a literal that gets shorter when it is recognized displaces every widget behind it in the range.
Widgets outside of the range stay.

Main statements: `mem_keepIdentity_of_placed`, `mem_placed_readFrom`, `reparse_keeps_widgets`.
-/

namespace ImageScript

/-! ### Offsets -/

namespace Glyph

/-- The texts of the widgets of a row of glyphs with their offsets, the row beginning at `offset`. -/
def placed (offset : Nat) : List Glyph → List (Nat × Text)
  | [] => []
  | char c :: rest => placed (offset + c.utf8Size) rest
  | pattern s :: rest => (offset, s) :: placed (offset + Text.byteLen s) rest
  | region s :: rest => (offset, s) :: placed (offset + Text.byteLen s) rest

theorem placed_append (offset : Nat) (gs hs : List Glyph) :
    placed offset (gs ++ hs) = placed offset gs ++ placed (offset + Text.byteLen (join gs)) hs := by
  induction gs generalizing offset with
  | nil => rfl
  | cons g gs ih =>
    have hjoin : Text.byteLen (join (g :: gs)) = Text.byteLen g.toText + Text.byteLen (join gs) :=
      Text.byteLen_append ..
    cases g <;> simp [placed, ih, hjoin, toText, Nat.add_assoc]

theorem placed_map_char (offset : Nat) (s : Text) : placed offset (s.map char) = [] := by
  induction s generalizing offset with
  | nil => rfl
  | cons c s ih => exact ih _

theorem placed_singleton {γ : Glyph} (hγ : ∀ c, γ ≠ char c) (offset : Nat) :
    placed offset [γ] = [(offset, join [γ])] := by
  cases γ with
  | char c => exact absurd rfl (hγ c)
  | pattern s => simp [placed, join, toText]
  | region s => simp [placed, join, toText]

end Glyph

namespace Atom

/-- The widgets of a row of atoms with their offsets, the row beginning at `offset`. -/
def placed (offset : Nat) : List Atom → List (Nat × Segment)
  | [] => []
  | char c :: rest => placed (offset + c.utf8Size) rest
  | pattern p :: rest => (offset, .pattern p) :: placed (offset + Text.byteLen p.toText) rest
  | region r :: rest => (offset, .region r) :: placed (offset + Text.byteLen r.toText) rest

theorem placed_append (offset : Nat) (as bs : List Atom) :
    placed offset (as ++ bs)
      = placed offset as ++ placed (offset + Text.byteLen (joinText as)) bs := by
  induction as generalizing offset with
  | nil => rfl
  | cons a as ih =>
    have hjoin : Text.byteLen (joinText (a :: as))
        = Text.byteLen a.toText + Text.byteLen (joinText as) := Text.byteLen_append ..
    cases a <;> simp [placed, ih, hjoin, toText, Nat.add_assoc]

theorem placed_map_char (offset : Nat) (s : Text) : placed offset (s.map char) = [] := by
  induction s generalizing offset with
  | nil => rfl
  | cons c s ih => exact ih _

/-- The glyphs of a row have its widgets at the same offsets. -/
theorem placed_glyphs (offset : Nat) (as : List Atom) :
    Glyph.placed offset (as.map glyph) = (placed offset as).map fun w => (w.1, w.2.toText) := by
  induction as generalizing offset with
  | nil => rfl
  | cons a as ih => cases a <;> simp [placed, Glyph.placed, glyph, ih, Segment.toText]

theorem bounds_of_placed {offset : Nat} {as : List Atom} {w : Nat × Segment}
    (h : w ∈ placed offset as) :
    offset ≤ w.1 ∧ w.1 < offset + Text.byteLen (joinText as) := by
  induction as generalizing offset with
  | nil => exact absurd h List.not_mem_nil
  | cons a as ih =>
    have hjoin : Text.byteLen (joinText (a :: as))
        = Text.byteLen a.toText + Text.byteLen (joinText as) := Text.byteLen_append ..
    have hpos : 0 < Text.byteLen a.toText := Text.byteLen_pos (toText_ne_nil a)
    have hlater : ∀ {n}, n ≤ Text.byteLen a.toText →
        (offset + n ≤ w.1 ∧ w.1 < offset + n + Text.byteLen (joinText as)) →
        offset ≤ w.1 ∧ w.1 < offset + Text.byteLen (joinText (a :: as)) := by
      intro n hn hw
      omega
    cases a with
    | char c => exact hlater (by simp [toText]) (ih h)
    | pattern p =>
      rcases List.mem_cons.1 h with rfl | h
      · exact ⟨Nat.le_refl _, by dsimp only; omega⟩
      · exact hlater (Nat.le_refl _) (ih h)
    | region r =>
      rcases List.mem_cons.1 h with rfl | h
      · exact ⟨Nat.le_refl _, by dsimp only; omega⟩
      · exact hlater (Nat.le_refl _) (ih h)

end Atom

namespace Document

open Segment

theorem placedWidgets_eq (offset : Nat) (row : List Segment) :
    placedWidgets offset row = Atom.placed offset (atoms row) := by
  induction row generalizing offset with
  | nil => rfl
  | cons s rest ih =>
    rw [placedWidgets, atoms, Atom.placed_append, joinText_atomsOf, ih]
    cases s with
    | text t => simp [isWidget, atomsOf, Atom.placed_map_char, textLen]
    | pattern p => rfl
    | region r => rfl

theorem placed_glyphs (offset : Nat) (row : List Segment) :
    Glyph.placed offset (glyphs row)
      = (placedWidgets offset row).map fun w => (w.1, w.2.toText) := by
  rw [placedWidgets_eq]
  exact Atom.placed_glyphs offset (atoms row)

/-- A widget is kept where a new one with its text stands at its offset. -/
theorem mem_keepIdentity_of_placed {old : List (Nat × Segment)} {o offset : Nat} {w : Segment}
    (hunique : ∀ v ∈ old, ∀ w ∈ old, v.1 = w.1 → v = w) (hw : (o, w) ∈ old) {row : List Segment}
    (h : (o, w.toText) ∈ (placedWidgets offset row).map fun v => (v.1, v.2.toText)) :
    w ∈ keepIdentity old offset row := by
  induction row generalizing offset with
  | nil => exact absurd h List.not_mem_nil
  | cons s rest ih =>
    rw [keepIdentity]
    rw [placedWidgets] at h
    by_cases hs : s.isWidget = true
    · rw [if_pos hs, List.map_cons, List.mem_cons] at h
      rcases h with heq | h
      · simp only [Prod.mk.injEq] at heq
        obtain ⟨rfl, htext⟩ := heq
        have hfind : old.find? (fun v => v.1 = o ∧ v.2.toText = s.toText) = some (o, w) := by
          cases hfound : old.find? (fun v => v.1 = o ∧ v.2.toText = s.toText) with
          | none =>
            have hnone := List.find?_eq_none.1 hfound (o, w) hw
            simp [htext] at hnone
          | some v =>
            have hv := List.find?_some hfound
            simp only [decide_eq_true_eq] at hv
            rw [hunique v (List.mem_of_find?_eq_some hfound) (o, w) hw hv.1]
        simp only [if_pos hs, hfind]
        exact List.mem_cons_self ..
      · exact List.mem_cons_of_mem _ (ih h)
    · rw [if_neg hs] at h
      exact List.mem_cons_of_mem _ (ih h)

theorem exists_placed_of_mem {w : Segment} (hw : w.isWidget = true) {row : List Segment}
    (h : w ∈ row) (offset : Nat) : ∃ o, (o, w) ∈ placedWidgets offset row := by
  induction row generalizing offset with
  | nil => exact absurd h List.not_mem_nil
  | cons s rest ih =>
    rw [placedWidgets]
    rcases List.mem_cons.1 h with rfl | h
    · rw [if_pos hw]
      exact ⟨offset, List.mem_cons_self ..⟩
    · obtain ⟨o, ho⟩ := ih h (offset + s.textLen)
      refine ⟨o, ?_⟩
      split
      · exact List.mem_cons_of_mem _ ho
      · exact ho

/-- Runs that merge leave the widgets between them. -/
theorem mem_toRow_iff {w : Segment} (hw : w.isWidget = true) {as : List Atom} (offset : Nat) :
    w ∈ Atom.toRow as ↔ ∃ o, (o, w) ∈ Atom.placed offset as := by
  have hplaced : placedWidgets offset (Atom.toRow as) = Atom.placed offset as := by
    rw [placedWidgets_eq, atoms_toRow]
  rw [← hplaced]
  exact ⟨fun h => exists_placed_of_mem hw h offset, fun ⟨o, ho⟩ => placedWidgets_subset _ _ _ ho⟩

theorem mem_toRow_append {w : Segment} (hw : w.isWidget = true) {as bs : List Atom} :
    w ∈ Atom.toRow (as ++ bs) ↔ w ∈ Atom.toRow as ∨ w ∈ Atom.toRow bs := by
  rw [mem_toRow_iff hw 0, mem_toRow_iff hw 0, mem_toRow_iff hw (Text.byteLen (Atom.joinText as)),
    Atom.placed_append, Nat.zero_add]
  simp only [List.mem_append, exists_or]

theorem mem_toRow_atoms {w : Segment} (hw : w.isWidget = true) {row : List Segment} :
    w ∈ Atom.toRow (atoms row) ↔ w ∈ row := by
  rw [mem_toRow_iff hw 0, ← placedWidgets_eq]
  exact ⟨fun ⟨o, ho⟩ => placedWidgets_subset _ _ _ ho, fun h => exists_placed_of_mem hw h 0⟩

end Document

namespace Synthesis

variable {σ : Type} [FileSystem σ] (b : Bundle) (fs : σ)

/-- Whether one of some literals is read as a widget with the text `t` and comes to stand at the
offset `o`, where what is read from byte `cursor` on begins at `offset`. -/
def Lands (s : Text) (offset cursor : Nat) (ms : List Match) (o : Nat) (t : Text) : Prop :=
  ∃ before m after g, ms = before ++ m :: after ∧ widgetGlyphs? b fs m.literal = some g
    ∧ Glyph.join g = t
    ∧ offset + Text.byteLen (Glyph.join (readFrom b fs s m.start cursor before)) = o

/-- The widgets that are read are those of the literals, each where it lands. -/
theorem mem_placed_readFrom {s t : Text} {hi offset cursor o : Nat} {ms : List Match} :
    (o, t) ∈ Glyph.placed offset (readFrom b fs s hi cursor ms)
      ↔ Lands b fs s offset cursor ms o t := by
  induction ms generalizing offset cursor with
  | nil =>
    rw [readFrom, Glyph.placed_map_char]
    refine iff_of_false List.not_mem_nil ?_
    rintro ⟨before, m, after, g, h, -⟩
    simp at h
  | cons m ms ih =>
    cases hg : widgetGlyphs? b fs m.literal with
    | none =>
      simp only [readFrom, hg, ih]
      constructor
      · rintro ⟨before, m', after, g, rfl, hg', htext, ho⟩
        exact ⟨m :: before, m', after, g, rfl, hg', htext, by simpa only [readFrom, hg] using ho⟩
      · rintro ⟨before, m', after, g, h, hg', htext, ho⟩
        cases before with
        | nil =>
          obtain ⟨rfl, rfl⟩ := List.cons.inj h
          simp [hg] at hg'
        | cons n before =>
          obtain ⟨rfl, rfl⟩ := List.cons.inj h
          exact ⟨before, m', after, g, rfl, hg', htext, by simpa only [readFrom, hg] using ho⟩
    | some g =>
      obtain ⟨γ, rfl, hγ⟩ := exists_of_widgetGlyphs? b fs hg
      simp only [readFrom, hg, Glyph.placed_append, Glyph.placed_map_char, List.nil_append,
        Glyph.placed_singleton hγ, List.mem_append, List.mem_singleton, ih, Prod.mk.injEq]
      constructor
      · rintro (⟨rfl, rfl⟩ | ⟨before, m', after, g, rfl, hg', htext, ho⟩)
        · exact ⟨[], m, ms, [γ], rfl, hg, rfl, by simp only [readFrom]⟩
        · refine ⟨m :: before, m', after, g, rfl, hg', htext, ?_⟩
          simp only [readFrom, hg, Glyph.join_append, Text.byteLen_append]
          omega
      · rintro ⟨before, m', after, g, h, hg', htext, ho⟩
        cases before with
        | nil =>
          obtain ⟨rfl, rfl⟩ := List.cons.inj h
          obtain rfl := Option.some.inj (hg.symm.trans hg')
          exact Or.inl ⟨by simpa only [readFrom] using ho.symm, htext.symm⟩
        | cons n before =>
          obtain ⟨rfl, rfl⟩ := List.cons.inj h
          refine Or.inr ⟨before, m', after, g, rfl, hg', htext, ?_⟩
          simp only [readFrom, hg, Glyph.join_append, Text.byteLen_append] at ho
          omega

end Synthesis

namespace Document

open Segment

variable {σ : Type} [FileSystem σ] (b : Bundle) (fs : σ)

/-- The bytes of the canonical text that are read again for a dirty range. -/
def rereadBytes (d : Document) (lo hi : Nat) : Nat × Nat :=
  (offsetOf d.segments (d.rereadRange lo hi).1, offsetOf d.segments (d.rereadRange lo hi).2)

/-- Whether a literal of the range that is read again is read as a widget with the text of another
one and comes to stand at its offset. -/
def LandsAt (d : Document) (lo hi : Nat) (w : Nat × Segment) : Prop :=
  let (start, stop) := d.rereadBytes lo hi
  Synthesis.Lands b fs d.text start start (recognize d.text start stop) w.1 w.2.toText

section

variable {d : Document} {lo hi o : Nat} {w : Segment} {x z : List Atom} {old : List Segment}

/-- A division of a document into what is read again and what stands before and behind it. -/
structure Divided (d : Document) (lo hi : Nat) (x : List Atom) (old : List Segment)
    (z : List Atom) : Prop where
  atoms_eq : atoms d.segments = x ++ atoms old ++ z
  bytes_eq : d.rereadBytes lo hi = (Text.byteLen (Atom.joinText x),
    Text.byteLen (Atom.joinText x) + Text.byteLen (Atom.joinText (atoms old)))

/-- The outcome of reading the range again, as it stands in the row. -/
def newRow (d : Document) (lo hi : Nat) (old : List Segment) : List Segment :=
  rebuild b fs d (d.rereadBytes lo hi).1 (d.rereadBytes lo hi).2 old

theorem exists_divided (hf : d.freshness = .dirty lo hi) : ∃ x old z, Divided d lo hi x old z
    ∧ (sameAll (newRow b fs d lo hi old) old = true ∧ (d.reparse b fs).2.segments = d.segments
      ∨ (d.reparse b fs).2.segments = Atom.toRow (x ++ atoms (newRow b fs d lo hi old) ++ z)) := by
  obtain ⟨x, y, z, hcut, -⟩ := exists_cut_rereadRange d lo hi
  obtain ⟨old, rfl, -, hrow⟩ := reparse_of_cut b fs hf hcut
  have hbytes : d.rereadBytes lo hi = (Text.byteLen (Atom.joinText x),
      Text.byteLen (Atom.joinText x) + Text.byteLen (Atom.joinText (atoms old))) := by
    rw [rereadBytes, hcut.offsetOf_start, hcut.offsetOf_stop]
  refine ⟨x, old, z, ⟨hcut.atoms_eq, hbytes⟩, ?_⟩
  rwa [newRow, hbytes]

namespace Divided

theorem placed_eq (h : Divided d lo hi x old z) :
    placedWidgets 0 d.segments = Atom.placed 0 x ++ placedWidgets (d.rereadBytes lo hi).1 old
      ++ Atom.placed (d.rereadBytes lo hi).2 z := by
  rw [placedWidgets_eq, placedWidgets_eq, h.atoms_eq, h.bytes_eq, Atom.placed_append,
    Atom.placed_append, Atom.joinText_append, Text.byteLen_append]
  simp only [Nat.zero_add]

/-- A widget within the range is among those that are read again. -/
theorem mem_old (h : Divided d lo hi x old z) (hw : (o, w) ∈ placedWidgets 0 d.segments)
    (hstart : (d.rereadBytes lo hi).1 ≤ o) (hstop : o < (d.rereadBytes lo hi).2) :
    (o, w) ∈ placedWidgets (d.rereadBytes lo hi).1 old := by
  rw [h.placed_eq, List.mem_append, List.mem_append] at hw
  rcases hw with (hw | hw) | hw
  · have hbounds := Atom.bounds_of_placed hw
    rw [h.bytes_eq] at hstart
    dsimp only at hstart hbounds
    omega
  · exact hw
  · have hbounds := Atom.bounds_of_placed hw
    dsimp only at hbounds
    omega

theorem mem_outer (h : Divided d lo hi x old z) (hw : (o, w) ∈ placedWidgets 0 d.segments)
    (hout : o < (d.rereadBytes lo hi).1 ∨ (d.rereadBytes lo hi).2 ≤ o) :
    (o, w) ∈ Atom.placed 0 x ∨ (o, w) ∈ Atom.placed (d.rereadBytes lo hi).2 z := by
  rw [h.placed_eq, List.mem_append, List.mem_append] at hw
  rcases hw with (hw | hw) | hw
  · exact Or.inl hw
  · rw [placedWidgets_eq, h.bytes_eq] at hw
    rw [h.bytes_eq] at hout
    have hbounds := Atom.bounds_of_placed hw
    dsimp only at hbounds hout
    omega
  · exact Or.inr hw

/-- No widget that is read again stands before or behind the range as well. -/
theorem not_mem_outer (h : Divided d lo hi x old z) (hd : d.Distinct)
    (hw : (o, w) ∈ placedWidgets (d.rereadBytes lo hi).1 old) :
    w ∉ Atom.toRow x ∧ w ∉ Atom.toRow z := by
  have hwidget := isWidget_of_placed _ _ _ hw
  have hplaced := h.placed_eq
  have hrow : ∀ {v}, v ∈ placedWidgets (d.rereadBytes lo hi).1 old →
      v ∈ placedWidgets 0 d.segments := by
    intro v hv
    rw [hplaced]
    exact List.mem_append_left _ (List.mem_append_right _ hv)
  have hunique := fun v hv => placed_unique_of_id hd.nodup 0 (o, w) (hrow hw) v hv
  rw [placedWidgets_eq, h.bytes_eq] at hw
  have hbounds := Atom.bounds_of_placed hw
  dsimp only at hbounds
  constructor
  · intro hx
    obtain ⟨o', ho'⟩ := (mem_toRow_iff hwidget 0).1 hx
    have hmem : (o', w) ∈ placedWidgets 0 d.segments := by
      rw [hplaced]
      exact List.mem_append_left _ (List.mem_append_left _ ho')
    have hsame := hunique _ hmem rfl
    have hbounds' := Atom.bounds_of_placed ho'
    simp only [Prod.mk.injEq, and_true] at hsame
    dsimp only at hbounds'
    omega
  · intro hz
    obtain ⟨o', ho'⟩ := (mem_toRow_iff hwidget (d.rereadBytes lo hi).2).1 hz
    have hmem : (o', w) ∈ placedWidgets 0 d.segments := by
      rw [hplaced]
      exact List.mem_append_right _ ho'
    have hsame := hunique _ hmem rfl
    have hbounds' := Atom.bounds_of_placed ho'
    rw [h.bytes_eq] at hbounds'
    simp only [Prod.mk.injEq, and_true] at hsame
    dsimp only at hbounds'
    omega

end Divided

theorem landsAt_iff : d.LandsAt b fs lo hi (o, w) ↔ (o, w.toText) ∈ (placedWidgets
    (d.rereadBytes lo hi).1 (Synthesis.segments b fs d.text (d.rereadBytes lo hi).1
      (d.rereadBytes lo hi).2 d.ids).1).map fun v => (v.1, v.2.toText) := by
  rw [← placed_glyphs, Synthesis.segments, Synthesis.glyphs_build,
    Synthesis.mem_placed_readFrom]
  rfl

/-- A widget that is read again and kept lands at its offset. -/
theorem landsAt_of_mem (hd : d.Distinct) (h : Divided d lo hi x old z)
    (hw : (o, w) ∈ placedWidgets (d.rereadBytes lo hi).1 old)
    (hmem : w ∈ newRow b fs d lo hi old) : d.LandsAt b fs lo hi (o, w) := by
  have hrow : w ∈ d.segments := by
    have hplaced : (o, w) ∈ placedWidgets 0 d.segments := by
      rw [h.placed_eq]
      exact List.mem_append_left _ (List.mem_append_right _ hw)
    exact placedWidgets_subset _ _ _ hplaced
  obtain ⟨id, hid⟩ := exists_id (isWidget_of_placed _ _ _ hw)
  have hold : (idsOf old).Nodup := by
    have hnodup := hd.nodup
    rw [idsOf_eq_filterMap, h.atoms_eq, List.filterMap_append, List.filterMap_append,
      ← idsOf_eq_filterMap old] at hnodup
    exact hnodup.sublist ((List.sublist_append_right _ _).trans (List.sublist_append_left _ _))
  rcases mem_keepIdentity hmem with hnew | ⟨o', v, hold', hv, htext⟩
  · refine absurd (hd.owned id (mem_idsOf.2 ⟨w, hrow, hid⟩)) ?_
    exact Synthesis.build_not_owned b fs _ _ _ _ _ id (mem_idsOf.2 ⟨w, hnew, hid⟩)
  · have hsame := placed_unique_of_id hold _ _ hw _ hold' rfl
    obtain rfl : o = o' := congrArg Prod.fst hsame
    rw [landsAt_iff, htext]
    exact List.mem_map_of_mem (f := fun v => (v.1, v.2.toText)) hv

/-- Where the range is read as what it holds, every widget in it lands. -/
theorem landsAt_of_sameAll (hd : d.Distinct) (h : Divided d lo hi x old z)
    (hw : (o, w) ∈ placedWidgets (d.rereadBytes lo hi).1 old)
    (hsame : sameAll (newRow b fs d lo hi old) old = true) : d.LandsAt b fs lo hi (o, w) := by
  have hsub : ∀ id ∈ idsOf old, id ∈ idsOf d.segments := by
    intro id hid
    rw [idsOf_eq_filterMap] at hid ⊢
    rw [h.atoms_eq, List.filterMap_append, List.filterMap_append]
    exact List.mem_append_left _ (List.mem_append_right _ hid)
  have hglyphs : glyphs (Synthesis.segments b fs d.text (d.rereadBytes lo hi).1
      (d.rereadBytes lo hi).2 d.ids).1 = glyphs old := by
    have hrebuilt : newRow b fs d lo hi old = old := rebuild_eq_of_sameAll b fs hd.owned hsub hsame
    rw [← glyphs_keepIdentity (isWidget_of_placed _ old) (d.rereadBytes lo hi).1]
    exact congrArg glyphs hrebuilt
  rw [landsAt_iff, ← placed_glyphs, hglyphs, placed_glyphs]
  exact List.mem_map_of_mem (f := fun v => (v.1, v.2.toText)) hw

/-- A widget outside of the range stays. -/
theorem mem_reparse_of_outside (hf : d.freshness = .dirty lo hi)
    (hw : (o, w) ∈ placedWidgets 0 d.segments)
    (hout : o < (d.rereadBytes lo hi).1 ∨ (d.rereadBytes lo hi).2 ≤ o) :
    w ∈ (d.reparse b fs).2.segments := by
  have hwidget := isWidget_of_placed _ _ _ hw
  obtain ⟨x, old, z, hdivided, hrow⟩ := exists_divided b fs hf
  rcases hrow with ⟨-, hrow⟩ | hrow
  · rw [hrow]
    exact placedWidgets_subset _ _ _ hw
  · rw [hrow, mem_toRow_append hwidget, mem_toRow_append hwidget]
    rcases hdivided.mem_outer hw hout with hx | hz
    · exact Or.inl (Or.inl ((mem_toRow_iff hwidget _).2 ⟨o, hx⟩))
    · exact Or.inr ((mem_toRow_iff hwidget _).2 ⟨o, hz⟩)

/-- A widget within the range that lands at its offset stays. -/
theorem mem_reparse_of_landed (hf : d.freshness = .dirty lo hi)
    (hw : (o, w) ∈ placedWidgets 0 d.segments) (hstart : (d.rereadBytes lo hi).1 ≤ o)
    (hstop : o < (d.rereadBytes lo hi).2) (hlands : d.LandsAt b fs lo hi (o, w)) :
    w ∈ (d.reparse b fs).2.segments := by
  have hwidget := isWidget_of_placed _ _ _ hw
  obtain ⟨x, old, z, hdivided, hrow⟩ := exists_divided b fs hf
  have hold := hdivided.mem_old hw hstart hstop
  rcases hrow with ⟨-, hrow⟩ | hrow
  · rw [hrow]
    exact placedWidgets_subset _ _ _ hw
  · have hkept : w ∈ newRow b fs d lo hi old :=
      mem_keepIdentity_of_placed (placed_unique _ old) hold ((landsAt_iff b fs).1 hlands)
    rw [hrow, mem_toRow_append hwidget, mem_toRow_append hwidget, mem_toRow_atoms hwidget]
    exact Or.inl (Or.inr hkept)

/-- A widget within the range that does not land at its offset is gone. -/
theorem not_mem_reparse_of_displaced (hd : d.Distinct) (hf : d.freshness = .dirty lo hi)
    (hw : (o, w) ∈ placedWidgets 0 d.segments) (hstart : (d.rereadBytes lo hi).1 ≤ o)
    (hstop : o < (d.rereadBytes lo hi).2) (hlands : ¬ d.LandsAt b fs lo hi (o, w)) :
    w ∉ (d.reparse b fs).2.segments := by
  intro hmem
  have hwidget := isWidget_of_placed _ _ _ hw
  obtain ⟨x, old, z, hdivided, hrow⟩ := exists_divided b fs hf
  have hold := hdivided.mem_old hw hstart hstop
  rcases hrow with ⟨hsame, -⟩ | hrow
  · exact hlands (landsAt_of_sameAll b fs hd hdivided hold hsame)
  · obtain ⟨hx, hz⟩ := hdivided.not_mem_outer hd hold
    rw [hrow, mem_toRow_append hwidget, mem_toRow_append hwidget, mem_toRow_atoms hwidget] at hmem
    rcases hmem with (hmem | hmem) | hmem
    · exact hx hmem
    · exact hlands (landsAt_of_mem b fs hd hdivided hold hmem)
    · exact hz hmem

/-- A literal recognized in its place lands there where as many bytes as before are written before
it. -/
theorem landsAt_of_unmoved {before after : List Match} {m : Match} {g : List Glyph}
    (hstart : (d.rereadBytes lo hi).1 ≤ o)
    (hms : recognize d.text (d.rereadBytes lo hi).1 (d.rereadBytes lo hi).2 = before ++ m :: after)
    (hm : m.start = o) (hg : Synthesis.widgetGlyphs? b fs m.literal = some g)
    (htext : Glyph.join g = w.toText)
    (hlen : Text.byteLen (Glyph.join (Synthesis.readFrom b fs d.text o (d.rereadBytes lo hi).1
      before)) = o - (d.rereadBytes lo hi).1) : d.LandsAt b fs lo hi (o, w) := by
  refine ⟨before, m, after, g, hms, hg, htext, ?_⟩
  show (d.rereadBytes lo hi).1 + Text.byteLen (Glyph.join
    (Synthesis.readFrom b fs d.text m.start (d.rereadBytes lo hi).1 before)) = o
  rw [hm, hlen]
  exact Nat.add_sub_cancel' hstart

end

/-- Which widgets a document has when it is read again: all those outside of the range, and within
it those that land at their offsets; in a document with distinct ids, no others. A widget lands at
its offset, in particular, where its literal is recognized in its place and what stands before that
in the range is written in as many bytes as it was read from. -/
structure KeepsWidgets (d : Document) : Prop where
  clean : d.freshness = .clean → d.reparse b fs = (none, d)
  outside : ∀ {lo hi o w}, d.freshness = .dirty lo hi → (o, w) ∈ placedWidgets 0 d.segments →
    o < (d.rereadBytes lo hi).1 ∨ (d.rereadBytes lo hi).2 ≤ o → w ∈ (d.reparse b fs).2.segments
  landed : ∀ {lo hi o w}, d.freshness = .dirty lo hi → (o, w) ∈ placedWidgets 0 d.segments →
    (d.rereadBytes lo hi).1 ≤ o → o < (d.rereadBytes lo hi).2 → d.LandsAt b fs lo hi (o, w) →
    w ∈ (d.reparse b fs).2.segments
  displaced : ∀ {lo hi o w}, d.Distinct → d.freshness = .dirty lo hi →
    (o, w) ∈ placedWidgets 0 d.segments → (d.rereadBytes lo hi).1 ≤ o →
    o < (d.rereadBytes lo hi).2 → ¬ d.LandsAt b fs lo hi (o, w) →
    w ∉ (d.reparse b fs).2.segments
  unmoved : ∀ {lo hi o w before m after g}, d.freshness = .dirty lo hi →
    (o, w) ∈ placedWidgets 0 d.segments → (d.rereadBytes lo hi).1 ≤ o →
    o < (d.rereadBytes lo hi).2 →
    recognize d.text (d.rereadBytes lo hi).1 (d.rereadBytes lo hi).2 = before ++ m :: after →
    m.start = o → Synthesis.widgetGlyphs? b fs m.literal = some g → Glyph.join g = w.toText →
    Text.byteLen (Glyph.join (Synthesis.readFrom b fs d.text o (d.rereadBytes lo hi).1 before))
      = o - (d.rereadBytes lo hi).1 →
    w ∈ (d.reparse b fs).2.segments

theorem Distinct.applyAll {d : Document} (h : d.Distinct) (es : List TextEdit) :
    (TextEdit.applyAll es d).Distinct :=
  TextEdit.keeps_applyAll (fun hr h => h.replace hr) h es

theorem Distinct.reviseAll {d : Document} (h : d.Distinct) (groups : List (List TextEdit)) :
    (d.reviseAll b fs groups).Distinct := by
  induction groups generalizing d with
  | nil => exact h
  | cons es groups ih => exact ih ((h.applyAll es).reparse b fs)

/-- Reading again keeps the widgets that land where they stood, in every document; the documents of
a script, however edited, have distinct ids. -/
theorem reparse_keeps_widgets : (∀ d, KeepsWidgets b fs d)
    ∧ ∀ script groups es,
      (TextEdit.applyAll es ((ofText script b fs).reviseAll b fs groups)).Distinct := by
  refine ⟨fun d => ⟨?_, ?_, ?_, ?_, ?_⟩, fun script groups es =>
    ((Distinct.ofText script b fs).reviseAll b fs groups).applyAll es⟩
  · intro hf
    unfold reparse
    rw [hf]
  · exact mem_reparse_of_outside b fs
  · exact mem_reparse_of_landed b fs
  · exact not_mem_reparse_of_displaced b fs
  · intro lo hi o w before m after g hf hw hstart hstop hms hm hg htext hlen
    exact mem_reparse_of_landed b fs hf hw hstart hstop
      (landsAt_of_unmoved b fs hstart hms hm hg htext hlen)

/-- A literal that gets shorter when it is recognized takes the id from the widget behind it. -/
example :
    let fs := (Store.empty.addFile (.ofString "/w/a.png") [65]).addFile (.ofString "/w/b.png") [66]
    let b := Bundle.ofScript (.ofString "/w/s.py")
    let d := ofText "\"a.png\"".toList b fs
    let e := d.revise b fs [.insert 0 "Pattern(\"b.png\") ".toList]
    (idsOf d.segments).length = 1 ∧ (idsOf e.segments).length = 2
      ∧ ∀ id ∈ idsOf d.segments, id ∉ idsOf e.segments := by
  decide +kernel

end Document

end ImageScript
