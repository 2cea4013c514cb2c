import ImageScript.Proofs.Document.Layout

/-!
# What reading again leaves

A dirty document that is read again keeps what stands before and behind the range to be read, and in
between it holds what the text of that range is read as by itself. Widgets that are kept look like
the new ones they stand for.

Main statement: `glyphs_reparse`.
-/

namespace ImageScript

namespace Synthesis

variable {σ : Type} [FileSystem σ] (b : Bundle) (fs : σ)

open IdSource Segment

theorem widget?_not_owned (l : Literal) (ids : IdSource) :
    ∀ w ∈ (widget? b fs l ids).1, ∀ id ∈ idsOf [w], ¬ ids.Owns id := by
  have hpattern : ∀ l, ∀ w ∈ (pattern? b fs l ids).1, ∀ id ∈ idsOf [w], ¬ ids.Owns id := by
    intro l w hw id hid
    obtain ⟨name, path, -, -, rfl⟩ := exists_of_pattern? hw
    obtain rfl : id = (ids.next .pattern).1 := List.mem_singleton.1 hid
    exact not_owns_next ids .pattern
  cases l with
  | marker =>
    intro w hw id hid
    obtain rfl := Option.some.inj hw
    obtain rfl : id = (ids.next .pattern).1 := List.mem_singleton.1 hid
    exact not_owns_next ids .pattern
  | region r =>
    intro w hw id hid
    obtain rfl := Option.some.inj hw
    obtain rfl : id = (ids.next .region).1 := List.mem_singleton.1 hid
    exact not_owns_next ids .region
  | chain p => exact hpattern p
  | fileName name => exact hpattern (.bare name)

/-- The ids of new segments were not handed out before. -/
theorem build_not_owned (s : Text) (hi cursor : Nat) (ms : List Match) (ids : IdSource) :
    ∀ id ∈ idsOf (build b fs s hi cursor ms ids).1, ¬ ids.Owns id := by
  induction ms generalizing cursor ids with
  | nil =>
    intro id hid
    rw [build, idsOf_run] at hid
    exact absurd hid List.not_mem_nil
  | cons m ms ih =>
    obtain ⟨hgrows, -⟩ := widget?_owned b fs m.literal ids
    have hwidget := widget?_not_owned b fs m.literal ids
    unfold build
    cases hw : widget? b fs m.literal ids with
    | mk w ids' =>
      rw [hw] at hgrows hwidget
      cases w with
      | none =>
        intro id hid howns
        exact ih cursor ids' id hid (howns.grow hgrows)
      | some w =>
        intro id hid howns
        simp only [idsOf_append, idsOf_run, List.nil_append] at hid
        rw [idsOf_cons, List.mem_append] at hid
        rcases hid with hid | hid
        · exact hwidget w rfl id hid howns
        · exact ih m.stop ids' id hid (howns.grow hgrows)

end Synthesis

namespace Document

open Segment

/-! ### Kept widgets -/

theorem textLen_pos {w : Segment} (hw : w.isWidget = true) : 0 < w.textLen :=
  Text.byteLen_pos (toText_ne_nil hw)

/-- No two widgets of a row stand at the same offset. -/
theorem placed_unique (offset : Nat) (row : List Segment) :
    ∀ v ∈ placedWidgets offset row, ∀ w ∈ placedWidgets offset row, v.1 = w.1 → v = w := by
  induction row generalizing offset with
  | nil => exact fun v hv => absurd hv List.not_mem_nil
  | cons s rest ih =>
    intro v hv w hw heq
    simp only [placedWidgets] at hv hw
    split at hv
    · next hs =>
      rw [if_pos hs] at hw
      have hpos := textLen_pos hs
      rcases List.mem_cons.1 hv with rfl | hv
      · rcases List.mem_cons.1 hw with rfl | hw
        · rfl
        · have hle := le_of_placed _ _ w hw
          dsimp only at heq
          omega
      · rcases List.mem_cons.1 hw with rfl | hw
        · have hle := le_of_placed _ _ v hv
          dsimp only at heq
          omega
        · exact ih _ v hv w hw heq
    · next hs =>
      rw [if_neg hs] at hw
      exact ih _ v hv w hw heq

/-- The segment that is put in the place of a new one. -/
theorem keepIdentity_cons (old : List (Nat × Segment)) (offset : Nat) (s : Segment)
    (rest : List Segment) : ∃ kept,
      keepIdentity old offset (s :: rest) = kept :: keepIdentity old (offset + s.textLen) rest
        ∧ (kept = s ∨ s.isWidget = true ∧ (offset, kept) ∈ old ∧ kept.toText = s.toText) := by
  simp only [keepIdentity]
  split
  · next hs =>
    split
    · next w hw =>
      have hfound := List.find?_some hw
      simp only [decide_eq_true_eq] at hfound
      obtain ⟨rfl, htext⟩ := hfound
      exact ⟨w.2, rfl, Or.inr ⟨hs, List.mem_of_find?_eq_some hw, htext⟩⟩
    · exact ⟨s, rfl, Or.inl rfl⟩
  · exact ⟨s, rfl, Or.inl rfl⟩

/-- Kept widgets look like the new ones. -/
theorem glyphs_keepIdentity {old : List (Nat × Segment)}
    (hold : ∀ w ∈ old, w.2.isWidget = true) (offset : Nat) (row : List Segment) :
    glyphs (keepIdentity old offset row) = glyphs row := by
  induction row generalizing offset with
  | nil => rfl
  | cons s rest ih =>
    obtain ⟨kept, heq, hkept⟩ := keepIdentity_cons old offset s rest
    rw [heq, glyphs_cons kept, glyphs_cons s, ih]
    rcases hkept with rfl | ⟨hs, hmem, htext⟩
    · rfl
    · rw [glyphs_eq_of_toText (hold _ hmem) hs htext]

theorem eq_of_same_text {t : Segment} {a : Text} (h : same (.text a) t = true) : t = .text a := by
  cases t with
  | text b =>
    simp only [same, decide_eq_true_eq] at h
    rw [h]
  | pattern p => simp [same] at h
  | region r => simp [same] at h

/-- Widgets that are the same have one id. -/
theorem id?_of_same {s t : Segment} (hs : s.isWidget = true) (h : same s t = true) :
    t.isWidget = true ∧ t.id? = s.id? := by
  cases s with
  | text a => simp [isWidget] at hs
  | pattern p =>
    cases t with
    | text b => simp [same] at h
    | pattern q =>
      simp only [same, Pattern.same, Bool.and_eq_true, decide_eq_true_eq] at h
      refine ⟨rfl, ?_⟩
      simp only [id?, h.1.1.1.1.1.1.1.1.1]
    | region r => simp [same] at h
  | region r =>
    cases t with
    | text b => simp [same] at h
    | pattern q => simp [same] at h
    | region r' =>
      simp only [same, decide_eq_true_eq] at h
      rw [h]
      exact ⟨rfl, rfl⟩

theorem exists_id {s : Segment} (hs : s.isWidget = true) : ∃ id, s.id? = some id := by
  cases s with
  | text a => simp [isWidget] at hs
  | pattern p => exact ⟨p.id, rfl⟩
  | region r => exact ⟨r.id, rfl⟩

/-- A new segment that is the same as an old one is that one: a widget among them was kept, and at
its offset there is no other. -/
theorem eq_of_same {old : List (Nat × Segment)} {offset : Nat} {s kept t : Segment}
    (hunique : ∀ v ∈ old, ∀ w ∈ old, v.1 = w.1 → v = w)
    (hplaced : t.isWidget = true → (offset, t) ∈ old)
    (hkept : kept = s ∨ s.isWidget = true ∧ (offset, kept) ∈ old ∧ kept.toText = s.toText)
    (hfresh : s.id? ≠ t.id? ∨ s.isWidget = false) (hw : ∀ w ∈ old, w.2.isWidget = true)
    (h : same kept t = true) : kept = t ∧ s.textLen = t.textLen := by
  by_cases hs : s.isWidget = true
  · rcases hkept with rfl | ⟨-, hmem, htext⟩
    · have hid := (id?_of_same hs h).2
      rcases hfresh with hne | hrun
      · exact absurd hid.symm hne
      · rw [hs] at hrun
        simp at hrun
    · obtain ⟨ht, -⟩ := id?_of_same (hw _ hmem) h
      have heq := hunique _ hmem _ (hplaced ht) rfl
      simp only [Prod.mk.injEq, true_and] at heq
      subst heq
      exact ⟨rfl, by rw [textLen, textLen, htext]⟩
  · rcases hkept with rfl | ⟨hs', -, -⟩
    · cases kept with
      | text a =>
        obtain rfl := eq_of_same_text h
        exact ⟨rfl, rfl⟩
      | pattern p => exact absurd rfl hs
      | region r => exact absurd rfl hs
    · exact absurd hs' hs

/-- Where all new segments are the same as the old ones, nothing but kept widgets and equal runs
stand. -/
theorem keepIdentity_eq_of_sameAll {old : List (Nat × Segment)}
    (hunique : ∀ v ∈ old, ∀ w ∈ old, v.1 = w.1 → v = w) (hw : ∀ w ∈ old, w.2.isWidget = true)
    {fresh row : List Segment} {offset : Nat}
    (hplaced : ∀ w ∈ placedWidgets offset row, w ∈ old)
    (hfresh : ∀ id ∈ idsOf fresh, id ∉ idsOf row)
    (h : sameAll (keepIdentity old offset fresh) row = true) :
    keepIdentity old offset fresh = row := by
  induction fresh generalizing offset row with
  | nil =>
    cases row with
    | nil => rfl
    | cons t row => simp [keepIdentity, sameAll] at h
  | cons s fresh ih =>
    obtain ⟨kept, heq, hkept⟩ := keepIdentity_cons old offset s fresh
    rw [heq] at h
    cases row with
    | nil => simp [sameAll] at h
    | cons t row =>
      simp only [sameAll, Bool.and_eq_true] at h
      obtain ⟨hsame, hrest⟩ := h
      have ht : t.isWidget = true → (offset, t) ∈ old := by
        intro ht
        refine hplaced _ ?_
        simp only [placedWidgets, if_pos ht]
        exact List.mem_cons_self ..
      have hnew : s.id? ≠ t.id? ∨ s.isWidget = false := by
        by_cases hs : s.isWidget = true
        · left
          obtain ⟨id, hid⟩ := exists_id hs
          intro heq
          refine hfresh id (List.mem_filterMap.2 ⟨s, List.mem_cons_self .., hid⟩) ?_
          exact List.mem_filterMap.2 ⟨t, List.mem_cons_self .., heq ▸ hid⟩
        · right
          simpa using hs
      obtain ⟨rfl, hlen⟩ := eq_of_same hunique ht hkept hnew hw hsame
      rw [hlen] at hrest heq
      rw [heq]
      congr 1
      refine ih ?_ ?_ hrest
      · intro w hmem
        refine hplaced w ?_
        simp only [placedWidgets]
        split
        · exact List.mem_cons_of_mem _ hmem
        · exact hmem
      · intro id hid hrow
        rw [idsOf_cons] at hfresh
        refine hfresh id (List.mem_append_right _ hid) ?_
        rw [idsOf_cons]
        exact List.mem_append_right _ hrow

variable {σ : Type} [FileSystem σ] (b : Bundle) (fs : σ)

/-- What the text of a range is read as, widgets that stand there already being kept. -/
def rebuild (d : Document) (base stop : Nat) (old : List Segment) : List Segment :=
  keepIdentity (placedWidgets base old) base (Synthesis.segments b fs d.text base stop d.ids).1

/-- In a document whose ids were handed out, a range that is read as what it holds is built anew as
it was. -/
theorem rebuild_eq_of_sameAll {d : Document} {base stop : Nat} {old : List Segment}
    (howns : d.ids.OwnsAll d.segments) (hold : ∀ id ∈ idsOf old, id ∈ idsOf d.segments)
    (h : sameAll (rebuild b fs d base stop old) old = true) :
    rebuild b fs d base stop old = old := by
  refine keepIdentity_eq_of_sameAll (placed_unique _ old) (isWidget_of_placed _ old)
    (fun w hw => hw) ?_ h
  exact fun id hid hmem =>
    Synthesis.build_not_owned b fs _ _ _ _ _ id hid (howns id (hold id hmem))

/-- What reading a dirty document again comes to: nothing where the range is read as what it holds,
and otherwise the range built anew between what stands before and behind it. -/
theorem reparse_eq_of_cut {d : Document} {lo hi : Nat} {x y z : List Atom}
    (hf : d.freshness = .dirty lo hi)
    (hcut : Cut d.segments (d.rereadRange lo hi).1 (d.rereadRange lo hi).2 x y z) :
    let base := Text.byteLen (Atom.joinText x)
    let stop := base + Text.byteLen (Atom.joinText y)
    let ids := (Synthesis.segments b fs d.text base stop d.ids).2
    ∃ old, d.segmentsIn (d.rereadRange lo hi).1 (d.rereadRange lo hi).2 = .ok old ∧ atoms old = y
      ∧ d.reparse b fs =
        if sameAll (rebuild b fs d base stop old) old then (none, { d.markClean with ids })
        else (some ⟨(d.rereadRange lo hi).1, old, rebuild b fs d base stop old⟩,
          { d.markClean with
            ids
            segments := Atom.toRow (x ++ atoms (rebuild b fs d base stop old) ++ z)
            version := d.version + 1 }) := by
  obtain ⟨old, hold, hy⟩ := segmentsIn_of_cut hcut
  refine ⟨old, hold, hy, ?_⟩
  obtain ⟨removed, hsplice, -⟩ := splice?_of_cut hcut
    (rebuild b fs d (Text.byteLen (Atom.joinText x))
      (Text.byteLen (Atom.joinText x) + Text.byteLen (Atom.joinText y)) old)
  unfold rebuild at hsplice ⊢
  unfold reparse
  rw [hf]
  dsimp only
  rw [hold, hcut.offsetOf_start, hcut.offsetOf_stop]
  dsimp only
  split
  · rfl
  · rw [hsplice]

/-- The outcome of reading a dirty document again, as far as the ids and the row are concerned. -/
theorem reparse_of_cut {d : Document} {lo hi : Nat} {x y z : List Atom}
    (hf : d.freshness = .dirty lo hi)
    (hcut : Cut d.segments (d.rereadRange lo hi).1 (d.rereadRange lo hi).2 x y z) :
    let base := Text.byteLen (Atom.joinText x)
    let stop := base + Text.byteLen (Atom.joinText y)
    ∃ old, atoms old = y ∧ (d.reparse b fs).2.ids = (Synthesis.segments b fs d.text base stop d.ids).2
      ∧ (sameAll (rebuild b fs d base stop old) old = true
            ∧ (d.reparse b fs).2.segments = d.segments
        ∨ (d.reparse b fs).2.segments
            = Atom.toRow (x ++ atoms (rebuild b fs d base stop old) ++ z)) := by
  obtain ⟨old, -, hy, hreparse⟩ := reparse_eq_of_cut b fs hf hcut
  refine ⟨old, hy, ?_⟩
  rw [hreparse]
  split
  · next hsame => exact ⟨rfl, Or.inl ⟨hsame, rfl⟩⟩
  · exact ⟨rfl, Or.inr rfl⟩

/-- A range that is rebuilt looks like its text by itself, whatever widgets are kept in it. -/
theorem glyphs_rebuild {d : Document} {x y z : List Atom} (h : atoms d.segments = x ++ y ++ z)
    (old : List Segment) :
    glyphs (Atom.toRow (x ++ atoms (rebuild b fs d (Text.byteLen (Atom.joinText x))
      (Text.byteLen (Atom.joinText x) + Text.byteLen (Atom.joinText y)) old) ++ z))
        = x.map Atom.glyph ++ reading b fs (Atom.joinText y) ++ z.map Atom.glyph := by
  have htext := text_of_atoms h
  have hread := Synthesis.glyphs_segments b fs (Atom.joinText x) (Atom.joinText y)
    (Atom.joinText z) d.ids
  rw [← htext, ← glyphs_keepIdentity (isWidget_of_placed (Text.byteLen (Atom.joinText x)) old)
    (Text.byteLen (Atom.joinText x))] at hread
  rw [glyphs, atoms_toRow, List.map_append, List.map_append, ← hread]
  rfl

/-- What stands before and behind the range that is read again stays, and the text of the range is
read as by itself. -/
theorem glyphs_reparse {d : Document} {lo hi : Nat} {x y z : List Atom}
    (howns : d.ids.OwnsAll d.segments)
    (hf : d.freshness = .dirty lo hi)
    (hcut : Cut d.segments (d.rereadRange lo hi).1 (d.rereadRange lo hi).2 x y z) :
    glyphs (d.reparse b fs).2.segments =
      x.map Atom.glyph ++ reading b fs (Atom.joinText y) ++ z.map Atom.glyph := by
  have hatoms := hcut.atoms_eq
  obtain ⟨old, rfl, -, hrow⟩ := reparse_of_cut b fs hf hcut
  rw [← glyphs_rebuild b fs hatoms old]
  rcases hrow with ⟨hsame, hrow⟩ | hrow
  · rw [hrow, rebuild_eq_of_sameAll b fs howns (idsOf_subset_of_cut hcut) hsame, ← hatoms]
    simp only [glyphs, atoms_toRow]
  · rw [hrow]

end Document

end ImageScript
