import ImageScript.Proofs.Document.Atoms

/-!
# Edits by atoms

What the edits of a document do to its atoms. An edit at a range that can be cut succeeds and leaves
a normal row; an edit that succeeds had such a range. Edits of a widget leave every other segment
as it is.

Main statements: `cut_of_segmentsIn`, `splice?_of_cut`, `insertText_of_cut`, `removeRange_of_cut`,
`findPattern_eq_ok`, `IsNormal.replace`.
-/

namespace ImageScript

namespace Document

variable {d : Document} {lo hi pos : Nat} {x y z : List Atom}

open Segment

/-- No error is a range of positions in order, within the document. -/
theorem rangeError?_eq_none_iff : d.rangeError? lo hi = none ↔ lo ≤ hi ∧ hi ≤ d.len := by
  unfold rangeError?
  split
  · simp only [reduceCtorEq, false_iff]
    omega
  · split
    · simp only [reduceCtorEq, false_iff]
      omega
    · simp only [true_iff]
      omega

theorem rangeError?_of_cut (h : Cut d.segments lo hi x y z) : d.rangeError? lo hi = none :=
  rangeError?_eq_none_iff.2 ⟨h.le, h.le_totalLen⟩

theorem segmentsIn_of_cut (h : Cut d.segments lo hi x y z) :
    ∃ parts, d.segmentsIn lo hi = .ok parts ∧ atoms parts = y := by
  obtain ⟨parts, hclip, hparts⟩ := exists_clip? h
  refine ⟨parts, ?_, hparts⟩
  unfold segmentsIn
  rw [rangeError?_of_cut h, hclip]

theorem cut_of_segmentsIn {parts : List Segment} (h : d.segmentsIn lo hi = .ok parts) :
    ∃ x z, Cut d.segments lo hi x (atoms parts) z := by
  unfold segmentsIn at h
  split at h
  · simp at h
  · next herr =>
    obtain ⟨hle, hlen⟩ := rangeError?_eq_none_iff.1 herr
    split at h
    · next parts' hclip =>
      simp only [Except.ok.injEq] at h
      subst h
      exact cut_of_clip? hle hlen hclip
    · simp at h

theorem splice?_of_cut (h : Cut d.segments lo hi x y z) (inserted : List Segment) :
    ∃ removed, d.splice? lo hi inserted = some (removed, Atom.toRow (x ++ atoms inserted ++ z))
      ∧ atoms removed = y := by
  have hstart := h.start_eq
  have hstop := h.stop_eq
  have hatoms := h.atoms_eq
  rw [Atom.totalLen_append] at hstop
  rw [List.append_assoc] at hatoms
  obtain ⟨before, rest, hbefore, hx, hrest⟩ := exists_splitAt? hatoms
  obtain ⟨removed, after, hremoved, hy, hz⟩ := exists_splitAt? hrest
  rw [hstart] at hbefore
  rw [show Atom.totalLen y = hi - lo by omega] at hremoved
  refine ⟨removed, ?_, hy⟩
  unfold splice?
  simp only [hbefore, hremoved, Option.bind_eq_bind, Option.bind_some, normalize_eq_toRow,
    atoms_append, hx, hz]
  rfl

theorem cut_of_splice? {inserted removed row : List Segment} (hle : lo ≤ hi)
    (h : d.splice? lo hi inserted = some (removed, row)) :
    ∃ x z, Cut d.segments lo hi x (atoms removed) z
      ∧ row = Atom.toRow (x ++ atoms inserted ++ z) := by
  unfold splice? at h
  simp only [Option.bind_eq_bind] at h
  obtain ⟨⟨before, rest⟩, hbefore, h⟩ := Option.bind_eq_some_iff.1 h
  obtain ⟨⟨removed', after⟩, hremoved, h⟩ := Option.bind_eq_some_iff.1 h
  simp only [Option.pure_def, Option.some.injEq, Prod.mk.injEq] at h
  obtain ⟨rfl, rfl⟩ := h
  obtain ⟨hatoms, hlen⟩ := splitAt?_eq_some hbefore
  obtain ⟨hatoms', hlen'⟩ := splitAt?_eq_some hremoved
  refine ⟨atoms before, atoms after, ⟨?_, ?_, ?_⟩, ?_⟩
  · rw [hatoms, hatoms', List.append_assoc]
  · rw [totalLen_atoms, hlen]
  · rw [Atom.totalLen_append, totalLen_atoms, totalLen_atoms]
    omega
  · rw [normalize_eq_toRow, atoms_append, atoms_append]

theorem cut_of_splice?_self {inserted removed row : List Segment}
    (h : d.splice? pos pos inserted = some (removed, row)) :
    ∃ x z, Cut d.segments pos pos x [] z := by
  obtain ⟨x, z, hcut, -⟩ := cut_of_splice? (Nat.le_refl _) h
  rw [hcut.eq_nil] at hcut
  exact ⟨x, z, hcut⟩

/-! ### Text and segments -/

theorem insertText_of_cut (h : Cut d.segments pos pos x [] z) {s : Text} (hs : s ≠ []) :
    ∃ e, d.insertText pos s = .ok e ∧ e.ids = d.ids
      ∧ e.segments = Atom.toRow (x ++ s.map .char ++ z) := by
  obtain ⟨removed, hsplice, -⟩ := splice?_of_cut h [.text s]
  unfold insertText
  rw [if_neg hs, hsplice]
  exact ⟨_, rfl, rfl, by simp [atoms, atomsOf]⟩

theorem cut_of_insertText {s : Text} {e : Document} (hs : s ≠ [])
    (h : d.insertText pos s = .ok e) : ∃ x z, Cut d.segments pos pos x [] z := by
  unfold insertText at h
  rw [if_neg hs] at h
  split at h
  · simp at h
  · next removed row hsplice => exact cut_of_splice?_self hsplice

theorem insertSegments_of_cut (h : Cut d.segments pos pos x [] z) {inserted : List Segment}
    (hs : inserted ≠ []) :
    ∃ e, d.insertSegments pos inserted = .ok e ∧ e.ids = d.ids
      ∧ e.segments = Atom.toRow (x ++ atoms inserted ++ z) := by
  obtain ⟨removed, hsplice, -⟩ := splice?_of_cut h inserted
  unfold insertSegments
  rw [if_neg hs, hsplice]
  exact ⟨_, rfl, rfl, rfl⟩

theorem cut_of_insertSegments {inserted : List Segment} {e : Document} (hs : inserted ≠ [])
    (h : d.insertSegments pos inserted = .ok e) : ∃ x z, Cut d.segments pos pos x [] z := by
  unfold insertSegments at h
  rw [if_neg hs] at h
  split at h
  · simp at h
  · next removed row hsplice => exact cut_of_splice?_self hsplice

theorem removeRange_of_cut (hn : IsNormal d.segments) (h : Cut d.segments lo hi x y z) :
    ∃ removed e, d.removeRange lo hi = .ok (removed, e) ∧ e.ids = d.ids
      ∧ e.segments = Atom.toRow (x ++ z) ∧ atoms removed = y := by
  unfold removeRange
  rw [rangeError?_of_cut h]
  by_cases heq : lo = hi
  · subst heq
    obtain rfl := h.eq_nil
    exact ⟨[], d, by simp, rfl, hn.eq_toRow_point h, rfl⟩
  · obtain ⟨parts, hparts, -⟩ := segmentsIn_of_cut h
    obtain ⟨removed, hsplice, hremoved⟩ := splice?_of_cut h []
    simp only [if_neg heq, hparts, hsplice]
    exact ⟨removed, _, rfl, rfl, by simp, hremoved⟩

/-- A removal of something had a range that can be cut, and returns what stood there. -/
theorem cut_of_removeRange {removed : List Segment} {e : Document} (hne : lo ≠ hi)
    (h : d.removeRange lo hi = .ok (removed, e)) :
    ∃ x z, Cut d.segments lo hi x (atoms removed) z ∧ e.segments = Atom.toRow (x ++ z) := by
  unfold removeRange at h
  split at h
  · simp at h
  · next herr =>
    obtain ⟨hle, -⟩ := rangeError?_eq_none_iff.1 herr
    rw [if_neg hne] at h
    split at h
    · simp at h
    · simp at h
    · next hsplice =>
      obtain ⟨rfl, rfl⟩ := Prod.mk.inj (Except.ok.inj h)
      obtain ⟨x, z, hcut, hrow⟩ := cut_of_splice? hle hsplice
      exact ⟨x, z, hcut, by simpa using hrow⟩

end Document

/-! ### Widgets -/

namespace Segment

/-- A segment is the first with its id in a row. -/
structure FirstWith (id : Text) (row : List Segment) (before : List Segment) (s : Segment)
    (after : List Segment) : Prop where
  row_eq : row = before ++ s :: after
  id_eq : s.id? = some id
  absent : ∀ t ∈ before, t.id? ≠ some id

namespace FirstWith

variable {id : Text} {row before after : List Segment} {s t : Segment}

theorem find?_eq (h : FirstWith id row before s after) :
    row.find? (·.id? = some id) = some s := by
  rw [List.find?_eq_some_iff_append]
  refine ⟨by simp [h.id_eq], before, after, h.row_eq, ?_⟩
  intro t ht
  simp [h.absent t ht]

theorem replaceFirst_eq (h : FirstWith id row before s after) (f : Segment → Segment) :
    replaceFirst id f row = before ++ f s :: after := by
  obtain ⟨rfl, hid, habsent⟩ := h
  induction before with
  | nil => simp [replaceFirst, hid]
  | cons t before ih =>
    have ht := habsent t (List.mem_cons_self ..)
    have hrest := ih fun u hu => habsent u (List.mem_cons_of_mem _ hu)
    simp [replaceFirst, ht, hrest]

end FirstWith

theorem exists_firstWith {id : Text} {row : List Segment} {s : Segment}
    (h : row.find? (·.id? = some id) = some s) : ∃ before after, FirstWith id row before s after := by
  obtain ⟨hs, before, after, rfl, habsent⟩ := List.find?_eq_some_iff_append.1 h
  refine ⟨before, after, rfl, by simpa using hs, ?_⟩
  intro t ht
  simpa using habsent t ht

/-- Runs do not merge over a widget. -/
theorem attach_replaceFirst {s w : Segment} {id : Text} (hs : s.id? ≠ some id)
    (hw : w.isWidget = true) (row : List Segment) :
    attach s (replaceFirst id (fun _ => w) row) = replaceFirst id (fun _ => w) (attach s row) := by
  cases s with
  | pattern p => simp [attach, replaceFirst, hs]
  | region r => simp [attach, replaceFirst, hs]
  | text a =>
    by_cases ha : a = []
    · simp [attach, ha]
    · cases row with
      | nil => simp [attach, ha, replaceFirst, id?]
      | cons t row =>
        by_cases ht : t.id? = some id
        · cases t <;> cases w <;> simp_all [attach, replaceFirst, id?, isWidget]
        · cases t <;> simp_all [attach, replaceFirst, id?]

theorem normalize_replaceFirst (row : List Segment) (id : Text) {w : Segment}
    (hw : w.isWidget = true) :
    normalize (replaceFirst id (fun _ => w) row) = replaceFirst id (fun _ => w) (normalize row) := by
  induction row with
  | nil => rfl
  | cons s rest ih =>
    by_cases hs : s.id? = some id
    · have hwidget : s.isWidget = true := by cases s <;> simp_all [id?, isWidget]
      simp only [replaceFirst, if_pos hs]
      cases s with
      | text a => simp [isWidget] at hwidget
      | pattern p => cases w <;> simp_all [normalize, attach, replaceFirst, isWidget]
      | region r => cases w <;> simp_all [normalize, attach, replaceFirst, isWidget]
    · simp only [replaceFirst, if_neg hs]
      show attach s (normalize (replaceFirst id _ rest)) = _
      rw [ih, attach_replaceFirst hs hw]
      rfl

/-- A widget in the place of another one leaves a normal row. -/
theorem IsNormal.replace {row : List Segment} (h : IsNormal row) (id : Text) {w : Segment}
    (hw : w.isWidget = true) : IsNormal (replaceFirst id (fun _ => w) row) := by
  unfold IsNormal at *
  rw [← normalize_eq_toRow] at *
  rw [normalize_replaceFirst _ _ hw, h]

end Segment

namespace Document

variable {d : Document} {id : Text}

open Segment

theorem findPattern_eq_ok {p : Pattern} :
    d.findPattern id = .ok p ↔ d.segments.find? (·.id? = some id) = some (.pattern p) := by
  unfold findPattern widget?
  split
  · next q hq => simp [hq]
  · next s hs hw =>
    rw [hw]
    constructor
    · intro h; simp at h
    · intro h
      simp only [Option.some.injEq] at h
      exact absurd h (hs p)
  · next hnone => simp [hnone]

theorem findRegion_eq_ok {r : Region} :
    d.findRegion id = .ok r ↔ d.segments.find? (·.id? = some id) = some (.region r) := by
  unfold findRegion widget?
  split
  · next q hq => simp [hq]
  · next s hs hw =>
    rw [hw]
    constructor
    · intro h; simp at h
    · intro h
      simp only [Option.some.injEq] at h
      exact absurd h (hs r)
  · next hnone => simp [hnone]

end Document

end ImageScript
