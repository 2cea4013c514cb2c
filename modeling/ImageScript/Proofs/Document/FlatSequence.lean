import Mathlib.Data.List.Chain
import ImageScript.Files.Store
import ImageScript.Proofs.Document.InPlace

/-!
# The document as a flat sequence

A document is the sequence of its atoms: the characters of its runs, and its widgets. How the
characters are parted into runs is no information, and every edit is an operation on that sequence at
places given by positions.

Main statements: `Segment.isNormal_iff_separated`, `Atom.exists_append_iff`,
`Document.flat_sequence`.
-/

namespace ImageScript

namespace Segment

/-- No run of a row is empty, and no two runs are neighbours. -/
structure Separated (row : List Segment) : Prop where
  nonempty : Segment.text [] ∉ row
  apart : row.IsChain fun s t => s.isWidget = true ∨ t.isWidget = true

theorem Separated.attach {s : Segment} {row : List Segment} (h : Separated row) :
    Separated (s.attach row) := by
  have hwidget : ∀ w : Segment, w.isWidget = true → Separated (w :: row) := by
    intro w hw
    constructor
    · intro hmem
      rcases List.mem_cons.1 hmem with rfl | hmem
      · simp [isWidget] at hw
      · exact h.nonempty hmem
    · cases row with
      | nil => exact List.isChain_singleton w
      | cons t row => exact List.isChain_cons_cons.2 ⟨Or.inl hw, h.apart⟩
  cases s with
  | pattern p => exact hwidget _ rfl
  | region r => exact hwidget _ rfl
  | text a =>
    by_cases ha : a = []
    · simpa [Segment.attach, ha] using h
    · cases row with
      | nil =>
        simp only [Segment.attach, if_neg ha]
        exact ⟨by simpa using ha, List.isChain_singleton _⟩
      | cons t row =>
        have hcons : ∀ w : Segment, w.isWidget = true → t = w → Separated (text a :: t :: row) := by
          rintro w hw rfl
          refine ⟨?_, List.isChain_cons_cons.2 ⟨Or.inr hw, h.apart⟩⟩
          intro hmem
          rcases List.mem_cons.1 hmem with heq | hmem
          · exact ha (Segment.text.inj heq).symm
          · exact h.nonempty hmem
        cases t with
        | pattern p =>
          simp only [Segment.attach, if_neg ha]
          exact hcons _ rfl rfl
        | region r =>
          simp only [Segment.attach, if_neg ha]
          exact hcons _ rfl rfl
        | text b =>
          simp only [Segment.attach, if_neg ha]
          constructor
          · intro hmem
            rcases List.mem_cons.1 hmem with heq | hmem
            · exact ha (List.append_eq_nil_iff.1 (Segment.text.inj heq).symm).1
            · exact h.nonempty (List.mem_cons_of_mem _ hmem)
          · cases row with
            | nil => exact List.isChain_singleton _
            | cons u row =>
              obtain ⟨hu, hrest⟩ := List.isChain_cons_cons.1 h.apart
              exact List.isChain_cons_cons.2 ⟨hu, hrest⟩

theorem separated_normalize (row : List Segment) : Separated (normalize row) := by
  induction row with
  | nil => exact ⟨List.not_mem_nil, List.isChain_nil⟩
  | cons s rest ih => exact ih.attach

/-- Where nothing is to be merged, merging changes nothing. -/
theorem Separated.normalize_eq {row : List Segment} (h : Separated row) : normalize row = row := by
  induction row with
  | nil => rfl
  | cons s rest ih =>
    have hrest : Separated rest :=
      ⟨fun hmem => h.nonempty (List.mem_cons_of_mem _ hmem), h.apart.tail⟩
    show s.attach (normalize rest) = s :: rest
    rw [ih hrest]
    cases s with
    | pattern p => rfl
    | region r => rfl
    | text a =>
      have ha : a ≠ [] := by
        rintro rfl
        exact h.nonempty (List.mem_cons_self ..)
      cases rest with
      | nil => simp [Segment.attach, ha]
      | cons t rest =>
        have ht := (List.isChain_cons_cons.1 h.apart).1
        cases t with
        | text b => simp [isWidget] at ht
        | pattern p => simp [Segment.attach, ha]
        | region r => simp [Segment.attach, ha]

/-- A row is the one that its atoms determine exactly where its runs are separated. -/
theorem isNormal_iff_separated {row : List Segment} : IsNormal row ↔ Separated row := by
  unfold IsNormal
  rw [← normalize_eq_toRow]
  constructor
  · intro h
    rw [← h]
    exact separated_normalize row
  · exact Separated.normalize_eq

end Segment

/-! ### Positions in a sequence of atoms -/

namespace Atom

/-- The number of atoms that end at a position or before it. -/
def indexAt : Nat → List Atom → Nat
  | _, [] => 0
  | n, a :: as => if a.len ≤ n then indexAt (n - a.len) as + 1 else 0

/-- The atoms between two positions. -/
def slice (lo hi : Nat) (as : List Atom) : List Atom :=
  (as.take (indexAt hi as)).drop (indexAt lo as)

/-- Some atoms in the place of those between two positions. -/
def replaceBetween (lo hi : Nat) (xs as : List Atom) : List Atom :=
  as.take (indexAt lo as) ++ xs ++ as.drop (indexAt hi as)

/-- Whether a position lies inside a character. -/
def InCharacter (as : List Atom) (pos : Nat) : Prop :=
  ∃ x c y, as = x ++ char c :: y ∧ totalLen x < pos ∧ pos < totalLen x + c.utf8Size

theorem indexAt_append (x y : List Atom) : indexAt (totalLen x) (x ++ y) = x.length := by
  induction x with
  | nil =>
    cases y with
    | nil => rfl
    | cons a y =>
      have hpos := a.len_pos
      simp only [List.nil_append, indexAt, totalLen]
      rw [if_neg (by omega)]
      rfl
  | cons a x ih =>
    simp only [List.cons_append, indexAt, totalLen, List.length_cons]
    rw [if_pos (Nat.le_add_right ..), Nat.add_sub_cancel_left, ih]

/-- A sequence can be cut at each position within it that is not inside a character. -/
theorem exists_append_iff {as : List Atom} {pos : Nat} :
    (∃ x y, as = x ++ y ∧ totalLen x = pos) ↔ pos ≤ totalLen as ∧ ¬ InCharacter as pos := by
  constructor
  · rintro ⟨x, y, rfl, rfl⟩
    refine ⟨by simp, ?_⟩
    rintro ⟨x', c, y', heq, hlt, hgt⟩
    rcases List.append_eq_append_iff.1 heq with ⟨m, rfl, hy⟩ | ⟨m, rfl, hy⟩
    · rw [totalLen_append] at hlt
      omega
    · cases m with
      | nil =>
        rw [List.append_nil] at hlt
        omega
      | cons a m =>
        obtain ⟨rfl, rfl⟩ := List.cons.inj hy
        simp only [totalLen_append, totalLen, len] at hgt
        omega
  · rintro ⟨hle, hin⟩
    induction as generalizing pos with
    | nil =>
      simp only [totalLen] at hle
      exact ⟨[], [], rfl, by simp only [totalLen]; omega⟩
    | cons a as ih =>
      simp only [totalLen] at hle
      by_cases ha : a.len ≤ pos
      · have hrest : ¬ InCharacter as (pos - a.len) := by
          rintro ⟨x, c, y, rfl, hlt, hgt⟩
          exact hin ⟨a :: x, c, y, rfl, by simp only [totalLen]; omega,
            by simp only [totalLen]; omega⟩
        obtain ⟨x, y, rfl, hx⟩ := ih (by omega) hrest
        exact ⟨a :: x, y, rfl, by simp only [totalLen]; omega⟩
      · by_cases hzero : pos = 0
        · exact ⟨[], a :: as, rfl, hzero.symm⟩
        · cases a with
          | char c =>
            exact absurd ⟨[], c, as, rfl, by simp only [totalLen]; omega,
              by simp only [totalLen, len] at *; omega⟩ hin
          | pattern p => simp only [len] at ha; omega
          | region r => simp only [len] at ha; omega

end Atom

namespace Segment.Cut

variable {row : List Segment} {lo hi : Nat} {x y z : List Atom}

theorem indexAt_start (h : Cut row lo hi x y z) : Atom.indexAt lo (atoms row) = x.length := by
  rw [h.atoms_eq, ← h.start_eq, List.append_assoc]
  exact Atom.indexAt_append x (y ++ z)

theorem indexAt_stop (h : Cut row lo hi x y z) : Atom.indexAt hi (atoms row) = (x ++ y).length := by
  rw [h.atoms_eq, ← h.stop_eq]
  exact Atom.indexAt_append (x ++ y) z

theorem slice_eq (h : Cut row lo hi x y z) : Atom.slice lo hi (atoms row) = y := by
  rw [Atom.slice, h.indexAt_start, h.indexAt_stop, h.atoms_eq, List.take_left, List.drop_left]

theorem replaceBetween_eq (h : Cut row lo hi x y z) (xs : List Atom) :
    Atom.replaceBetween lo hi xs (atoms row) = x ++ xs ++ z := by
  rw [Atom.replaceBetween, h.indexAt_start, h.indexAt_stop, h.atoms_eq, List.drop_left,
    List.append_assoc x y z, List.take_left]

end Segment.Cut

namespace Document

open Segment

variable {d e : Document} {lo hi pos : Nat}

/-- The sequence of the characters and widgets of a document. -/
def flat (d : Document) : List Atom := atoms d.segments

/-- Whether a position lies in a document and not inside a character. -/
def IsPosition (d : Document) (pos : Nat) : Prop :=
  pos ≤ d.len ∧ ¬ Atom.InCharacter d.flat pos

/-- The ranges that can be cut are those between two positions in order. -/
theorem exists_cut_iff :
    (∃ x y z, Cut d.segments lo hi x y z) ↔ lo ≤ hi ∧ d.IsPosition lo ∧ d.IsPosition hi := by
  have hlen : d.len = Atom.totalLen d.flat := (totalLen_atoms d.segments).symm
  unfold IsPosition
  rw [hlen, ← Atom.exists_append_iff, ← Atom.exists_append_iff]
  constructor
  · rintro ⟨x, y, z, hcut⟩
    exact ⟨hcut.le, ⟨x, y ++ z, by rw [← List.append_assoc]; exact hcut.atoms_eq, hcut.start_eq⟩,
      x ++ y, z, hcut.atoms_eq, hcut.stop_eq⟩
  · rintro ⟨hle, ⟨x, y, hxy, hx⟩, x', z, hxz, hx'⟩
    rcases List.append_eq_append_iff.1 (hxy.symm.trans hxz) with ⟨m, rfl, rfl⟩ | ⟨m, rfl, rfl⟩
    · exact ⟨x, m, z, hxz, hx, hx'⟩
    · rw [Atom.totalLen_append] at hx
      have hm : m = [] := Atom.eq_nil_of_totalLen (by omega)
      subst hm
      rw [List.append_nil] at hxy
      refine ⟨x', [], y, ?_, by omega, ?_⟩
      · rw [List.append_nil]
        exact hxy
      · rw [List.append_nil]
        exact hx'

theorem exists_cut_point_iff :
    (∃ x z, Cut d.segments pos pos x [] z) ↔ d.IsPosition pos := by
  constructor
  · rintro ⟨x, z, hcut⟩
    exact (exists_cut_iff.1 ⟨x, [], z, hcut⟩).2.1
  · intro h
    obtain ⟨x, y, z, hcut⟩ := exists_cut_iff.2 ⟨Nat.le_refl _, h, h⟩
    obtain rfl := hcut.eq_nil
    exact ⟨x, z, hcut⟩

theorem replaceBetween_nothing (d : Document) (pos : Nat) :
    Atom.replaceBetween pos pos [] d.flat = d.flat := by
  rw [Atom.replaceBetween, List.append_nil, List.take_append_drop]

theorem slice_nothing (d : Document) (pos : Nat) : Atom.slice pos pos d.flat = [] := by
  rw [Atom.slice, List.drop_eq_nil_iff, List.length_take]
  exact Nat.min_le_left ..

/-- What putting atoms in the place of a range does: unless there is nothing to be done, it succeeds
where both ends are positions in order; it returns what stood there, and the sequence behind it is
the one with the range replaced. -/
structure Replaces (d : Document) (lo hi : Nat) (xs : List Atom)
    (result : Except EditError (List Segment × Document)) : Prop where
  succeeds_iff : lo ≠ hi ∨ xs ≠ [] →
    ((∃ p, result = .ok p) ↔ lo ≤ hi ∧ d.IsPosition lo ∧ d.IsPosition hi)
  returns : ∀ p, result = .ok p → atoms p.1 = Atom.slice lo hi d.flat
  leaves : ∀ p, result = .ok p → p.2.flat = Atom.replaceBetween lo hi xs d.flat

/-- Nothing in the place of nothing. -/
theorem Replaces.nothing (d : Document) (pos : Nat) : d.Replaces pos pos [] (.ok ([], d)) := by
  refine ⟨by simp, ?_, ?_⟩
  · rintro p hp
    obtain rfl := Except.ok.inj hp
    exact (d.slice_nothing pos).symm
  · rintro p hp
    obtain rfl := Except.ok.inj hp
    exact (d.replaceBetween_nothing pos).symm

/-- An insertion that needs a position, and makes a new row there. -/
theorem Replaces.insertion {xs : List Atom} {result : Except EditError Document}
    (hok : ∀ x z, Cut d.segments pos pos x [] z →
      ∃ e, result = .ok e ∧ e.segments = Atom.toRow (x ++ xs ++ z))
    (hcut : ∀ e, result = .ok e → ∃ x z, Cut d.segments pos pos x [] z) :
    d.Replaces pos pos xs (result.map ([], ·)) := by
  have hflat : ∀ e, result = .ok e → e.flat = Atom.replaceBetween pos pos xs d.flat := by
    intro e he
    obtain ⟨x, z, hpoint⟩ := hcut e he
    obtain ⟨e', he', hrow⟩ := hok x z hpoint
    obtain rfl := Except.ok.inj (he.symm.trans he')
    rw [flat, hrow, atoms_toRow]
    exact (hpoint.replaceBetween_eq xs).symm
  cases result with
  | error err =>
    refine ⟨fun _ => ?_, by simp [Except.map], by simp [Except.map]⟩
    constructor
    · rintro ⟨p, hp⟩
      simp [Except.map] at hp
    · rintro ⟨-, hpos, -⟩
      obtain ⟨x, z, hpoint⟩ := exists_cut_point_iff.2 hpos
      obtain ⟨e, he, -⟩ := hok x z hpoint
      simp at he
  | ok e =>
    obtain ⟨x, z, hpoint⟩ := hcut e rfl
    have hpos := exists_cut_point_iff.1 ⟨x, z, hpoint⟩
    refine ⟨fun _ => ?_, ?_, ?_⟩
    · exact ⟨fun _ => ⟨Nat.le_refl _, hpos, hpos⟩, fun _ => ⟨([], e), rfl⟩⟩
    · rintro p hp
      obtain rfl := Except.ok.inj hp
      exact (d.slice_nothing pos).symm
    · rintro p hp
      obtain rfl := Except.ok.inj hp
      exact hflat e rfl

theorem replaces_insertText (d : Document) (pos : Nat) (s : Text) :
    d.Replaces pos pos (s.map .char) ((d.insertText pos s).map ([], ·)) := by
  by_cases hs : s = []
  · have hsame : d.insertText pos s = .ok d := by
      unfold insertText
      rw [if_pos hs]
    rw [hsame, hs]
    exact Replaces.nothing d pos
  · refine Replaces.insertion ?_ fun e he => cut_of_insertText hs he
    intro x z hcut
    obtain ⟨e, he, -, hrow⟩ := insertText_of_cut hcut hs
    exact ⟨e, he, hrow⟩

theorem replaces_insertSegments (d : Document) (pos : Nat) (inserted : List Segment) :
    d.Replaces pos pos (atoms inserted) ((d.insertSegments pos inserted).map ([], ·)) := by
  by_cases hs : inserted = []
  · have hsame : d.insertSegments pos inserted = .ok d := by
      unfold insertSegments
      rw [if_pos hs]
    rw [hsame, hs]
    exact Replaces.nothing d pos
  · refine Replaces.insertion ?_ fun e he => cut_of_insertSegments hs he
    intro x z hcut
    obtain ⟨e, he, -, hrow⟩ := insertSegments_of_cut hcut hs
    exact ⟨e, he, hrow⟩

/-- A removal of nothing leaves the document. -/
theorem removeRange_self {removed : List Segment} (h : d.removeRange pos pos = .ok (removed, e)) :
    removed = [] ∧ e = d := by
  unfold removeRange at h
  split at h
  · simp at h
  · rw [if_pos rfl] at h
    obtain ⟨rfl, rfl⟩ := Prod.mk.inj (Except.ok.inj h)
    exact ⟨rfl, rfl⟩

theorem removeRange_of_isPosition (h : d.IsPosition pos) : d.removeRange pos pos = .ok ([], d) := by
  unfold removeRange
  rw [rangeError?_eq_none_iff.2 ⟨Nat.le_refl _, h.1⟩]
  simp

theorem replaces_removeRange (hn : IsNormal d.segments) (lo hi : Nat) :
    d.Replaces lo hi [] (d.removeRange lo hi) := by
  by_cases hne : lo = hi
  · subst hne
    have hsame : ∀ p, d.removeRange lo lo = .ok p → p = ([], d) := by
      rintro ⟨removed, e⟩ hp
      obtain ⟨rfl, rfl⟩ := removeRange_self hp
      rfl
    have hnothing := Replaces.nothing d lo
    refine ⟨by simp, fun p hp => ?_, fun p hp => ?_⟩
    · exact hnothing.returns p (by rw [hsame p hp])
    · exact hnothing.leaves p (by rw [hsame p hp])
  · refine ⟨fun _ => ?_, ?_, ?_⟩
    · rw [← exists_cut_iff]
      constructor
      · rintro ⟨⟨removed, e⟩, hp⟩
        obtain ⟨x, z, hcut, -⟩ := cut_of_removeRange hne hp
        exact ⟨x, _, z, hcut⟩
      · rintro ⟨x, y, z, hcut⟩
        obtain ⟨removed, e, hp, -⟩ := removeRange_of_cut hn hcut
        exact ⟨(removed, e), hp⟩
    · rintro ⟨removed, e⟩ hp
      obtain ⟨x, z, hcut, -⟩ := cut_of_removeRange hne hp
      exact hcut.slice_eq.symm
    · rintro ⟨removed, e⟩ hp
      obtain ⟨x, z, hcut, hrow⟩ := cut_of_removeRange hne hp
      have hrest := hcut.replaceBetween_eq []
      rw [List.append_nil] at hrest
      rw [flat, hrow, atoms_toRow]
      exact hrest.symm

theorem replaceRange_of_removeRange {removed : List Segment} (s : Text)
    (h : d.removeRange lo hi = .ok (removed, e)) :
    d.replaceRange lo hi s = (e.insertText lo s).map (removed, ·) := by
  unfold replaceRange
  simp only [h, bind, Except.bind]
  cases e.insertText lo s with
  | error err => rfl
  | ok e' => rfl

theorem replaceRange_of_refused {err : EditError} (s : Text)
    (h : d.removeRange lo hi = .error err) : d.replaceRange lo hi s = .error err := by
  unfold replaceRange
  simp only [h, bind, Except.bind]

theorem replaces_replaceRange (hn : IsNormal d.segments) (lo hi : Nat) (s : Text) :
    d.Replaces lo hi (s.map .char) (d.replaceRange lo hi s) := by
  have hremoval := replaces_removeRange hn lo hi
  cases hremove : d.removeRange lo hi with
  | error err =>
    rw [replaceRange_of_refused s hremove]
    refine ⟨fun _ => ?_, by simp, by simp⟩
    constructor
    · rintro ⟨p, hp⟩
      simp at hp
    · rintro ⟨hle, hlo, hhi⟩
      by_cases hne : lo = hi
      · rw [← hne, removeRange_of_isPosition hlo] at hremove
        simp at hremove
      · obtain ⟨p, hp⟩ := (hremoval.succeeds_iff (Or.inl hne)).2 ⟨hle, hlo, hhi⟩
        rw [hremove] at hp
        simp at hp
  | ok p =>
    obtain ⟨removed, e⟩ := p
    rw [replaceRange_of_removeRange s hremove]
    by_cases hne : lo = hi
    · subst hne
      obtain ⟨rfl, rfl⟩ := removeRange_self hremove
      exact replaces_insertText e lo s
    · obtain ⟨x, z, hcut, hrow⟩ := cut_of_removeRange hne hremove
      obtain ⟨e', he'⟩ := exists_insertText_of_removeRange hne hremove s
      have hpoint : Cut e.segments lo lo x [] z := by
        rw [hrow]
        exact hcut.removed
      have hinsert := (replaces_insertText e lo s).leaves ([], e') (by rw [he']; rfl)
      rw [he']
      refine ⟨fun _ => ?_, ?_, ?_⟩
      · exact ⟨fun _ => exists_cut_iff.1 ⟨x, _, z, hcut⟩, fun _ => ⟨(removed, e'), rfl⟩⟩
      · rintro p hp
        obtain rfl := Except.ok.inj hp
        exact hcut.slice_eq.symm
      · rintro p hp
        obtain rfl := Except.ok.inj hp
        rw [hinsert]
        exact (hpoint.replaceBetween_eq _).trans (hcut.replaceBetween_eq _).symm

/-- A copy of a range is the slice of the sequence, and can be taken between any two positions. -/
theorem segmentsIn_slice (d : Document) (lo hi : Nat) :
    ((∃ parts, d.segmentsIn lo hi = .ok parts) ↔ lo ≤ hi ∧ d.IsPosition lo ∧ d.IsPosition hi)
      ∧ ∀ parts, d.segmentsIn lo hi = .ok parts → atoms parts = Atom.slice lo hi d.flat := by
  constructor
  · rw [← exists_cut_iff]
    constructor
    · rintro ⟨parts, h⟩
      obtain ⟨x, z, hcut⟩ := cut_of_segmentsIn h
      exact ⟨x, _, z, hcut⟩
    · rintro ⟨x, y, z, hcut⟩
      obtain ⟨parts, h, -⟩ := segmentsIn_of_cut hcut
      exact ⟨parts, h⟩
  · intro parts h
    obtain ⟨x, z, hcut⟩ := cut_of_segmentsIn h
    exact hcut.slice_eq.symm

/-! ### Every run of calls -/

theorem isNormal_insertText {s : Text} (hn : IsNormal d.segments)
    (h : d.insertText pos s = .ok e) : IsNormal e.segments := by
  by_cases hs : s = []
  · unfold insertText at h
    rw [if_pos hs] at h
    obtain rfl := Except.ok.inj h
    exact hn
  · obtain ⟨x, z, hcut⟩ := cut_of_insertText hs h
    obtain ⟨e', he', -, hrow⟩ := insertText_of_cut hcut hs
    obtain rfl := Except.ok.inj (h.symm.trans he')
    rw [hrow]
    exact isNormal_toRow _

theorem isNormal_insertSegments {inserted : List Segment} (hn : IsNormal d.segments)
    (h : d.insertSegments pos inserted = .ok e) : IsNormal e.segments := by
  by_cases hs : inserted = []
  · unfold insertSegments at h
    rw [if_pos hs] at h
    obtain rfl := Except.ok.inj h
    exact hn
  · obtain ⟨x, z, hcut⟩ := cut_of_insertSegments hs h
    obtain ⟨e', he', -, hrow⟩ := insertSegments_of_cut hcut hs
    obtain rfl := Except.ok.inj (h.symm.trans he')
    rw [hrow]
    exact isNormal_toRow _

theorem isNormal_removeRange {removed : List Segment} (hn : IsNormal d.segments)
    (h : d.removeRange lo hi = .ok (removed, e)) : IsNormal e.segments := by
  by_cases hne : lo = hi
  · subst hne
    obtain ⟨-, rfl⟩ := removeRange_self h
    exact hn
  · obtain ⟨x, z, -, hrow⟩ := cut_of_removeRange hne h
    rw [hrow]
    exact isNormal_toRow _

variable {σ : Type} [FileSystem σ]

theorem isNormal_reparse (hn : IsNormal d.segments) (b : Bundle) (fs : σ) :
    IsNormal (d.reparse b fs).2.segments := by
  have hreread := reread_reparse d b fs
  cases hr : (d.reparse b fs).1 with
  | none =>
    rw [hreread.kept hr]
    exact hn
  | some r =>
    obtain ⟨x, z, -, hrow, -⟩ := hreread.rebuilt r hr
    rw [hrow]
    exact isNormal_toRow _

/-- Each call leaves a normal row where it found one. -/
theorem Call.isNormal_apply {c : Call σ} {returned : List Segment} (hn : IsNormal d.segments)
    (h : c.apply d = .ok (returned, e)) : IsNormal e.segments := by
  cases c with
  | insertText pos s =>
    cases he : d.insertText pos s with
    | error err => simp [Call.apply, he, Except.map] at h
    | ok e' =>
      simp only [Call.apply, he, Except.map, Except.ok.injEq, Prod.mk.injEq] at h
      exact h.2 ▸ isNormal_insertText hn he
  | insertSegments pos inserted =>
    cases he : d.insertSegments pos inserted with
    | error err => simp [Call.apply, he, Except.map] at h
    | ok e' =>
      simp only [Call.apply, he, Except.map, Except.ok.injEq, Prod.mk.injEq] at h
      exact h.2 ▸ isNormal_insertSegments hn he
  | removeRange lo hi => exact isNormal_removeRange hn h
  | replaceRange lo hi s =>
    change d.replaceRange lo hi s = _ at h
    cases hremove : d.removeRange lo hi with
    | error err =>
      rw [replaceRange_of_refused s hremove] at h
      simp at h
    | ok p =>
      obtain ⟨removed, mid⟩ := p
      rw [replaceRange_of_removeRange s hremove] at h
      cases he : mid.insertText lo s with
      | error err => simp [he, Except.map] at h
      | ok e' =>
        simp only [he, Except.map, Except.ok.injEq, Prod.mk.injEq] at h
        exact h.2 ▸ isNormal_insertText (isNormal_removeRange hn hremove) he
  | reparse b fs =>
    obtain ⟨-, rfl⟩ := Prod.mk.inj (Except.ok.inj h)
    exact isNormal_reparse hn b fs

/-- The documents that are read from a text or put together from segments, and changed by calls in
place, granted or refused. -/
inductive Built (σ : Type) [FileSystem σ] : Document → Prop where
  | ofText (s : Text) (b : Bundle) (fs : σ) : Built σ (.ofText s b fs)
  | ofSegments (script : Text) (row : List Segment) : Built σ (.ofSegments script row)
  | granted {d e : Document} {c : Call σ} {returned : List Segment} (h : Built σ d)
    (hrun : c.run d = .ok returned e) : Built σ e
  | refused {d e : Document} {c : Call σ} {err : EditError} (h : Built σ d)
    (hrun : c.run d = .error err e) : Built σ e

theorem Built.isNormal (h : Built σ d) : IsNormal d.segments := by
  induction h with
  | ofText s b fs => exact Synthesis.isNormal_build ..
  | ofSegments script row =>
    show IsNormal (normalize row)
    rw [normalize_eq_toRow]
    exact isNormal_toRow _
  | granted _ hrun ih =>
    rename_i d e c returned _
    rw [Call.run_eq] at hrun
    cases happly : c.apply d with
    | error err => simp [happly, settle] at hrun
    | ok p =>
      obtain ⟨returned', e'⟩ := p
      simp only [happly, settle, EStateM.Result.ok.injEq] at hrun
      exact hrun.2 ▸ Call.isNormal_apply ih happly
  | refused _ hrun ih =>
    rename_i d e c err _
    rw [Call.run_eq] at hrun
    cases happly : c.apply d with
    | error err' =>
      simp only [happly, settle, EStateM.Result.error.injEq] at hrun
      exact hrun.2 ▸ ih
    | ok p => simp [happly, settle] at hrun

/-- What it means that a document is the sequence of its atoms. -/
structure FlatSequence (σ : Type) [FileSystem σ] (d : Document) : Prop where
  separated : Separated d.segments
  determined : ∀ e, Built σ e → e.flat = d.flat → e.segments = d.segments
  insertText : ∀ pos s, d.Replaces pos pos (s.map .char) ((d.insertText pos s).map ([], ·))
  insertSegments : ∀ pos inserted,
    d.Replaces pos pos (atoms inserted) ((d.insertSegments pos inserted).map ([], ·))
  removeRange : ∀ lo hi, d.Replaces lo hi [] (d.removeRange lo hi)
  replaceRange : ∀ lo hi s, d.Replaces lo hi (s.map .char) (d.replaceRange lo hi s)
  segmentsIn : ∀ lo hi,
    ((∃ parts, d.segmentsIn lo hi = .ok parts) ↔ lo ≤ hi ∧ d.IsPosition lo ∧ d.IsPosition hi)
      ∧ ∀ parts, d.segmentsIn lo hi = .ok parts → atoms parts = Atom.slice lo hi d.flat
  /-- Step by step a call comes to the same as at once. -/
  in_place : ∀ c : Call σ, c.run d = d.settle (c.apply d)
  unchanged : ∀ (c : Call σ) err e, c.run d = .error err e → e.segments = d.segments

/-- Every document is the sequence of its atoms, whatever was done to it. -/
theorem flat_sequence (h : Built σ d) : FlatSequence σ d := by
  have hn := h.isNormal
  refine
    { separated := isNormal_iff_separated.1 hn
      determined := ?_
      insertText := replaces_insertText d
      insertSegments := replaces_insertSegments d
      removeRange := replaces_removeRange hn
      replaceRange := replaces_replaceRange hn
      segmentsIn := segmentsIn_slice d
      in_place := Call.run_eq d
      unchanged := ?_ }
  · intro e he hflat
    rw [← he.isNormal, ← hn]
    exact congrArg Atom.toRow hflat
  · intro c err e hrun
    rw [Call.run_eq] at hrun
    cases happly : c.apply d with
    | error err' =>
      simp only [happly, settle, EStateM.Result.error.injEq] at hrun
      rw [hrun.2]
    | ok p => simp [happly, settle] at hrun

/-- A document with a widget, behind an insertion and one that was refused inside a character. -/
theorem flat_sequence_refused :
    let row := [.text "é".toList, .region ⟨"r".toList, 1, 2, 3, 4, false⟩]
    let inserted : Call Store := .insertText 2 "b".toList
    let torn : Call Store := .insertText 1 "c".toList
    ∃ d, inserted.run (.ofSegments "/w/s.py".toList row) = .ok [] d
      ∧ torn.run d = .error (.invalidPosition 1 4) d ∧ Built Store d ∧ FlatSequence Store d := by
  intro row inserted torn
  have hinserted : ∃ d, inserted.run (.ofSegments "/w/s.py".toList row) = .ok [] d
      ∧ torn.run d = .error (.invalidPosition 1 4) d := ⟨_, rfl, rfl⟩
  obtain ⟨d, hd, htorn⟩ := hinserted
  have hbuilt : Built Store d := .refused (.granted (.ofSegments _ _) hd) htorn
  exact ⟨d, hd, htorn, hbuilt, flat_sequence hbuilt⟩

end Document

end ImageScript
