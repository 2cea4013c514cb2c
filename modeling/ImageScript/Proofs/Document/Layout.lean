import ImageScript.Document.Reparse
import ImageScript.Proofs.Document.Extent
import ImageScript.Proofs.Document.Outline

/-!
# Where a document is read again

The range of positions that is read again can be cut out of the document, and it takes in the range
that was noted as dirty.

Main statements: `offsetOf_eq`, `posFloor_spec`, `posCeil_spec`, `exists_cut_widened`,
`exists_cut_around`.
-/

namespace ImageScript

namespace Atom

/-- The canonical text of a row of atoms. -/
def joinText (as : List Atom) : Text := as.flatMap toText

@[simp] theorem joinText_nil : joinText [] = [] := rfl

@[simp] theorem joinText_append (as bs : List Atom) :
    joinText (as ++ bs) = joinText as ++ joinText bs := List.flatMap_append

@[simp] theorem joinText_map_char (s : Text) : joinText (s.map char) = s := by
  unfold joinText
  rw [List.flatMap_map]
  exact List.flatMap_singleton' s

theorem toText_ne_nil (a : Atom) : a.toText ≠ [] := by
  cases a with
  | char c => exact List.cons_ne_nil c []
  | pattern p => exact Segment.toText_ne_nil (w := .pattern p) rfl
  | region r => exact Segment.toText_ne_nil (w := .region r) rfl

theorem eq_nil_of_joinText {as : List Atom} (h : joinText as = []) : as = [] := by
  cases as with
  | nil => rfl
  | cons a as =>
    have hnil := (List.append_eq_nil_iff.1 h).1
    exact absurd hnil a.toText_ne_nil

/-- Of two beginnings of a row the one with the shorter text is the beginning of the other. -/
theorem prefix_of_byteLen_le {as bs cs ds : List Atom} (h : as ++ bs = cs ++ ds)
    (hle : Text.byteLen (joinText as) ≤ Text.byteLen (joinText cs)) :
    ∃ m, cs = as ++ m ∧ bs = m ++ ds := by
  rcases List.append_eq_append_iff.1 h with ⟨m, rfl, rfl⟩ | ⟨m, rfl, rfl⟩
  · exact ⟨m, rfl, rfl⟩
  · have hm : m = [] := by
      by_cases hm : joinText m = []
      · exact eq_nil_of_joinText hm
      · have hpos := Text.byteLen_pos hm
        rw [joinText_append, Text.byteLen_append] at hle
        omega
    subst hm
    exact ⟨[], by simp, by simp⟩

/-- A row divides in one way at each place of its text. -/
theorem append_inj_of_byteLen {as bs cs ds : List Atom} (h : as ++ bs = cs ++ ds)
    (hlen : Text.byteLen (joinText as) = Text.byteLen (joinText cs)) : as = cs ∧ bs = ds := by
  obtain ⟨m, rfl, rfl⟩ := prefix_of_byteLen_le h (Nat.le_of_eq hlen)
  have hm : m = [] := by
    by_cases hm : joinText m = []
    · exact eq_nil_of_joinText hm
    · have hpos := Text.byteLen_pos hm
      rw [joinText_append, Text.byteLen_append] at hlen
      omega
  subst hm
  simp

/-- Whether a row divides at an offset of its text, or before the widget in whose text it falls. -/
inductive Floor (n : Nat) (x y : List Atom) : Prop where
  | between (eq : Text.byteLen (joinText x) = n)
  | within {w : Atom} {rest : List Atom} (first : y = w :: rest) (widget : ∀ c, w ≠ char c)
      (lt : Text.byteLen (joinText x) < n) (gt : n < Text.byteLen (joinText (x ++ [w])))

/-- Whether a row divides at an offset of its text, or behind the widget in whose text it falls. -/
inductive Ceil (n : Nat) (x y : List Atom) : Prop where
  | between (eq : Text.byteLen (joinText x) = n)
  | within {w : Atom} {rest : List Atom} (last : x = rest ++ [w]) (widget : ∀ c, w ≠ char c)
      (lt : Text.byteLen (joinText rest) < n) (gt : n < Text.byteLen (joinText x))

variable {n : Nat} {x y : List Atom}

theorem Floor.le (h : Floor n x y) : Text.byteLen (joinText x) ≤ n := by
  cases h with
  | between eq => exact Nat.le_of_eq eq
  | within first widget lt gt => exact Nat.le_of_lt lt

theorem Ceil.le (h : Ceil n x y) : n ≤ Text.byteLen (joinText x) := by
  cases h with
  | between eq => exact Nat.le_of_eq eq.symm
  | within last widget lt gt => exact Nat.le_of_lt gt

/-- Behind other atoms a row divides at the same place. -/
theorem Floor.behind (h : Floor n x y) (u : List Atom) :
    Floor (Text.byteLen (joinText u) + n) (u ++ x) y := by
  cases h with
  | between eq => exact .between (by rw [joinText_append, Text.byteLen_append, eq])
  | within first widget lt gt =>
    refine .within first widget ?_ ?_
    · rw [joinText_append, Text.byteLen_append]
      omega
    · rw [List.append_assoc, joinText_append, Text.byteLen_append]
      omega

theorem Ceil.behind (h : Ceil n x y) (u : List Atom) :
    Ceil (Text.byteLen (joinText u) + n) (u ++ x) y := by
  cases h with
  | between eq => exact .between (by rw [joinText_append, Text.byteLen_append, eq])
  | @within w rest last widget lt gt =>
    have hlast : u ++ x = u ++ rest ++ [w] := by rw [last, List.append_assoc]
    refine .within hlast widget ?_ ?_
    · rw [joinText_append, Text.byteLen_append]
      omega
    · rw [joinText_append, Text.byteLen_append]
      omega

end Atom

namespace Segment

theorem joinText_atoms (row : List Segment) : Atom.joinText (atoms row) = joinText row :=
  (joinText_eq_flatMap row).symm

theorem joinText_atomsOf (s : Segment) : Atom.joinText s.atomsOf = s.toText := toText_atomsOf s

/-- A position between two atoms lies at the length of the text before it. -/
theorem offsetOf_eq {row : List Segment} {x y : List Atom} (h : atoms row = x ++ y) :
    offsetOf row (Atom.totalLen x) = Text.byteLen (Atom.joinText x) := by
  induction row generalizing x y with
  | nil =>
    obtain ⟨rfl, rfl⟩ := List.append_eq_nil_iff.1 h.symm
    rfl
  | cons s rest ih =>
    simp only [offsetOf]
    rcases atoms_cons_eq_append h with ⟨hle, x', rfl, hrest⟩ | ⟨hlt, y', hs, -⟩
    · rw [if_neg (by omega), Atom.totalLen_append, totalLen_atomsOf, Nat.add_sub_cancel_left,
        ih hrest, Atom.joinText_append, Text.byteLen_append, joinText_atomsOf, textLen]
    · rw [if_pos hlt]
      cases s with
      | text t =>
        obtain ⟨a, b, -, rfl, -⟩ := map_char_eq_append hs
        simp [isWidget]
      | pattern p =>
        have hx : x = [] := Atom.eq_nil_of_totalLen (by simp only [len] at hlt; omega)
        simp [isWidget, hx]
      | region r =>
        have hx : x = [] := Atom.eq_nil_of_totalLen (by simp only [len] at hlt; omega)
        simp [isWidget, hx]

theorem Cut.offsetOf_start {row : List Segment} {lo hi : Nat} {x y z : List Atom}
    (h : Cut row lo hi x y z) : offsetOf row lo = Text.byteLen (Atom.joinText x) := by
  rw [← h.start_eq]
  exact offsetOf_eq (h.atoms_eq.trans (List.append_assoc x y z))

theorem Cut.offsetOf_stop {row : List Segment} {lo hi : Nat} {x y z : List Atom}
    (h : Cut row lo hi x y z) :
    offsetOf row hi = Text.byteLen (Atom.joinText x) + Text.byteLen (Atom.joinText y) := by
  rw [← h.stop_eq, offsetOf_eq h.atoms_eq, Atom.joinText_append, Text.byteLen_append]

theorem byteLen_joinText_cons (s : Segment) (rest : List Segment) :
    Text.byteLen (joinText (s :: rest)) = s.textLen + Text.byteLen (joinText rest) := by
  rw [textLen, ← Text.byteLen_append]
  rfl

theorem len_of_not_isWidget {s : Segment} (h : ¬ s.isWidget = true) : s.len = s.textLen := by
  cases s with
  | text t => rfl
  | pattern p => exact absurd rfl h
  | region r => exact absurd rfl h

theorem offsetOf_le (row : List Segment) (pos : Nat) :
    offsetOf row pos ≤ Text.byteLen (joinText row) := by
  induction row generalizing pos with
  | nil => exact Nat.zero_le _
  | cons s rest ih =>
    have hrest := ih (pos - s.len)
    have hlen := byteLen_joinText_cons s rest
    simp only [offsetOf]
    split
    · split
      · exact Nat.zero_le _
      · next hw =>
        have hsame := len_of_not_isWidget hw
        omega
    · omega

theorem offsetOf_mono (row : List Segment) {p q : Nat} (h : p ≤ q) :
    offsetOf row p ≤ offsetOf row q := by
  induction row generalizing p q with
  | nil => exact Nat.le_refl _
  | cons s rest ih =>
    have hrest := ih (p := p - s.len) (q := q - s.len) (by omega)
    simp only [offsetOf]
    by_cases hw : s.isWidget = true
    · simp only [if_pos hw]
      split <;> split <;> omega
    · have hlen := len_of_not_isWidget hw
      simp only [if_neg hw]
      split <;> split <;> omega

theorem boundary_cons {s : Segment} {rest : List Segment} {n : Nat}
    (h : (joinText (s :: rest)).Boundary n) : (n < s.textLen ∧ s.toText.Boundary n)
      ∨ (s.textLen ≤ n ∧ (joinText rest).Boundary (n - s.textLen)) :=
  Text.Boundary.of_append h

/-- An offset in the text of a widget leads before the widget. -/
theorem floor_widget {a : Atom} {n : Nat} (ha : ∀ c, a ≠ .char c)
    (hlt : n < Text.byteLen a.toText) (rest : List Atom) : Atom.Floor n [] (a :: rest) := by
  by_cases hzero : n = 0
  · exact .between hzero.symm
  · refine .within rfl ha (Nat.pos_of_ne_zero hzero) ?_
    simpa [Atom.joinText] using hlt

/-- The start of a widget, or the place itself between two characters. -/
theorem posFloor_spec {row : List Segment} {n : Nat} (h : (joinText row).Boundary n) :
    ∃ x y, atoms row = x ++ y ∧ posFloor row n = Atom.totalLen x ∧ Atom.Floor n x y := by
  induction row generalizing n with
  | nil =>
    have hzero : n = 0 := Nat.le_zero.1 h.le
    exact ⟨[], [], rfl, rfl, .between hzero.symm⟩
  | cons s rest ih =>
    simp only [posFloor]
    rcases boundary_cons h with ⟨hlt, hs⟩ | ⟨hle, hrest⟩
    · rw [if_pos hlt]
      cases s with
      | text t =>
        obtain ⟨a, b, hab, rfl⟩ := hs
        refine ⟨a.map .char, b.map .char ++ atoms rest, ?_, by simp [isWidget],
          .between (by simp)⟩
        simp only [toText] at hab
        simp [atoms, atomsOf, hab]
      | pattern p => exact ⟨[], _, rfl, rfl, floor_widget (a := .pattern p) (by simp) hlt _⟩
      | region r => exact ⟨[], _, rfl, rfl, floor_widget (a := .region r) (by simp) hlt _⟩
    · rw [if_neg (by omega)]
      obtain ⟨x, y, hxy, hpos, hfloor⟩ := ih hrest
      refine ⟨s.atomsOf ++ x, y, by simp [atoms, hxy], ?_, ?_⟩
      · rw [Atom.totalLen_append, totalLen_atomsOf, hpos]
      · have hbehind := hfloor.behind s.atomsOf
        rwa [joinText_atomsOf, ← textLen, Nat.add_sub_cancel' hle] at hbehind

/-- An offset in the text of a widget leads behind the widget, unless it is its very start. -/
theorem posCeil_widget {a : Atom} {n : Nat} (ha : ∀ c, a ≠ .char c) (hone : a.len = 1)
    (hlt : n < Text.byteLen a.toText) (rest : List Atom) :
    ∃ x y, a :: rest = x ++ y ∧ min n 1 = Atom.totalLen x ∧ Atom.Ceil n x y := by
  by_cases hzero : n = 0
  · subst hzero
    exact ⟨[], a :: rest, rfl, rfl, .between rfl⟩
  · have hlast : [a] = [] ++ [a] := rfl
    refine ⟨[a], rest, rfl, ?_, .within hlast ha (Nat.pos_of_ne_zero hzero) ?_⟩
    · simp only [Atom.totalLen, hone]
      omega
    · simpa [Atom.joinText] using hlt

/-- The place behind a widget, or the place itself between two characters. -/
theorem posCeil_spec {row : List Segment} {n : Nat} (h : (joinText row).Boundary n) :
    ∃ x y, atoms row = x ++ y ∧ posCeil row n = Atom.totalLen x ∧ Atom.Ceil n x y := by
  induction row generalizing n with
  | nil =>
    have hzero : n = 0 := Nat.le_zero.1 h.le
    exact ⟨[], [], rfl, rfl, .between hzero.symm⟩
  | cons s rest ih =>
    simp only [posCeil]
    rcases boundary_cons h with ⟨hlt, hs⟩ | ⟨hle, hrest⟩
    · rw [if_pos hlt]
      cases s with
      | text t =>
        obtain ⟨a, b, hab, rfl⟩ := hs
        refine ⟨a.map .char, b.map .char ++ atoms rest, ?_, by simp [isWidget],
          .between (by simp)⟩
        simp only [toText] at hab
        simp [atoms, atomsOf, hab]
      | pattern p => exact posCeil_widget (a := .pattern p) (by simp) rfl hlt (atoms rest)
      | region r => exact posCeil_widget (a := .region r) (by simp) rfl hlt (atoms rest)
    · rw [if_neg (by omega)]
      obtain ⟨x, y, hxy, hpos, hceil⟩ := ih hrest
      refine ⟨s.atomsOf ++ x, y, by simp [atoms, hxy], ?_, ?_⟩
      · rw [Atom.totalLen_append, totalLen_atomsOf, hpos]
      · have hbehind := hceil.behind s.atomsOf
        rwa [joinText_atomsOf, ← textLen, Nat.add_sub_cancel' hle] at hbehind

end Segment

namespace Document

open Segment

theorem text_of_atoms {d : Document} {x y z : List Atom} (h : atoms d.segments = x ++ y ++ z) :
    d.text = Atom.joinText x ++ Atom.joinText y ++ Atom.joinText z := by
  rw [text, ← joinText_atoms, h, Atom.joinText_append, Atom.joinText_append]

variable (d : Document) (lo hi : Nat)

/-- The range of the canonical text to which a dirty range is widened. -/
def widened : Extent :=
  Extent.widen d.text (offsetOf d.segments lo) (offsetOf d.segments hi)

/-- The range to read again can be cut out of the document: it is the widened one, extended to whole
widgets. -/
theorem exists_cut_widened : ∃ x y z,
    Cut d.segments (d.rereadRange lo hi).1 (d.rereadRange lo hi).2 x y z
      ∧ Atom.Floor (d.widened lo hi).start x (y ++ z)
      ∧ Atom.Ceil (d.widened lo hi).stop (x ++ y) z := by
  have hcovers : Extent.Covers d.text (offsetOf d.segments lo) (offsetOf d.segments hi)
      (d.widened lo hi) := Extent.covers_widen (offsetOf_le d.segments hi)
  obtain ⟨x, r, hx, hstart, hfloor⟩ := posFloor_spec hcovers.start
  obtain ⟨x', z, hx', hstop, hceil⟩ := posCeil_spec hcovers.stop
  have hle := hcovers.start_le_stop
  have hfloor_le := hfloor.le
  have hceil_le := hceil.le
  obtain ⟨y, rfl, rfl⟩ := Atom.prefix_of_byteLen_le (hx.symm.trans hx') (by omega)
  exact ⟨x, y, z, ⟨hx', hstart.symm, hstop.symm⟩, hfloor, hceil⟩

/-- The range to read again takes in the dirty range. -/
theorem exists_cut_rereadRange : ∃ x y z,
    Cut d.segments (d.rereadRange lo hi).1 (d.rereadRange lo hi).2 x y z
      ∧ Text.byteLen (Atom.joinText x) ≤ offsetOf d.segments lo
      ∧ offsetOf d.segments hi ≤ Text.byteLen (Atom.joinText (x ++ y)) := by
  have hcovers : Extent.Covers d.text (offsetOf d.segments lo) (offsetOf d.segments hi)
      (d.widened lo hi) := Extent.covers_widen (offsetOf_le d.segments hi)
  obtain ⟨x, y, z, hcut, hfloor, hceil⟩ := exists_cut_widened d lo hi
  exact ⟨x, y, z, hcut, Nat.le_trans hfloor.le hcovers.start_le,
    Nat.le_trans hcovers.le_stop hceil.le⟩

variable {d lo hi}

/-- What lies within the dirty range lies within the range to read again. -/
theorem exists_cut_around {p q : Nat} {u v w : List Atom} (hcut : Cut d.segments p q u v w)
    (hlo : lo ≤ p) (hhi : q ≤ hi) : ∃ x a c z, u = x ++ a ∧ w = c ++ z
      ∧ Cut d.segments (d.rereadRange lo hi).1 (d.rereadRange lo hi).2 x (a ++ v ++ c) z := by
  obtain ⟨x, y, z, hreread, hx, hxy⟩ := exists_cut_rereadRange d lo hi
  have hstart := hcut.offsetOf_start
  have hstop : offsetOf d.segments q = Text.byteLen (Atom.joinText (u ++ v)) := by
    rw [hcut.offsetOf_stop, Atom.joinText_append, Text.byteLen_append]
  have hfirst := offsetOf_mono d.segments hlo
  have hlast := offsetOf_mono d.segments hhi
  have heq : x ++ y ++ z = u ++ v ++ w := hreread.atoms_eq.symm.trans hcut.atoms_eq
  obtain ⟨a, rfl, -⟩ := Atom.prefix_of_byteLen_le (by simpa only [List.append_assoc] using heq)
    (Nat.le_trans hx (hstart ▸ hfirst))
  obtain ⟨c, hy, rfl⟩ := Atom.prefix_of_byteLen_le heq.symm (Nat.le_trans (hstop ▸ hlast) hxy)
  obtain rfl : y = a ++ v ++ c := by
    simpa only [List.append_assoc, List.append_cancel_left_eq] using hy
  exact ⟨x, a, c, z, rfl, rfl, hreread⟩

end Document

end ImageScript
