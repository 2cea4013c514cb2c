import ImageScript.Proofs.Document.FlatSequence
import ImageScript.Proofs.Document.Rereading

/-!
# Positions and offsets correspond

A place in a document is a position in its row of segments, or an offset in its canonical text.
Either falls within one segment of the row, and the maps between them follow from that segment. A
search in the table of the places at which the segments begin finds the same segment.

Main statements: `offsetOf_eq_search`, `posFloor_eq_search`, `posCeil_eq_search`,
`positions_correspond`.
-/

namespace ImageScript

namespace Segment

variable {size : Segment → Nat} {row before behind : List Segment} {s : Segment} {n : Nat}

theorem len_of_isWidget (h : s.isWidget = true) : s.len = 1 := by
  cases s with
  | text t => simp [isWidget] at h
  | pattern p => rfl
  | region r => rfl

/-! ### Behind other segments -/

theorem offsetOf_append (h : totalLen before ≤ n) : offsetOf (before ++ row) n
    = Text.byteLen (joinText before) + offsetOf row (n - totalLen before) := by
  induction before generalizing n with
  | nil => simp [totalLen, joinText]
  | cons s before ih =>
    simp only [totalLen] at h
    rw [List.cons_append, offsetOf, if_neg (by omega), ih (by omega), byteLen_joinText_cons,
      totalLen, Nat.sub_sub, Nat.add_assoc]

theorem posFloor_append (h : Text.byteLen (joinText before) ≤ n) : posFloor (before ++ row) n
    = totalLen before + posFloor row (n - Text.byteLen (joinText before)) := by
  induction before generalizing n with
  | nil => simp [totalLen, joinText]
  | cons s before ih =>
    rw [byteLen_joinText_cons] at h
    rw [List.cons_append, posFloor, if_neg (by omega), ih (by omega), byteLen_joinText_cons,
      totalLen, Nat.sub_sub, Nat.add_assoc]

theorem posCeil_append (h : Text.byteLen (joinText before) ≤ n) : posCeil (before ++ row) n
    = totalLen before + posCeil row (n - Text.byteLen (joinText before)) := by
  induction before generalizing n with
  | nil => simp [totalLen, joinText]
  | cons s before ih =>
    rw [byteLen_joinText_cons] at h
    rw [List.cons_append, posCeil, if_neg (by omega), ih (by omega), byteLen_joinText_cons,
      totalLen, Nat.sub_sub, Nat.add_assoc]

theorem offsetOf_of_le (h : totalLen row ≤ n) :
    offsetOf row n = Text.byteLen (joinText row) := by
  have hend : offsetOf (row ++ []) n = _ := offsetOf_append h
  rwa [List.append_nil] at hend

theorem posFloor_of_le (h : Text.byteLen (joinText row) ≤ n) : posFloor row n = totalLen row := by
  have hend : posFloor (row ++ []) n = _ := posFloor_append h
  rwa [List.append_nil] at hend

theorem posCeil_of_le (h : Text.byteLen (joinText row) ≤ n) : posCeil row n = totalLen row := by
  have hend : posCeil (row ++ []) n = _ := posCeil_append h
  rwa [List.append_nil] at hend

/-! ### The segment in which a place falls -/

/-- A row, parted at the segment in which a place falls. Positions count the segments by `len`,
offsets by `textLen`. -/
structure Around (size : Segment → Nat) (row : List Segment) (n : Nat) (before : List Segment)
    (s : Segment) (behind : List Segment) : Prop where
  row_eq : row = before ++ s :: behind
  le : (before.map size).sum ≤ n
  lt : n < (before.map size).sum + size s

@[simp] theorem sum_map_len (row : List Segment) : (row.map len).sum = totalLen row := by
  induction row with
  | nil => rfl
  | cons s rest ih => rw [List.map_cons, List.sum_cons, ih, totalLen]

@[simp] theorem sum_map_textLen (row : List Segment) :
    (row.map textLen).sum = Text.byteLen (joinText row) := by
  induction row with
  | nil => rfl
  | cons s rest ih => rw [List.map_cons, List.sum_cons, ih, byteLen_joinText_cons]

/-- A place before the end falls within a segment. -/
theorem exists_around (h : n < (row.map size).sum) :
    ∃ before s behind, Around size row n before s behind := by
  induction row generalizing n with
  | nil => simp at h
  | cons s rest ih =>
    by_cases hs : n < size s
    · exact ⟨[], s, rest, rfl, by simp, by simpa using hs⟩
    · rw [List.map_cons, List.sum_cons] at h
      obtain ⟨before, s', behind, rfl, hle, hlt⟩ := ih (n := n - size s) (by omega)
      refine ⟨s :: before, s', behind, rfl, ?_, ?_⟩
      · rw [List.map_cons, List.sum_cons]
        omega
      · rw [List.map_cons, List.sum_cons]
        omega

namespace Around

theorem totalLen_le (h : Around len row n before s behind) : totalLen before ≤ n := by
  simpa using h.le

theorem lt_totalLen (h : Around len row n before s behind) : n < totalLen before + s.len := by
  simpa using h.lt

theorem byteLen_le (h : Around textLen row n before s behind) :
    Text.byteLen (joinText before) ≤ n := by
  simpa using h.le

theorem lt_byteLen (h : Around textLen row n before s behind) :
    n < Text.byteLen (joinText before) + s.textLen := by
  simpa using h.lt

theorem offsetOf_eq (h : Around len row n before s behind) : offsetOf row n
    = Text.byteLen (joinText before) + if s.isWidget then 0 else n - totalLen before := by
  have hle := h.totalLen_le
  have hlt := h.lt_totalLen
  rw [h.row_eq, offsetOf_append hle, offsetOf, if_pos (by omega)]

theorem posFloor_eq (h : Around textLen row n before s behind) : posFloor row n
    = totalLen before + if s.isWidget then 0 else n - Text.byteLen (joinText before) := by
  have hle := h.byteLen_le
  have hlt := h.lt_byteLen
  rw [h.row_eq, posFloor_append hle, posFloor, if_pos (by omega)]

theorem posCeil_eq (h : Around textLen row n before s behind) : posCeil row n
    = totalLen before + if s.isWidget then min (n - Text.byteLen (joinText before)) 1
      else n - Text.byteLen (joinText before) := by
  have hle := h.byteLen_le
  have hlt := h.lt_byteLen
  rw [h.row_eq, posCeil_append hle, posCeil, if_pos (by omega)]

/-- A position and its offset fall in the same segment. -/
theorem to_offset (h : Around len row n before s behind) :
    Around textLen row (offsetOf row n) before s behind := by
  have hle := h.totalLen_le
  have hlt := h.lt_totalLen
  rw [h.offsetOf_eq]
  refine ⟨h.row_eq, by simp, ?_⟩
  rw [sum_map_textLen]
  split
  · next hw =>
    have hpos := Document.textLen_pos hw
    omega
  · next hw =>
    have hlen := len_of_not_isWidget hw
    omega

/-- An offset and the position to which it leads back fall in the same segment. -/
theorem to_pos (h : Around textLen row n before s behind) :
    Around len row (posFloor row n) before s behind := by
  have hle := h.byteLen_le
  have hlt := h.lt_byteLen
  rw [h.posFloor_eq]
  refine ⟨h.row_eq, by simp, ?_⟩
  rw [sum_map_len]
  split
  · next hw =>
    have hlen := len_of_isWidget hw
    omega
  · next hw =>
    have hlen := len_of_not_isWidget hw
    omega

end Around

/-! ### There and back -/

/-- The offset of a position leads back to it, also within a character. -/
theorem posFloor_offsetOf (h : n ≤ totalLen row) : posFloor row (offsetOf row n) = n := by
  rcases Nat.eq_or_lt_of_le h with rfl | hlt
  · rw [offsetOf_of_le h, posFloor_of_le (Nat.le_refl _)]
  · rw [← sum_map_len] at hlt
    obtain ⟨before, s, behind, hat⟩ := exists_around hlt
    have hle := hat.totalLen_le
    have hbound := hat.lt_totalLen
    rw [hat.to_offset.posFloor_eq, hat.offsetOf_eq]
    split
    · next hw =>
      have hlen := len_of_isWidget hw
      omega
    · omega

/-- Whether an offset lies strictly inside the text of a widget. -/
def InsideWidget (row : List Segment) (n : Nat) : Prop :=
  ∃ before w behind, row = before ++ w :: behind ∧ w.isWidget = true
    ∧ Text.byteLen (joinText before) < n
    ∧ n < Text.byteLen (joinText before) + Text.byteLen w.toText

/-- Elsewhere an offset leads to one position, and that leads to it. -/
theorem exact_of_not_insideWidget (hn : n ≤ Text.byteLen (joinText row))
    (h : ¬ InsideWidget row n) :
    posCeil row n = posFloor row n ∧ offsetOf row (posFloor row n) = n := by
  rcases Nat.eq_or_lt_of_le hn with rfl | hlt
  · rw [posFloor_of_le hn, posCeil_of_le hn, offsetOf_of_le (Nat.le_refl _)]
    exact ⟨rfl, rfl⟩
  · rw [← sum_map_textLen] at hlt
    obtain ⟨before, s, behind, hat⟩ := exists_around hlt
    have hle := hat.byteLen_le
    rw [hat.to_pos.offsetOf_eq, hat.posCeil_eq, hat.posFloor_eq]
    split
    · next hw =>
      -- the very start of the widget
      have hstart : n = Text.byteLen (joinText before) := by
        by_contra hne
        exact h ⟨before, s, behind, hat.row_eq, hw, by omega, hat.lt_byteLen⟩
      omega
    · omega

/-- Inside the text of a widget the two positions are those before and behind the widget. -/
theorem strict_of_insideWidget (h : InsideWidget row n) :
    posCeil row n = posFloor row n + 1 ∧ offsetOf row (posFloor row n) < n
      ∧ n < offsetOf row (posCeil row n) := by
  obtain ⟨before, w, behind, hrow, hw, hgt, hlt⟩ := h
  have hat : Around textLen row n before w behind :=
    ⟨hrow, by simpa using Nat.le_of_lt hgt, by simpa [textLen] using hlt⟩
  have hfloor : posFloor row n = totalLen before := by rw [hat.posFloor_eq, if_pos hw, Nat.add_zero]
  have hceil : posCeil row n = totalLen before + 1 := by
    rw [hat.posCeil_eq, if_pos hw]
    omega
  have hlen := len_of_isWidget hw
  rw [hat.to_pos.offsetOf_eq, if_pos hw, hceil, hfloor]
  refine ⟨rfl, hgt, ?_⟩
  rw [hrow, offsetOf_append (by omega), offsetOf, if_neg (by omega), textLen]
  omega

theorem not_insideWidget_offsetOf (h : n ≤ totalLen row) :
    ¬ InsideWidget row (offsetOf row n) := by
  intro hw
  obtain ⟨-, hlt, -⟩ := strict_of_insideWidget hw
  rw [posFloor_offsetOf h] at hlt
  exact absurd hlt (Nat.lt_irrefl _)

theorem posCeil_offsetOf (h : n ≤ totalLen row) : posCeil row (offsetOf row n) = n := by
  obtain ⟨hceil, -⟩ := exact_of_not_insideWidget (offsetOf_le row n) (not_insideWidget_offsetOf h)
  rw [hceil, posFloor_offsetOf h]

/-! ### The table of the segments -/

/-- A place between two segments. -/
structure Place where
  pos : Nat
  offset : Nat
deriving DecidableEq, Repr

/-- Where a segment begins, and of which kind it is. -/
structure Span extends Place where
  widget : Bool
deriving DecidableEq, Repr

/-- The table of the segments of a row that begins at a place. -/
def spansFrom (p : Place) : List Segment → List Span
  | [] => []
  | s :: rest => ⟨p, s.isWidget⟩ :: spansFrom ⟨p.pos + s.len, p.offset + s.textLen⟩ rest

def spans (row : List Segment) : List Span := spansFrom ⟨0, 0⟩ row

/-- The last segment of a table that begins at `n` or before it. -/
def last? (column : Place → Nat) (n : Nat) (table : List Span) : Option Span :=
  (table.takeWhile fun t => column t.toPlace ≤ n).getLast?

/-- The offset of a position, searched for in the table. -/
def searchOffset (row : List Segment) (pos : Nat) : Nat :=
  if totalLen row ≤ pos then Text.byteLen (joinText row)
  else
    match last? Place.pos pos (spans row) with
    | some t => if t.widget then t.offset else t.offset + (pos - t.pos)
    | none => 0

/-- The position at an offset or before its widget, searched for in the table. -/
def searchFloor (row : List Segment) (offset : Nat) : Nat :=
  if Text.byteLen (joinText row) ≤ offset then totalLen row
  else
    match last? Place.offset offset (spans row) with
    | some t => if t.widget then t.pos else t.pos + (offset - t.offset)
    | none => 0

/-- The position at an offset or behind its widget, searched for in the table. -/
def searchCeil (row : List Segment) (offset : Nat) : Nat :=
  if Text.byteLen (joinText row) ≤ offset then totalLen row
  else
    match last? Place.offset offset (spans row) with
    | some t =>
      if t.widget then if t.offset < offset then t.pos + 1 else t.pos
      else t.pos + (offset - t.offset)
    | none => 0

/-- Whether a column of the table counts the segments by a size. -/
def Counts (column : Place → Nat) (size : Segment → Nat) : Prop :=
  ∀ p s, column ⟨p.pos + len s, p.offset + textLen s⟩ = column p + size s

theorem counts_pos : Counts Place.pos len := fun _ _ => rfl

theorem counts_offset : Counts Place.offset textLen := fun _ _ => rfl

/-- The search finds the segment in which a place falls. -/
theorem last?_spansFrom {column : Place → Nat} (hcounts : Counts column size) {p : Place}
    (hle : column p + (before.map size).sum ≤ n)
    (hlt : n < column p + (before.map size).sum + size s) :
    last? column n (spansFrom p (before ++ s :: behind)) = some
      ⟨⟨p.pos + totalLen before, p.offset + Text.byteLen (joinText before)⟩, s.isWidget⟩ := by
  induction before generalizing p with
  | nil =>
    rw [List.map_nil, List.sum_nil] at hle hlt
    -- the segment behind begins too late already
    have hbehind : (spansFrom ⟨p.pos + s.len, p.offset + s.textLen⟩ behind).takeWhile
        (fun t => column t.toPlace ≤ n) = [] := by
      cases behind with
      | nil => rfl
      | cons c rest =>
        have hlate : n < column ⟨p.pos + s.len, p.offset + s.textLen⟩ := by
          rw [hcounts]
          omega
        rw [spansFrom, List.takeWhile_cons_of_neg (by simpa using hlate)]
    have hfirst : column p ≤ n := by omega
    rw [List.nil_append, spansFrom, last?, List.takeWhile_cons_of_pos (by simpa using hfirst),
      hbehind]
    rfl
  | cons b before ih =>
    rw [List.map_cons, List.sum_cons] at hle hlt
    have hfirst : column p ≤ n := by omega
    have hrest := ih (p := ⟨p.pos + b.len, p.offset + b.textLen⟩) (by rw [hcounts]; omega)
      (by rw [hcounts]; omega)
    rw [List.cons_append, spansFrom, last?, List.takeWhile_cons_of_pos (by simpa using hfirst),
      List.getLast?_cons]
    rw [last?] at hrest
    rw [hrest, byteLen_joinText_cons, totalLen, Option.getD_some, Nat.add_assoc, Nat.add_assoc]

theorem Around.last?_eq {column : Place → Nat} (hcounts : Counts column size)
    (hzero : column ⟨0, 0⟩ = 0) (h : Around size row n before s behind) :
    last? column n (spans row)
      = some ⟨⟨totalLen before, Text.byteLen (joinText before)⟩, s.isWidget⟩ := by
  have hle := h.le
  have hlt := h.lt
  rw [h.row_eq, spans, last?_spansFrom hcounts (by omega) (by omega), Nat.zero_add, Nat.zero_add]

/-- Read off the row and searched for in the table, an offset is the same. -/
theorem offsetOf_eq_search (row : List Segment) (pos : Nat) :
    offsetOf row pos = searchOffset row pos := by
  unfold searchOffset
  split
  · next hle => exact offsetOf_of_le hle
  · next hlt =>
    rw [← sum_map_len, Nat.not_le] at hlt
    obtain ⟨before, s, behind, hat⟩ := exists_around hlt
    rw [hat.last?_eq counts_pos rfl, hat.offsetOf_eq]
    dsimp only
    split <;> rfl

theorem posFloor_eq_search (row : List Segment) (offset : Nat) :
    posFloor row offset = searchFloor row offset := by
  unfold searchFloor
  split
  · next hle => exact posFloor_of_le hle
  · next hlt =>
    rw [← sum_map_textLen, Nat.not_le] at hlt
    obtain ⟨before, s, behind, hat⟩ := exists_around hlt
    rw [hat.last?_eq counts_offset rfl, hat.posFloor_eq]
    dsimp only
    split <;> rfl

theorem posCeil_eq_search (row : List Segment) (offset : Nat) :
    posCeil row offset = searchCeil row offset := by
  unfold searchCeil
  split
  · next hle => exact posCeil_of_le hle
  · next hlt =>
    rw [← sum_map_textLen, Nat.not_le] at hlt
    obtain ⟨before, s, behind, hat⟩ := exists_around hlt
    rw [hat.last?_eq counts_offset rfl, hat.posCeil_eq]
    dsimp only
    split
    · split <;> omega
    · rfl

/-- Behind a character of two bytes the offsets from 2 to 17 are those of the widget, and the
positions 2 and 3. -/
example :
    let row := [.text "é".toList, .region ⟨"r".toList, 1, 2, 3, 4, false⟩]
    (searchFloor row 7, searchCeil row 7, searchOffset row 2, searchOffset row 3)
      = (2, 3, 2, 17) := by
  decide

end Segment

namespace Document

open Segment

/-- The text between the offsets of two positions is what is written between them. -/
theorem slice?_write {d : Document} {lo hi : Nat} (hle : lo ≤ hi) (hlo : d.IsPosition lo)
    (hhi : d.IsPosition hi) : ∃ s, d.write lo hi = .ok s
      ∧ d.text.slice? (offsetOf d.segments lo) (offsetOf d.segments hi) = some s := by
  obtain ⟨x, y, z, hcut⟩ := exists_cut_iff.2 ⟨hle, hlo, hhi⟩
  obtain ⟨parts, hparts, hatoms⟩ := segmentsIn_of_cut hcut
  refine ⟨Atom.joinText y, ?_, ?_⟩
  · rw [write, hparts, ← hatoms, joinText_atoms]
    rfl
  · rw [hcut.offsetOf_start, hcut.offsetOf_stop, text_of_atoms hcut.atoms_eq, ← Text.byteLen_append]
    exact Text.slice?_append _ _ _

/-- What it means that the positions of a document and the offsets of its text correspond. -/
structure Corresponds (d : Document) : Prop where
  written : ∀ a b, a ≤ b → d.IsPosition a → d.IsPosition b →
    ∃ s, d.write a b = .ok s
      ∧ d.text.slice? (offsetOf d.segments a) (offsetOf d.segments b) = some s
  back : ∀ a, a ≤ d.len → posFloor d.segments (offsetOf d.segments a) = a
    ∧ posCeil d.segments (offsetOf d.segments a) = a
  around : ∀ o, o ≤ Text.byteLen d.text → offsetOf d.segments (posFloor d.segments o) ≤ o
    ∧ o ≤ offsetOf d.segments (posCeil d.segments o)
  adjacent : ∀ o, o ≤ Text.byteLen d.text → posFloor d.segments o ≤ posCeil d.segments o
    ∧ posCeil d.segments o ≤ posFloor d.segments o + 1
  exact : ∀ o, o ≤ Text.byteLen d.text → ¬ InsideWidget d.segments o →
    offsetOf d.segments (posFloor d.segments o) = o
      ∧ offsetOf d.segments (posCeil d.segments o) = o
  strict : ∀ o, InsideWidget d.segments o → offsetOf d.segments (posFloor d.segments o) < o
    ∧ o < offsetOf d.segments (posCeil d.segments o)

/-- Positions and offsets correspond in every document. -/
theorem positions_correspond (d : Document) : d.Corresponds where
  written _ _ hle ha hb := slice?_write hle ha hb
  back _ ha := ⟨posFloor_offsetOf ha, posCeil_offsetOf ha⟩
  around o ho := by
    by_cases hw : InsideWidget d.segments o
    · obtain ⟨-, hlt, hgt⟩ := strict_of_insideWidget hw
      exact ⟨Nat.le_of_lt hlt, Nat.le_of_lt hgt⟩
    · obtain ⟨hceil, heq⟩ := exact_of_not_insideWidget ho hw
      rw [hceil, heq]
      exact ⟨Nat.le_refl o, Nat.le_refl o⟩
  adjacent o ho := by
    by_cases hw : InsideWidget d.segments o
    · obtain ⟨hceil, -⟩ := strict_of_insideWidget hw
      omega
    · obtain ⟨hceil, -⟩ := exact_of_not_insideWidget ho hw
      omega
  exact o ho hw := by
    obtain ⟨hceil, heq⟩ := exact_of_not_insideWidget ho hw
    rw [hceil]
    exact ⟨heq, heq⟩
  strict _ hw := (strict_of_insideWidget hw).2

end Document

end ImageScript
