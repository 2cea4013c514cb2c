import ImageScript.Proofs.Document.FlatSequence
import ImageScript.Proofs.Document.KeptWidgets
import ImageScript.Proofs.Document.Widening

/-!
# Reading again is local

The range that is read again consists of whole lines of the canonical text, extended to whole
widgets. What stands before it and behind it stays with all its attributes; between them stands what
the text of the range is read as, with old widgets in the place of some new ones with their text.

Main statements: `Document.forall₂_keepIdentity`, `Document.reparse_rereads_lines`.
-/

namespace ImageScript.Document

open Segment

/-- What may stand in the place of a new segment: the segment, or an old widget with the text of a
new one. -/
inductive Kept (old : List Segment) : Segment → Segment → Prop where
  | fresh (s : Segment) : Kept old s s
  | old {s w : Segment} (replaced : s.isWidget = true) (widget : w.isWidget = true)
      (mem : w ∈ old) (text : w.toText = s.toText) : Kept old s w

theorem forall₂_keepIdentity (base offset : Nat) (old row : List Segment) :
    List.Forall₂ (Kept old) row (keepIdentity (placedWidgets base old) offset row) := by
  induction row generalizing offset with
  | nil => exact .nil
  | cons s rest ih =>
    obtain ⟨kept, heq, hkept⟩ := keepIdentity_cons (placedWidgets base old) offset s rest
    rw [heq]
    refine .cons ?_ (ih _)
    rcases hkept with rfl | ⟨hs, hmem, htext⟩
    · exact .fresh kept
    · exact .old hs (isWidget_of_placed base old _ hmem) (placedWidgets_subset base old _ hmem) htext

variable {σ : Type} [FileSystem σ] (b : Bundle) (fs : σ)

/-- What reading a document again does: `x` stands before the range, `old` within it and `z` behind
it. In the place of `old` comes `row`, unless the two are equal as far as comparing segments tells;
then the document stays as it is. If all its ids were handed out, there is no difference between
that and putting `row` there. -/
structure RereadsLines (d : Document) (lo hi : Nat) (x : List Atom) (old row : List Segment)
    (z : List Atom) : Prop where
  cut : Cut d.segments (d.rereadRange lo hi).1 (d.rereadRange lo hi).2 x (atoms old) z
  /-- The range begins where the line does, or with the widget within which the line begins. -/
  floor : Atom.Floor (d.widened lo hi).start x (atoms old ++ z)
  ceil : Atom.Ceil (d.widened lo hi).stop (x ++ atoms old) z
  text_eq : Text.slice (d.rereadBytes lo hi).1 (d.rereadBytes lo hi).2 d.text = joinText old
  kept : List.Forall₂ (Kept old)
    (Synthesis.segments b fs d.text (d.rereadBytes lo hi).1 (d.rereadBytes lo hi).2 d.ids).1 row
  flat_eq : (d.reparse b fs).2.flat = x ++ atoms row ++ z
    ∨ sameAll row old = true ∧ (d.reparse b fs).2.flat = x ++ atoms old ++ z
  flat_eq_of_owned : d.ids.OwnsAll d.segments →
    (d.reparse b fs).2.flat = x ++ atoms row ++ z

/-- Reading a dirty document again takes in whole lines, changes nothing outside of them and leaves
the document clean. -/
theorem reparse_rereads_lines {d : Document} {lo hi : Nat} (hf : d.freshness = .dirty lo hi) :
    Extent.SelfContained d.text (offsetOf d.segments lo) (offsetOf d.segments hi)
        (d.widened lo hi)
      ∧ (∃ x old row z, RereadsLines b fs d lo hi x old row z)
      ∧ (d.reparse b fs).2.freshness = .clean := by
  refine ⟨Extent.selfContained_widen (offsetOf_le d.segments hi), ?_,
    (reread_reparse d b fs).clean⟩
  obtain ⟨x, y, z, hcut, hfloor, hceil⟩ := exists_cut_widened d lo hi
  obtain ⟨old, rfl, -, hrow⟩ := reparse_of_cut b fs hf hcut
  have hatoms := hcut.atoms_eq
  have hbytes : d.rereadBytes lo hi = (Text.byteLen (Atom.joinText x),
      Text.byteLen (Atom.joinText x) + Text.byteLen (Atom.joinText (atoms old))) := by
    rw [rereadBytes, hcut.offsetOf_start, hcut.offsetOf_stop]
  have htext : Text.slice (d.rereadBytes lo hi).1 (d.rereadBytes lo hi).2 d.text = joinText old := by
    rw [hbytes, text, ← joinText_atoms, hatoms, Atom.joinText_append, Atom.joinText_append,
      ← Text.byteLen_append, Text.slice_append, joinText_atoms]
  have hflat : sameAll (newRow b fs d lo hi old) old = true
        ∧ (d.reparse b fs).2.flat = x ++ atoms old ++ z
      ∨ (d.reparse b fs).2.flat = x ++ atoms (newRow b fs d lo hi old) ++ z := by
    rw [newRow, hbytes]
    rcases hrow with ⟨hsame, hrow⟩ | hrow
    · exact Or.inl ⟨hsame, by rw [flat, hrow, hatoms]⟩
    · exact Or.inr (by rw [flat, hrow, atoms_toRow])
  refine ⟨x, old, newRow b fs d lo hi old, z, hcut, hfloor, hceil, htext,
    forall₂_keepIdentity _ _ _ _, hflat.symm, fun howns => ?_⟩
  rcases hflat with ⟨hsame, hflat⟩ | hflat
  · have hrebuilt : newRow b fs d lo hi old = old :=
      rebuild_eq_of_sameAll b fs howns (idsOf_subset_of_cut hcut) hsame
    rw [hflat, hrebuilt]
  · exact hflat

/-- A widget becomes a comment; the one in the line before stays. -/
theorem reparse_rereads_lines_comment :
    let fs := Store.empty.addFile (.ofString "/w/a.png") [65]
    let b := Bundle.ofScript (.ofString "/w/s.py")
    let d := TextEdit.applyAll [.insert 2 "# ".toList] (ofText "\"a.png\"\n\"a.png\"\nx".toList b fs)
    d.freshness = .dirty 2 4 ∧ d.segments.map Segment.isWidget = [true, false, true, false]
      ∧ (d.reparse b fs).2.segments.map Segment.isWidget = [true, false]
      ∧ Extent.SelfContained d.text (offsetOf d.segments 2) (offsetOf d.segments 4)
        (d.widened 2 4)
      ∧ (∃ x old row z, RereadsLines b fs d 2 4 x old row z)
      ∧ (d.reparse b fs).2.freshness = .clean := by
  intro fs b d
  have hf : d.freshness = .dirty 2 4 := by decide +kernel
  exact ⟨hf, by decide +kernel, by decide +kernel, reparse_rereads_lines b fs hf⟩

end ImageScript.Document
