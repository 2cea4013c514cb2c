import ImageScript.Proofs.Document.FlatSequence
import ImageScript.Proofs.Edit.SavedMark

/-!
# Taking a mutation back

The inverse of a mutation is made for the document before it. Behind the mutation it restores the row
of segments as it was, ids and attributes included, and then the mutation leads forth again. The
insertion of nothing within a character alone cannot be taken back, since nothing can be removed
there.

Main statements: `Mutation.takenBack_iff`.
-/

namespace ImageScript

open Segment

namespace Makes

variable {row row' : List Segment} {c : Change}

/-- A single change is exact, or it is blind and leaves the row. -/
theorem exact_or_blind (h : Makes row [c] row') : c.Exact row row' ∨ c.IsBlind row ∧ row' = row := by
  cases h with
  | exact first rest =>
    cases rest
    exact Or.inl first
  | blind first rest =>
    cases rest
    exact Or.inr ⟨first, rfl⟩

end Makes

namespace Mutation

variable {m inv : Mutation} {d d' : Document} {pos : Nat}

/-- Whether an inverse restores the row before a mutation, and the mutation then leads to the same
row again. -/
structure TakenBack (m inv : Mutation) (d d' : Document) : Prop where
  restored : ∃ back, inv.apply d' = .ok back ∧ back.segments = d.segments
  again : ∀ back, inv.apply d' = .ok back →
    ∃ d'', m.apply back = .ok d'' ∧ d''.segments = d'.segments

theorem takenBack_of_exact (h : (Change.mk m inv).Exact d.segments d'.segments) :
    m.TakenBack inv d d' := by
  obtain ⟨back, hback, hrow, -⟩ := h.back d' rfl
  refine ⟨⟨back, hback, hrow⟩, ?_⟩
  intro back' hback'
  obtain rfl := Except.ok.inj (hback.symm.trans hback')
  obtain ⟨d'', hagain, hrow', -⟩ := h.forth back hrow
  exact ⟨d'', hagain, hrow'⟩

/-- An insertion of nothing leaves the document, and its inverse is to remove nothing. -/
theorem of_insertsNothing (hm : m = .insertText pos [] ∨ m = .insertSegments pos [])
    (ha : m.apply d = .ok d') (hinv : m.inverse d = .ok inv) :
    d' = d ∧ inv = .removeRange pos pos ∧ pos ≤ totalLen d.segments := by
  obtain ⟨_, hvalid, hinverse⟩ := ok_of_bind hinv
  have hpos : ¬ d.len < pos := by
    intro hlong
    rcases hm with rfl | rfl <;> simp [validate, hlong] at hvalid
  refine ⟨?_, ?_, Nat.not_lt.1 hpos⟩
  · rcases hm with rfl | rfl
    · have hinsert := insertText_of_apply ha
      simpa [Document.insertText] using hinsert.symm
    · have hinsert := insertSegments_of_apply ha
      simpa [Document.insertSegments] using hinsert.symm
  · rcases hm with rfl | rfl <;> exact (Except.ok.inj hinverse).symm

/-- A mutation that succeeds is taken back by its inverse, unless it inserts nothing at a position
that lies within a character. -/
theorem takenBack_iff (hn : IsNormal d.segments) (hid : m.BringsOwnId d.segments)
    (hinv : m.inverse d = .ok inv) (ha : m.apply d = .ok d') :
    m.TakenBack inv d d'
      ↔ ∀ pos, m = .insertText pos [] ∨ m = .insertSegments pos [] → d.IsPosition pos := by
  constructor
  · intro h pos hm
    by_contra hwithin
    obtain ⟨rfl, rfl, hpos⟩ := of_insertsNothing hm ha hinv
    have huncut : ¬ ∃ x z, Cut d'.segments pos pos x [] z :=
      fun hcut => hwithin (Document.exists_cut_point_iff.1 hcut)
    obtain ⟨back, hback, -⟩ := h.restored
    rw [removeRange_uncut hpos huncut] at hback
    cases hback
  · intro h
    rcases (makes_of_apply hn hid ha hinv).exact_or_blind with hexact | ⟨hblind, -⟩
    · exact takenBack_of_exact hexact
    · obtain ⟨pos, hm, -, -, huncut⟩ := hblind
      exact absurd (Document.exists_cut_point_iff.2 (h pos hm)) huncut

/-- A removal that begins within a run and takes a widget along. -/
theorem takenBack_iff_removeRange :
    ∃ d d' inv, d = Document.ofSegments "/w/s.py".toList
        [.text "é(".toList, .pattern (.pendingCapture "p1".toList), .text ")".toList]
      ∧ d'.segments = [.text "é)".toList] ∧ (removeRange 2 4).TakenBack inv d d' := by
  let d := Document.ofSegments "/w/s.py".toList
    [.text "é(".toList, .pattern (.pendingCapture "p1".toList), .text ")".toList]
  obtain ⟨d', inv, hinv, ha, hrow⟩ : ∃ d' inv, (removeRange 2 4).inverse d = .ok inv
      ∧ (removeRange 2 4).apply d = .ok d' ∧ d'.segments = [.text "é)".toList] :=
    ⟨_, _, rfl, rfl, rfl⟩
  have hn : IsNormal d.segments := isNormal_iff_separated.2 (separated_normalize _)
  have hid : (removeRange 2 4).BringsOwnId d.segments := trivial
  refine ⟨d, d', inv, rfl, hrow, (takenBack_iff hn hid hinv ha).2 ?_⟩
  intro pos hm
  rcases hm with hm | hm <;> cases hm

end Mutation

end ImageScript
