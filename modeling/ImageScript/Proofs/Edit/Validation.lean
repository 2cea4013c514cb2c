import ImageScript.Proofs.Document.FlatSequence
import ImageScript.Proofs.Edit.Inverse

/-!
# What validity promises

A mutation is checked against a document before it is applied or inverted. What is not valid is
refused by both with the reason the check gave, and whatever is valid has an inverse. An insertion
alone is valid at positions where it cannot be applied: the check compares the position with the
length of the document and does not see that it falls within a character.

Main statements: `Mutation.validate_foretells`.
-/

namespace ImageScript

open Segment

namespace Document

variable {d : Document} {pos lo hi : Nat}

theorem insertText_within {s : Text} (hs : s ≠ []) (hpos : ¬ d.IsPosition pos) :
    d.insertText pos s = .error (d.invalid pos) := by
  cases hsplice : d.splice? pos pos [.text s] with
  | none =>
    unfold insertText
    rw [if_neg hs, hsplice]
  | some p => exact absurd (exists_cut_point_iff.1 (cut_of_splice?_self hsplice)) hpos

theorem insertSegments_within {inserted : List Segment} (hs : inserted ≠ [])
    (hpos : ¬ d.IsPosition pos) :
    d.insertSegments pos inserted = .error (d.invalid pos) := by
  cases hsplice : d.splice? pos pos inserted with
  | none =>
    unfold insertSegments
    rw [if_neg hs, hsplice]
  | some p => exact absurd (exists_cut_point_iff.1 (cut_of_splice?_self hsplice)) hpos

/-- What can be copied can be removed. -/
theorem exists_removeRange_of_segmentsIn {parts : List Segment}
    (h : d.segmentsIn lo hi = .ok parts) : ∃ p, d.removeRange lo hi = .ok p := by
  obtain ⟨x, z, hcut⟩ := cut_of_segmentsIn h
  obtain ⟨removed, hsplice, -⟩ := splice?_of_cut hcut []
  have hrange : d.rangeError? lo hi = none := by
    cases hrange : d.rangeError? lo hi with
    | none => rfl
    | some e =>
      unfold segmentsIn at h
      rw [hrange] at h
      cases h
  unfold removeRange
  rw [hrange, h, hsplice]
  dsimp only
  split
  · exact ⟨_, rfl⟩
  · exact ⟨_, rfl⟩

end Document

namespace Mutation

variable {m : Mutation} {d : Document}

/-- Whether a mutation puts anything in at a position. -/
def InsertsAt : Mutation → Nat → Prop
  | insertText p s, pos => p = pos ∧ s ≠ []
  | insertSegments p inserted, pos => p = pos ∧ inserted ≠ []
  | _, _ => False

/-- What the validity of a mutation says about applying and inverting it. -/
structure Foretells (m : Mutation) (d : Document) : Prop where
  invertible_iff : (∃ inverse, m.inverse d = .ok inverse) ↔ m.validate d = .ok ()
  applicable_iff : (∃ d', m.apply d = .ok d') ↔
    m.validate d = .ok () ∧ ∀ pos, m.InsertsAt pos → d.IsPosition pos
  /-- What is not valid is refused for the same reason. -/
  refused : ∀ e, m.validate d = .error e → m.apply d = .error e ∧ m.inverse d = .error e
  /-- What is valid and refused nevertheless is an insertion within a character. -/
  within : ∀ pos, m.validate d = .ok () → m.InsertsAt pos → ¬ d.IsPosition pos →
    m.apply d = .error (d.invalid pos)

theorem exists_inverse_of_validate (h : m.validate d = .ok ()) :
    ∃ inverse, m.inverse d = .ok inverse := by
  unfold inverse
  rw [h]
  cases m with
  | insertText pos s => exact ⟨_, rfl⟩
  | insertSegments pos inserted => exact ⟨_, rfl⟩
  | removeRange lo hi =>
    obtain ⟨parts, hparts, -⟩ := ok_of_map h
    exact ⟨.insertSegments lo parts, by simp only [hparts]; rfl⟩
  | updatePattern id q =>
    obtain ⟨p, hp, -⟩ := ok_of_map h
    exact ⟨.updatePattern id p, by simp only [hp]; rfl⟩
  | replacePattern id q =>
    obtain ⟨p, hp, -⟩ := ok_of_map h
    exact ⟨.replacePattern q.id p, by simp only [hp]; rfl⟩
  | updateRegion id q =>
    obtain ⟨r, hr, -⟩ := ok_of_map h
    exact ⟨.updateRegion id r, by simp only [hr]; rfl⟩

/-- A valid mutation can be applied unless it inserts within a character. -/
theorem exists_apply_of_validate (h : m.validate d = .ok ())
    (hpos : ∀ pos, m.InsertsAt pos → d.IsPosition pos) : ∃ d', m.apply d = .ok d' := by
  unfold apply
  rw [h]
  cases m with
  | insertText pos s =>
    by_cases hs : s = []
    · exact ⟨d, by rw [hs]; rfl⟩
    · obtain ⟨x, z, hcut⟩ := Document.exists_cut_point_iff.2 (hpos pos ⟨rfl, hs⟩)
      obtain ⟨d', hd', -⟩ := Document.insertText_of_cut hcut hs
      exact ⟨d', hd'⟩
  | insertSegments pos inserted =>
    by_cases hs : inserted = []
    · exact ⟨d, by rw [hs]; rfl⟩
    · obtain ⟨x, z, hcut⟩ := Document.exists_cut_point_iff.2 (hpos pos ⟨rfl, hs⟩)
      obtain ⟨d', hd', -⟩ := Document.insertSegments_of_cut hcut hs
      exact ⟨d', hd'⟩
  | removeRange lo hi =>
    obtain ⟨parts, hparts, -⟩ := ok_of_map h
    obtain ⟨p, hp⟩ := Document.exists_removeRange_of_segmentsIn hparts
    exact ⟨p.2, by simp only [hp]; rfl⟩
  | updatePattern id q =>
    obtain ⟨p, hp, -⟩ := ok_of_map h
    simp only [Document.updatePattern, hp]
    exact ⟨_, rfl⟩
  | replacePattern id q =>
    obtain ⟨p, hp, -⟩ := ok_of_map h
    simp only [Document.replacePattern, hp]
    exact ⟨_, rfl⟩
  | updateRegion id q =>
    obtain ⟨r, hr, -⟩ := ok_of_map h
    simp only [Document.updateRegion, hr]
    exact ⟨_, rfl⟩

theorem apply_within {pos : Nat} (h : m.validate d = .ok ()) (hm : m.InsertsAt pos)
    (hpos : ¬ d.IsPosition pos) : m.apply d = .error (d.invalid pos) := by
  unfold apply
  rw [h]
  cases m with
  | insertText p s =>
    obtain ⟨rfl, hs⟩ := hm
    exact Document.insertText_within hs hpos
  | insertSegments p inserted =>
    obtain ⟨rfl, hs⟩ := hm
    exact Document.insertSegments_within hs hpos
  | removeRange lo hi => exact hm.elim
  | updatePattern id q => exact hm.elim
  | replacePattern id q => exact hm.elim
  | updateRegion id q => exact hm.elim

/-- Validity says exactly which mutations have an inverse, and which can be applied but for the
insertions within a character. -/
theorem validate_foretells (m : Mutation) (d : Document) : m.Foretells d := by
  refine ⟨⟨?_, exists_inverse_of_validate⟩, ⟨?_, ?_⟩, fun e => refused_of_validate,
    fun pos => apply_within⟩
  · rintro ⟨inverse, hinverse⟩
    obtain ⟨_, hvalid, -⟩ := ok_of_bind hinverse
    exact hvalid
  · rintro ⟨d', ha⟩
    obtain ⟨_, hvalid, -⟩ := ok_of_bind ha
    refine ⟨hvalid, ?_⟩
    intro pos hm
    by_contra hpos
    rw [apply_within hvalid hm hpos] at ha
    cases ha
  · rintro ⟨hvalid, hpos⟩
    exact exists_apply_of_validate hvalid hpos

/-- The middle of a character is valid and has an inverse, and nothing can be inserted there. -/
example :
    let d := Document.ofSegments "/w/s.py".toList [.text ['é']]
    let m := insertText 1 ['x']
    m.validate d = .ok () ∧ m.inverse d = .ok (removeRange 1 2)
      ∧ m.apply d = .error (.invalidPosition 1 2) := by
  decide

end Mutation

end ImageScript
