import ImageScript.Proofs.Document.Changes
import ImageScript.Proofs.Document.FlatSequence

/-!
# The dirty range

However text edits follow one another, the dirty range covers all of them: before it and behind it
stands what stood there when the document was clean, and a document that is still clean holds what
it held. The edits are the ones in place, and a refused one may stand anywhere among them.

Main statements: `TextEdit.leave_eq`, `Document.leaveAll_covered`.
-/

namespace ImageScript

namespace Segment.Cut

variable {row : List Segment} {lo hi : Nat} {x y z : List Atom}

theorem before (h : Cut row lo hi x y z) : Cut row 0 lo [] x (y ++ z) :=
  ⟨by simpa using h.atoms_eq, rfl, h.start_eq⟩

theorem behind (h : Cut row lo hi x y z) : Cut row hi (totalLen row) (x ++ y) z [] :=
  ⟨by simpa using h.atoms_eq, h.stop_eq, by rw [← h.atoms_eq, totalLen_atoms]⟩

end Segment.Cut

namespace TextEdit

open Document

/-- Makes an edit in place and returns what it removed. -/
def run : TextEdit → EStateM EditError Document (List Segment)
  | insert pos s => do
    InPlace.insertText pos s
    return []
  | remove lo hi => InPlace.removeRange lo hi
  | replace lo hi s => InPlace.replaceRange lo hi s

/-- The document that an edit in place leaves, granted or refused. -/
def leave (d : Document) (t : TextEdit) : Document :=
  match t.run d with
  | .ok _ e => e
  | .error _ e => e

/-- The document that edits in place leave one after another. -/
def leaveAll (es : List TextEdit) (d : Document) : Document := es.foldl leave d

/-- In place a refused edit leaves the document, and a granted one the document it makes. -/
theorem leave_eq (d : Document) (t : TextEdit) : t.leave d = t.apply d := by
  cases t with
  | insert pos s =>
    simp only [leave, run, apply, bind, EStateM.bind, InPlace.insertText_eq]
    cases d.insertText pos s with
    | error err => rfl
    | ok e => rfl
  | remove lo hi =>
    simp only [leave, run, apply, InPlace.removeRange_eq]
    cases d.removeRange lo hi with
    | error err => rfl
    | ok p => rfl
  | replace lo hi s =>
    simp only [leave, run, apply, InPlace.replaceRange_eq]
    cases d.replaceRange lo hi s with
    | error err => rfl
    | ok p => rfl

theorem leaveAll_eq (es : List TextEdit) (d : Document) : leaveAll es d = applyAll es d := by
  induction es generalizing d with
  | nil => rfl
  | cons t es ih =>
    show leaveAll es (t.leave d) = applyAll es (t.apply d)
    rw [leave_eq, ih]

end TextEdit

namespace Document

open Segment TextEdit

variable {d : Document} {lo hi : Nat} {before : List Atom}

/-- What the freshness of a document tells about the flat content it had when it was clean. -/
structure Covered (before : List Atom) (d : Document) : Prop where
  clean : d.freshness = .clean → d.flat = before
  ordered : ∀ lo hi, d.freshness = .dirty lo hi → lo ≤ hi ∧ hi ≤ d.len
  positions : ∀ lo hi, d.freshness = .dirty lo hi → d.IsPosition lo ∧ d.IsPosition hi
  around : ∀ lo hi, d.freshness = .dirty lo hi → ∃ replaced,
    before = Atom.slice 0 lo d.flat ++ replaced ++ Atom.slice hi d.len d.flat

theorem Changed.covered (h : Changed before d) : Covered before d := by
  cases h with
  | nowhere hclean hatoms =>
    have hnever : ∀ lo hi, d.freshness ≠ .dirty lo hi := by
      intro lo hi hdirty
      rw [hclean] at hdirty
      exact Freshness.noConfusion hdirty
    exact ⟨fun _ => hatoms, fun lo hi h => absurd h (hnever lo hi),
      fun lo hi h => absurd h (hnever lo hi), fun lo hi h => absurd h (hnever lo hi)⟩
  | within hdirty hbefore hcut =>
    next first last u v v' w =>
    have hends : ∀ lo hi, d.freshness = .dirty lo hi → first = lo ∧ last = hi := by
      intro lo hi h
      rw [hdirty] at h
      exact Freshness.dirty.inj h
    obtain ⟨hle, hfirst, hlast⟩ := exists_cut_iff.1 ⟨u, v', w, hcut⟩
    refine ⟨fun h => ?_, fun lo hi h => ?_, fun lo hi h => ?_, fun lo hi h => ?_⟩
    · rw [hdirty] at h
      exact Freshness.noConfusion h
    all_goals obtain ⟨rfl, rfl⟩ := hends lo hi h
    · exact ⟨hle, hlast.1⟩
    · exact ⟨hfirst, hlast⟩
    · exact ⟨v, by rw [flat, len, hcut.before.slice_eq, hcut.behind.slice_eq, hbefore]⟩

/-- After any text edits of a clean document, everything that differs from it lies within the dirty
range; as long as there is none, nothing does. -/
theorem leaveAll_covered (h : d.freshness = .clean) (es : List TextEdit) :
    Covered d.flat (leaveAll es d) := by
  rw [leaveAll_eq]
  exact (keeps_applyAll (fun hr hc => hr.changed hc) (Changed.nowhere h rfl) es).covered

/-- An insertion before a widget, one that is refused inside a character, and the removal of the
widget. -/
theorem leaveAll_covered_refused :
    let row := [.text "é".toList, .region ⟨"r".toList, 1, 2, 3, 4, false⟩, .text "xyz".toList]
    let d := Document.ofSegments "/w/s.py".toList row
    let es := [.insert 2 "b".toList, .insert 1 "c".toList, .remove 3 4]
    d.freshness = .clean ∧ (leaveAll es d).freshness = .dirty 2 3
      ∧ Covered d.flat (leaveAll es d) :=
  ⟨rfl, rfl, leaveAll_covered rfl _⟩

end Document

end ImageScript
