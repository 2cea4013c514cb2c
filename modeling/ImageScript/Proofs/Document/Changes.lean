import ImageScript.Proofs.Document.Rereading

/-!
# What text edits note

Text edits of a clean document note one range of positions: outside of it the document is as it was.
They also leave a sound document.

Main statements: `TextEdit.keeps_applyAll`, `Pending.applyAll`.
-/

namespace ImageScript

/-- A text edit of a document. -/
inductive TextEdit where
  | insert (pos : Nat) (s : Text)
  | remove (lo hi : Nat)
  | replace (lo hi : Nat) (s : Text)
deriving DecidableEq, Repr

namespace TextEdit

/-- Makes an edit. An edit that is refused leaves the document as it is. -/
def apply (d : Document) : TextEdit → Document
  | insert pos s => (d.insertText pos s).toOption.getD d
  | remove lo hi => ((d.removeRange lo hi).toOption.map Prod.snd).getD d
  | replace lo hi s => ((d.replaceRange lo hi s).toOption.map Prod.snd).getD d

/-- Makes edits one after another. -/
def applyAll (es : List TextEdit) (d : Document) : Document := es.foldl apply d

end TextEdit

namespace Freshness

/-- The dirty range behind the replacement of the positions `p` to `q` by `n` positions. -/
def replaced (p q n : Nat) : Freshness → Freshness
  | clean => dirty p (p + n)
  | dirty lo hi => dirty (min lo p) (max hi q - (q - p) + n)

theorem touch_shiftInsert (f : Freshness) (pos n : Nat) :
    (f.shiftInsert pos n).touch pos (pos + n) = f.replaced pos pos n := by
  cases f with
  | clean => rfl
  | dirty lo hi =>
    simp only [shiftInsert, touch, replaced, dirty.injEq]
    constructor
    · split <;> omega
    · split <;> omega

theorem touch_shiftRemove (f : Freshness) {p q : Nat} (hle : p ≤ q) :
    (f.shiftRemove p q).touch p p = f.replaced p q 0 := by
  cases f with
  | clean => rfl
  | dirty lo hi =>
    simp only [shiftRemove, shiftBack, touch, replaced, dirty.injEq]
    constructor
    · split
      · omega
      · split <;> omega
    · split
      · omega
      · split <;> omega

end Freshness

namespace Atom

/-- Of two beginnings of a row the shorter one is a beginning of both. -/
theorem exists_common_prefix {u r x s : List Atom} (h : u ++ r = x ++ s) :
    ∃ c u' x', u = c ++ u' ∧ x = c ++ x' ∧ totalLen c = min (totalLen u) (totalLen x) := by
  rcases List.append_eq_append_iff.1 h with ⟨m, rfl, -⟩ | ⟨m, rfl, -⟩
  · refine ⟨u, [], m, by simp, rfl, ?_⟩
    rw [totalLen_append]
    omega
  · refine ⟨x, m, [], rfl, by simp, ?_⟩
    rw [totalLen_append]
    omega

/-- Of two ends of a row the shorter one is an end of both. -/
theorem exists_common_suffix {r w s z : List Atom} (h : r ++ w = s ++ z) :
    ∃ c w' z', w = w' ++ c ∧ z = z' ++ c ∧ totalLen c = min (totalLen w) (totalLen z) := by
  rcases List.append_eq_append_iff.1 h with ⟨m, -, rfl⟩ | ⟨m, -, rfl⟩
  · refine ⟨z, m, [], rfl, by simp, ?_⟩
    rw [totalLen_append]
    omega
  · refine ⟨w, [], m, by simp, rfl, ?_⟩
    rw [totalLen_append]
    omega

end Atom

namespace Document

open Segment

variable {d e : Document} {x y y' z before : List Atom}

/-- One document is another one with the atoms `y` replaced by the atoms `y'`, and it has noted
so. -/
structure Replaced (d e : Document) (x y y' z : List Atom) : Prop where
  atoms_eq : atoms d.segments = x ++ y ++ z
  row_eq : e.segments = Atom.toRow (x ++ y' ++ z)
  plain : ∀ a ∈ y', a.id? = none
  ids_eq : e.ids = d.ids
  freshness_eq : e.freshness =
    d.freshness.replaced (Atom.totalLen x) (Atom.totalLen (x ++ y)) (Atom.totalLen y')

theorem replaced_of_insertText {pos : Nat} {s : Text} (hs : s ≠ [])
    (h : d.insertText pos s = .ok e) : ∃ x z, Replaced d e x [] (s.map .char) z := by
  unfold insertText at h
  rw [if_neg hs] at h
  split at h
  · simp at h
  · next removed row hsplice =>
    obtain rfl := Except.ok.inj h
    obtain ⟨x, z, hcut⟩ := cut_of_splice?_self hsplice
    obtain ⟨removed', hsplice', -⟩ := splice?_of_cut hcut [.text s]
    rw [hsplice, Option.some.injEq, Prod.mk.injEq] at hsplice'
    refine ⟨x, z, hcut.atoms_eq, ?_, ?_, rfl, ?_⟩
    · simpa [atoms, atomsOf] using hsplice'.2
    · intro a ha
      obtain ⟨c, -, rfl⟩ := List.mem_map.1 ha
      rfl
    · rw [hcut.start_eq, hcut.stop_eq, Atom.totalLen_map_char]
      exact Freshness.touch_shiftInsert d.freshness pos (Text.byteLen s)

theorem replaced_of_removeRange {lo hi : Nat} {removed : List Segment} (hne : lo ≠ hi)
    (h : d.removeRange lo hi = .ok (removed, e)) : ∃ x y z, Replaced d e x y [] z := by
  unfold removeRange at h
  split at h
  · simp at h
  · next herr =>
    have hle := (rangeError?_eq_none_iff.1 herr).1
    rw [if_neg hne] at h
    split at h
    · simp at h
    · simp at h
    · next parts removed' row hparts hsplice =>
      obtain ⟨-, rfl⟩ := Prod.mk.inj (Except.ok.inj h)
      obtain ⟨x, z, hcut, hrow⟩ := cut_of_splice? hle hsplice
      refine ⟨x, atoms removed', z, hcut.atoms_eq, ?_, ?_, rfl, ?_⟩
      · exact hrow
      · exact fun a ha => absurd ha List.not_mem_nil
      · rw [hcut.start_eq, hcut.stop_eq]
        exact Freshness.touch_shiftRemove d.freshness hle

theorem Replaced.sound (h : Replaced d e x y y' z) (hd : d.Sound) : e.Sound := by
  constructor
  · rw [h.row_eq]
    exact isNormal_toRow _
  · intro id hid
    rw [h.ids_eq]
    refine hd.owned id ?_
    have hplain : y'.filterMap Atom.id? = [] := List.filterMap_eq_nil_iff.2 h.plain
    rw [h.row_eq, idsOf_toRow, List.filterMap_append, List.filterMap_append, hplain,
      List.append_nil] at hid
    rw [idsOf_eq_filterMap, h.atoms_eq, List.filterMap_append, List.filterMap_append]
    rcases List.mem_append.1 hid with hid | hid
    · exact List.mem_append_left _ (List.mem_append_left _ hid)
    · exact List.mem_append_right _ hid

/-- Where a document differs from the atoms that it had when it was clean: nowhere, or only within
its dirty range. -/
inductive Changed (before : List Atom) (d : Document) : Prop where
  | nowhere (clean : d.freshness = .clean) (atoms_eq : atoms d.segments = before)
  | within {lo hi : Nat} {u v v' w : List Atom} (dirty : d.freshness = .dirty lo hi)
      (before_eq : before = u ++ v ++ w) (cut : Cut d.segments lo hi u v' w)

theorem Replaced.changed (h : Replaced d e x y y' z) (hd : Changed before d) :
    Changed before e := by
  have hrow : atoms e.segments = x ++ y' ++ z := by rw [h.row_eq, atoms_toRow]
  have hfresh := h.freshness_eq
  cases hd with
  | nowhere hclean hatoms =>
    rw [hclean] at hfresh
    refine .within hfresh (by rw [← hatoms, h.atoms_eq]) ⟨hrow, rfl, ?_⟩
    rw [Atom.totalLen_append]
  | within hdirty hbefore hcut =>
    next lo hi u v v' w =>
    rw [hdirty] at hfresh
    have heq := hcut.atoms_eq.symm.trans h.atoms_eq
    have hlen := congrArg Atom.totalLen heq
    have hstart := hcut.start_eq
    have hstop := hcut.stop_eq
    obtain ⟨c, u', x', rfl, rfl, hc⟩ := Atom.exists_common_prefix
      (by simpa only [List.append_assoc] using heq)
    obtain ⟨k, w', z', rfl, rfl, hk⟩ := Atom.exists_common_suffix heq
    have hbefore' : before = c ++ (u' ++ v ++ w') ++ k := by simp [hbefore]
    have hatoms : atoms e.segments = c ++ (x' ++ y' ++ z') ++ k := by simp [hrow]
    refine .within hfresh hbefore' ⟨hatoms, ?_, ?_⟩
    · rw [hc, hstart]
    · simp only [Atom.totalLen_append] at hlen hstart hstop hc hk ⊢
      omega

end Document

namespace TextEdit

open Document

variable {P : Document → Prop} {d : Document}

section

variable (hkeeps : ∀ {d e x y y' z}, Replaced d e x y y' z → P d → P e)
include hkeeps

theorem keeps_insertText {e : Document} {pos : Nat} {s : Text} (h : P d)
    (ho : d.insertText pos s = .ok e) : P e := by
  by_cases hs : s = []
  · unfold Document.insertText at ho
    rw [if_pos hs, Except.ok.injEq] at ho
    exact ho ▸ h
  · obtain ⟨x, z, hr⟩ := replaced_of_insertText hs ho
    exact hkeeps hr h

theorem keeps_removeRange {lo hi : Nat} {r : List Segment × Document} (h : P d)
    (ho : d.removeRange lo hi = .ok r) : P r.2 := by
  by_cases heq : lo = hi
  · unfold Document.removeRange at ho
    split at ho
    · simp at ho
    · rw [if_pos heq, Except.ok.injEq] at ho
      exact ho ▸ h
  · obtain ⟨x, y, z, hr⟩ := replaced_of_removeRange heq ho
    exact hkeeps hr h

/-- A text edit keeps what every replacement of atoms keeps. -/
theorem keeps_apply (h : P d) (t : TextEdit) : P (t.apply d) := by
  cases t with
  | insert pos s =>
    simp only [apply]
    cases ho : d.insertText pos s with
    | error e => exact h
    | ok e => exact keeps_insertText hkeeps h ho
  | remove lo hi =>
    simp only [apply]
    cases ho : d.removeRange lo hi with
    | error e => exact h
    | ok r => exact keeps_removeRange hkeeps h ho
  | replace lo hi s =>
    simp only [apply, Document.replaceRange]
    cases ho : d.removeRange lo hi with
    | error e => exact h
    | ok r =>
      have hr := keeps_removeRange hkeeps h ho
      cases ho' : r.2.insertText lo s with
      | error e => simpa [bind, Except.bind, ho', Except.toOption] using h
      | ok e =>
        simpa [bind, Except.bind, ho', pure, Except.pure, Except.toOption]
          using keeps_insertText hkeeps hr ho'

theorem keeps_applyAll (h : P d) (es : List TextEdit) : P (applyAll es d) := by
  induction es generalizing d with
  | nil => exact h
  | cons t es ih => exact ih (keeps_apply hkeeps h t)

end

end TextEdit

namespace Document

open Segment

variable {d e : Document} {x y y' z before : List Atom}

/-- A sound document that differs from a clean one at most within its dirty range. -/
structure Pending (before : List Atom) (d : Document) : Prop where
  sound : d.Sound
  changed : Changed before d

theorem Pending.replace (h : Pending before d) (hr : Replaced d e x y y' z) : Pending before e :=
  ⟨hr.sound h.sound, hr.changed h.changed⟩

theorem Pending.applyAll (h : Pending before d) (es : List TextEdit) :
    Pending before (TextEdit.applyAll es d) :=
  TextEdit.keeps_applyAll (fun hr h => h.replace hr) h es

end Document

end ImageScript
