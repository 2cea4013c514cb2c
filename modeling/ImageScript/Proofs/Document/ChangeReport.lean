import ImageScript.Proofs.Document.Clipping
import ImageScript.Proofs.Document.DirtyRange
import ImageScript.Proofs.Document.Locality
import ImageScript.Proofs.Document.Sameness

/-!
# Reports of changes

When the document of a script is read again, it reports nothing where its segments stay as they are,
and otherwise the row that it removed and the row that it inserted. There is one exception. A range
to be read again may be empty and lie within a run, as where the text of the line between two line
breaks was removed. The copy of such a range is a run without characters, while nothing is read
there: so a change is reported although there is none.

Main statements: `Scripted.keeps`, `rebuilds_reparse`, `reparse_reports_change`.
-/

namespace ImageScript

namespace Document

open Segment Atom

/-! ### Rows that are built anew -/

variable {d e : Document}

namespace Kept

variable {old : List Segment} {s w : Segment}

theorem isWidget_eq (h : Kept old s w) : w.isWidget = s.isWidget := by
  cases h with
  | fresh => rfl
  | old hs hw => rw [hs, hw]

theorem ne_nil (h : Kept old s w) (hs : s ≠ .text []) : w ≠ .text [] := by
  cases h with
  | fresh => exact hs
  | old _ hw =>
    rintro rfl
    simp [isWidget] at hw

end Kept

/-- Widgets that are kept leave runs apart. -/
theorem separated_of_kept {old row row' : List Segment} (h : List.Forall₂ (Kept old) row row')
    (hrow : Separated row) : Separated row' := by
  induction h with
  | nil => exact hrow
  | cons hkept hrest ih =>
    obtain ⟨hs, hhead, hrow⟩ := separated_cons_iff.1 hrow
    refine separated_cons_iff.2 ⟨hkept.ne_nil hs, ?_, ih hrow⟩
    cases hrest with
    | nil => simp
    | cons hnext _ => simpa [hkept.isWidget_eq, hnext.isWidget_eq] using hhead

variable {σ : Type} [FileSystem σ] (b : Bundle) (fs : σ)

theorem separated_rebuild (base stop : Nat) (old : List Segment) :
    Separated (rebuild b fs d base stop old) :=
  separated_of_kept (forall₂_keepIdentity base base old _)
    (isNormal_iff_separated.1 (Synthesis.isNormal_build ..))

/-- Nothing is read where there is nothing. -/
theorem rebuild_nothing {x z : List Atom} (h : atoms d.segments = x ++ z) (old : List Segment) :
    rebuild b fs d (Text.byteLen (joinText x)) (Text.byteLen (joinText x)) old = [] := by
  have htext : d.text = joinText x ++ [] ++ joinText z := by
    rw [text, ← joinText_atoms, h, joinText_append, List.append_nil]
  have hglyphs := Synthesis.glyphs_segments b fs (joinText x) [] (joinText z) d.ids
  rw [← htext, Synthesis.reading_nil,
    ← glyphs_keepIdentity (isWidget_of_placed (Text.byteLen (joinText x)) old)
      (Text.byteLen (joinText x))] at hglyphs
  have hatoms : atoms (rebuild b fs d (Text.byteLen (joinText x)) (Text.byteLen (joinText x)) old)
      = [] := List.map_eq_nil_iff.1 hglyphs
  rw [← isNormal_iff_separated.2 (separated_rebuild b fs _ _ old), hatoms]
  rfl

/-- Every widget that stands in a rebuilt row with an id that is in use is an old one. -/
theorem mem_old_of_mem_rebuild {base stop : Nat} {old : List Segment} {s : Segment} {id : Text}
    (hs : s ∈ rebuild b fs d base stop old) (hid : s.id? = some id) (howns : d.ids.Owns id) :
    s ∈ old := by
  rcases mem_rebuild hs with hs | hs
  · exact absurd howns (Synthesis.build_not_owned b fs _ _ _ _ _ id (mem_idsOf.2 ⟨s, hs, hid⟩))
  · exact hs

/-! ### The documents of a script -/

/-- The documents that are read from a script, edited in place and read again. -/
inductive Scripted (σ : Type) [FileSystem σ] : Document → Prop where
  | ofText (s : Text) (b : Bundle) (fs : σ) : Scripted σ (.ofText s b fs)
  | edited {d : Document} (h : Scripted σ d) (t : TextEdit) : Scripted σ (t.leave d)
  | reread {d : Document} (h : Scripted σ d) (b : Bundle) (fs : σ) : Scripted σ (d.reparse b fs).2

namespace Scripted

/-- What holds of the document of a text, and is kept by every replacement of atoms and every
rereading, holds of the documents of a script. -/
theorem keeps {P : Document → Prop} (hofText : ∀ s b (fs : σ), P (.ofText s b fs))
    (hreplace : ∀ {d e x y y' z}, Replaced d e x y y' z → P d → P e)
    (hreparse : ∀ {d} b (fs : σ), P d → P (d.reparse b fs).2) (h : Scripted σ d) : P d := by
  induction h with
  | ofText s b fs => exact hofText s b fs
  | edited _ t ih =>
    rw [TextEdit.leave_eq]
    exact TextEdit.keeps_apply hreplace ih t
  | reread _ b fs ih => exact hreparse b fs ih

theorem distinct (h : Scripted σ d) : d.Distinct :=
  h.keeps Distinct.ofText (fun hr hd => hd.replace hr) fun b fs hd => hd.reparse b fs

theorem selfEqual (h : Scripted σ d) : d.SelfEqual :=
  h.keeps SelfEqual.ofText (fun hr hd => hd.replace hr) fun b fs hd => hd.reparse b fs

end Scripted

/-! ### Reports -/

/-- Whether a dirty document is read again in an empty range between two characters. -/
def RereadsWithinRun (d : Document) : Prop :=
  ∃ lo hi, d.freshness = .dirty lo hi ∧ (d.rereadRange lo hi).1 = (d.rereadRange lo hi).2
    ∧ BetweenCharacters d.flat (d.rereadRange lo hi).1

theorem rereadsWithinRun_iff {lo hi : Nat} (hf : d.freshness = .dirty lo hi) :
    d.RereadsWithinRun ↔ (d.rereadRange lo hi).1 = (d.rereadRange lo hi).2
      ∧ BetweenCharacters d.flat (d.rereadRange lo hi).1 := by
  constructor
  · rintro ⟨lo', hi', hf', h⟩
    rw [hf] at hf'
    obtain ⟨rfl, rfl⟩ := Freshness.dirty.inj hf'
    exact h
  · exact fun h => ⟨lo, hi, hf, h⟩

/-- What it comes to that a document is read again: between `x` and `z` the row `row` is built in the
place of `old`, and this is reported unless the rows are equal. -/
structure Rebuilds (d : Document) (x : List Atom) (old row : List Segment) (z : List Atom) :
    Prop where
  atoms_eq : atoms d.segments = x ++ atoms old ++ z
  copied : d.segmentsIn (totalLen x) (totalLen (x ++ atoms old)) = .ok old
  separated : Separated row
  separated_old : Separated old ↔ ¬ d.RereadsWithinRun
  within_run : d.RereadsWithinRun → old = [.text []] ∧ row = []
  kept : ∀ s ∈ row, ∀ id, s.id? = some id → d.ids.Owns id → s ∈ old
  segments_eq : (d.reparse b fs).2.segments = toRow (x ++ atoms row ++ z)
  report_eq : (d.reparse b fs).1 = if row = old then none else some ⟨totalLen x, old, row⟩
  version_eq : (d.reparse b fs).2.version = d.version + (d.reparse b fs).1.toList.length

theorem rebuilds_reparse (hd : d.Distinct) (hs : d.SelfEqual) {lo hi : Nat}
    (hf : d.freshness = .dirty lo hi) : ∃ x old row z, Rebuilds b fs d x old row z := by
  obtain ⟨x, y, z, hcut, -⟩ := exists_cut_rereadRange d lo hi
  obtain ⟨old, hold, rfl, hreparse⟩ := reparse_eq_of_cut b fs hf hcut
  have hnormal := isNormal_iff_separated.1 hd.normal
  have hatoms := hcut.atoms_eq
  -- segments are compared as the program compares them, which for these rows is equality
  have hsame : ∀ {row}, row = rebuild b fs d (Text.byteLen (joinText x))
      (Text.byteLen (joinText x) + Text.byteLen (joinText (atoms old))) old →
      (sameAll row old = true ↔ row = old) := by
    rintro row rfl
    refine ⟨rebuild_eq_of_sameAll b fs hd.owned (idsOf_subset_of_cut hcut), fun heq => ?_⟩
    rw [heq]
    exact sameAll_self fun a ha => hs a (by rw [hatoms]; simp [ha])
  generalize hrow : rebuild b fs d (Text.byteLen (joinText x))
    (Text.byteLen (joinText x) + Text.byteLen (joinText (atoms old))) old = row at hreparse
  simp only [hsame hrow.symm] at hreparse
  refine ⟨x, old, row, z, hatoms, ?_, hrow ▸ separated_rebuild b fs _ _ old, ?_, ?_, ?_, ?_, ?_, ?_⟩
  · rwa [hcut.start_eq, hcut.stop_eq]
  · rw [rereadsWithinRun_iff hf]
    exact separated_segmentsIn_iff hnormal hold
  · intro hwithin
    obtain ⟨heq, hbetween⟩ := (rereadsWithinRun_iff hf).1 hwithin
    rw [← heq] at hold
    obtain rfl := eq_run_of_betweenCharacters hnormal hold hbetween
    refine ⟨rfl, ?_⟩
    rw [← hrow]
    exact rebuild_nothing b fs (by simpa [atoms, atomsOf] using hatoms) _
  · intro s hs id hid howns
    rw [← hrow] at hs
    exact mem_old_of_mem_rebuild b fs hs hid howns
  · rw [hreparse]
    split
    · next heq =>
      rw [heq, ← hatoms]
      exact hd.normal.symm
    · rfl
  · rw [hreparse, hcut.start_eq]
    split <;> rfl
  · rw [hreparse]
    split <;> rfl

/-- What a record tells: the row that stood at its position, and the row that stands there now, with
nothing else changed. -/
structure Records (d e : Document) (r : Rebuilt) : Prop where
  removed : d.segmentsIn r.pos (r.pos + Segment.totalLen r.removed) = .ok r.removed
  replaced : ∃ x z,
    Cut d.segments r.pos (r.pos + Segment.totalLen r.removed) x (atoms r.removed) z
      ∧ Cut e.segments r.pos (r.pos + Segment.totalLen r.inserted) x (atoms r.inserted) z

/-- What a document reports when it is read again. -/
structure ReportsChange (d : Document) : Prop where
  silent_iff : (d.reparse b fs).1 = none ∧ (d.reparse b fs).2.version = d.version ↔
    (d.reparse b fs).2.segments = d.segments ∧ ¬ d.RereadsWithinRun
  /-- Within a run, nothing is replaced by nothing. -/
  within_run : d.RereadsWithinRun → (d.reparse b fs).2.segments = d.segments
    ∧ ∃ pos, (d.reparse b fs).1 = some ⟨pos, [.text []], []⟩
  /-- It does not matter whether numbers and paths are compared or the segments themselves. -/
  same_iff : sameAll (d.reparse b fs).2.segments d.segments = true ↔
    (d.reparse b fs).2.segments = d.segments
  version_eq : (d.reparse b fs).2.version = d.version + (d.reparse b fs).1.toList.length
  records : ∀ r ∈ (d.reparse b fs).1, Records d (d.reparse b fs).2 r

namespace Rebuilds

variable {b fs} {x z : List Atom} {old row : List Segment}

theorem ne_of_withinRun (h : Rebuilds b fs d x old row z) (hwithin : d.RereadsWithinRun) :
    row ≠ old := by
  obtain ⟨rfl, rfl⟩ := h.within_run hwithin
  simp

theorem report_eq_none_iff (h : Rebuilds b fs d x old row z) :
    (d.reparse b fs).1 = none ↔ row = old := by
  rw [h.report_eq]
  split
  · next heq => exact iff_of_true rfl heq
  · next hne => exact iff_of_false (by simp) hne

/-- The segments stay as they are where the rows are equal, and within runs. -/
theorem segments_eq_iff (h : Rebuilds b fs d x old row z) (hd : IsNormal d.segments) :
    (d.reparse b fs).2.segments = d.segments ↔ row = old ∨ d.RereadsWithinRun := by
  have hrows : (d.reparse b fs).2.segments = d.segments ↔ atoms row = atoms old := by
    rw [h.segments_eq, ← hd, h.atoms_eq]
    refine ⟨fun heq => ?_, fun heq => by rw [heq]⟩
    have hatoms := congrArg atoms heq
    rw [atoms_toRow, atoms_toRow] at hatoms
    exact List.append_cancel_left (List.append_cancel_right hatoms)
  rw [hrows]
  constructor
  · intro heq
    by_cases hwithin : d.RereadsWithinRun
    · exact Or.inr hwithin
    · left
      rw [← isNormal_iff_separated.2 h.separated, heq,
        isNormal_iff_separated.2 (h.separated_old.2 hwithin)]
  · rintro (rfl | hwithin)
    · rfl
    · obtain ⟨rfl, rfl⟩ := h.within_run hwithin
      rfl

theorem silent_iff (h : Rebuilds b fs d x old row z) (hd : IsNormal d.segments) :
    (d.reparse b fs).1 = none ∧ (d.reparse b fs).2.version = d.version ↔
      (d.reparse b fs).2.segments = d.segments ∧ ¬ d.RereadsWithinRun := by
  rw [h.segments_eq_iff hd]
  constructor
  · rintro ⟨hnone, -⟩
    have heq := h.report_eq_none_iff.1 hnone
    exact ⟨Or.inl heq, fun hwithin => h.ne_of_withinRun hwithin heq⟩
  · rintro ⟨heq | hwithin, hnot⟩
    · have hnone := h.report_eq_none_iff.2 heq
      exact ⟨hnone, by rw [h.version_eq, hnone]; rfl⟩
    · exact absurd hwithin hnot

theorem records (h : Rebuilds b fs d x old row z) :
    ∀ r ∈ (d.reparse b fs).1, Records d (d.reparse b fs).2 r := by
  intro r hr
  rw [h.report_eq] at hr
  split at hr
  · cases hr
  · obtain rfl := Option.some.inj hr
    have hlen : ∀ row, totalLen (x ++ atoms row) = totalLen x + Segment.totalLen row :=
      fun row => by rw [totalLen_append, totalLen_atoms]
    refine ⟨hlen old ▸ h.copied, x, z, ⟨h.atoms_eq, rfl, hlen old⟩, ⟨?_, rfl, hlen row⟩⟩
    rw [h.segments_eq, atoms_toRow]

/-- A widget of the new document with an id from the old one was there. -/
theorem mem_of_id (h : Rebuilds b fs d x old row z) (hd : d.Sound) :
    ∀ s ∈ (d.reparse b fs).2.segments, ∀ id ∈ idsOf d.segments, s.id? = some id →
      s ∈ d.segments := by
  intro s hs id hid hsid
  have hw : s.isWidget = true := by
    cases s with
    | text t => cases hsid
    | pattern p => rfl
    | region r => rfl
  rw [h.segments_eq, mem_toRow_append hw, mem_toRow_append hw, mem_toRow_atoms hw] at hs
  rw [← hd.normal, h.atoms_eq, mem_toRow_append hw, mem_toRow_append hw, mem_toRow_atoms hw]
  rcases hs with (hs | hs) | hs
  · exact Or.inl (Or.inl hs)
  · exact Or.inl (Or.inr (h.kept s hs id hsid (hd.owned id hid)))
  · exact Or.inr hs

end Rebuilds

theorem reportsChange_of_clean (hs : d.SelfEqual) (hf : d.freshness = .clean) :
    ReportsChange b fs d := by
  have hreparse : d.reparse b fs = (none, d) := by
    unfold reparse
    rw [hf]
  have hnot : ¬ d.RereadsWithinRun := by
    rintro ⟨lo, hi, hf', -⟩
    rw [hf] at hf'
    cases hf'
  refine ⟨?_, fun h => absurd h hnot, ?_, ?_, ?_⟩
  all_goals rw [hreparse]
  · exact iff_of_true ⟨rfl, rfl⟩ ⟨rfl, hnot⟩
  · exact iff_of_true (sameAll_self hs) rfl
  · rfl
  · exact fun r hr => by cases hr

/-- Reading the document of a script again reports a change exactly when there is one, but for the
empty ranges within a run: for these it always reports one, and there is none. -/
theorem reparse_reports_change (h : Scripted σ d) : ReportsChange b fs d := by
  have hd := h.distinct
  have hs := h.selfEqual
  cases hf : d.freshness with
  | clean => exact reportsChange_of_clean b fs hs hf
  | dirty lo hi =>
    obtain ⟨x, old, row, z, hr⟩ := rebuilds_reparse b fs hd hs hf
    refine ⟨hr.silent_iff hd.normal, fun hwithin => ?_, ⟨fun hsame => ?_, fun heq => ?_⟩,
      hr.version_eq, hr.records⟩
    · refine ⟨(hr.segments_eq_iff hd.normal).2 (Or.inr hwithin), totalLen x, ?_⟩
      rw [hr.report_eq, if_neg (hr.ne_of_withinRun hwithin)]
      obtain ⟨rfl, rfl⟩ := hr.within_run hwithin
      rfl
    · exact eq_of_sameAll hd.nodup (fun t ht => ht) (hr.mem_of_id hd.toSound) hsame
    · rw [heq]
      exact sameAll_self hs

/-- The text of the line between two line breaks is removed, and then the document is read again:
nothing changes by that, and yet a change is reported. -/
theorem reparse_reports_change_emptyLine :
    let fs := Store.empty.addFile (.ofString "/w/a.png") [65]
    let b := Bundle.ofScript (.ofString "/w/s.py")
    let d := TextEdit.leave (ofText "a\nx\nb".toList b fs) (.remove 2 3)
    Scripted Store d ∧ d.RereadsWithinRun ∧ (d.reparse b fs).2.segments = d.segments
      ∧ (d.reparse b fs).2.version = d.version + 1 ∧ ReportsChange b fs d := by
  intro fs b d
  have hd : Scripted Store d := .edited (.ofText _ b fs) _
  have hrun : d.freshness = .dirty 2 2 ∧ d.rereadRange 2 2 = (2, 2)
      ∧ d.segments = [.text "a\n\nb".toList] := by decide +kernel
  obtain ⟨hf, hrange, hrow⟩ := hrun
  have hwithin : d.RereadsWithinRun := by
    refine ⟨2, 2, hf, ?_⟩
    rw [hrange, flat, hrow]
    exact ⟨rfl, [.char 'a'], '\n', '\n', [.char 'b'], rfl, rfl⟩
  have hreports : ReportsChange b fs d := reparse_reports_change b fs hd
  obtain ⟨hsegments, pos, hreport⟩ := hreports.within_run hwithin
  refine ⟨hd, hwithin, hsegments, ?_, hreports⟩
  rw [hreports.version_eq, hreport]
  rfl

end Document

end ImageScript
