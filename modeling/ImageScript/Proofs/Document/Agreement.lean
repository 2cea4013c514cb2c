import Mathlib.Data.List.Induction
import ImageScript.Files.Store
import ImageScript.Proofs.Document.Changes

/-!
# Agreement with a fresh parse

A document agrees with a fresh parse of its text when their segments are the same one by one in kind
and in canonical text. A group of text edits followed by reading again keeps the agreement exactly
where the change is local: what stands before and behind the range that is read again is read in the
new text as it was in the old one, and the range as by itself.

Main statements: `revise_agrees_iff`, `reviseAll_agrees_iff`.
-/

namespace ImageScript

variable {σ : Type} [FileSystem σ] (b : Bundle) (fs : σ)

/-- Whether a text with a changed part is read as the old text before and behind the part, and as by
itself within it. The new text holds the part in canonical form. -/
def LocalChange (old before part behind : Text) : Prop :=
  ∃ first middle last, reading b fs old = first ++ middle ++ last
    ∧ Glyph.join first = before ∧ Glyph.join last = behind
    ∧ reading b fs (before ++ Glyph.join (reading b fs part) ++ behind) =
      first ++ reading b fs part ++ last

/-- Whether a script is what its own canonical text is read as. -/
def ReadsBack (script : Text) : Prop :=
  reading b fs (Glyph.join (reading b fs script)) = reading b fs script

namespace Document

open Segment

/-- Whether the segments are those of a fresh parse of the text, one by one in kind and in canonical
text. -/
def Agrees (d : Document) : Prop := outline d.segments = outline (ofText d.text b fs).segments

/-- Makes a group of edits and reads again what they changed. -/
def revise (d : Document) (es : List TextEdit) : Document :=
  ((TextEdit.applyAll es d).reparse b fs).2

/-- Makes groups of edits, each followed by reading again. -/
def reviseAll (groups : List (List TextEdit)) (d : Document) : Document :=
  groups.foldl (revise b fs) d

/-- The canonical text between two positions. -/
def textBetween (d : Document) (lo hi : Nat) : Text :=
  Text.slice (offsetOf d.segments lo) (offsetOf d.segments hi) d.text

/-- Whether an edited document, whose text was `old`, differs from it by a local change. A document
without a dirty range was not changed. -/
def ChangedLocally (old : Text) (d : Document) : Prop :=
  match d.freshness with
  | .clean => True
  | .dirty lo hi =>
    let (start, stop) := d.rereadRange lo hi
    LocalChange b fs old (d.textBetween 0 start) (d.textBetween start stop)
      (d.textBetween stop d.len)

variable {d : Document}

theorem agrees_iff (h : d.Sound) : d.Agrees b fs ↔ glyphs d.segments = reading b fs d.text :=
  outline_eq_iff h.normal (Sound.ofText d.text b fs).normal

theorem text_eq_join (d : Document) : d.text = Glyph.join (glyphs d.segments) :=
  (join_glyphs d.segments).symm

theorem textBetween_eq {x y z : List Atom} (h : atoms d.segments = x ++ y ++ z) :
    d.textBetween (Atom.totalLen x) (Atom.totalLen (x ++ y)) = Atom.joinText y := by
  unfold textBetween
  rw [offsetOf_eq h, offsetOf_eq (h.trans (List.append_assoc x y z)), text_of_atoms h,
    Atom.joinText_append, Text.slice_append]

/-- The three texts into which a range divides a document. -/
theorem textBetween_of_cut {lo hi : Nat} {x y z : List Atom} (h : Cut d.segments lo hi x y z) :
    d.textBetween 0 lo = Atom.joinText x ∧ d.textBetween lo hi = Atom.joinText y
      ∧ d.textBetween hi d.len = Atom.joinText z := by
  have hatoms := h.atoms_eq
  have hfirst : atoms d.segments = [] ++ x ++ (y ++ z) := by simp [hatoms]
  have hlast : atoms d.segments = (x ++ y) ++ z ++ [] := by simp [hatoms]
  refine ⟨?_, ?_, ?_⟩
  · rw [← h.start_eq]
    exact textBetween_eq hfirst
  · rw [← h.start_eq, ← h.stop_eq]
    exact textBetween_eq hatoms
  · have hlen : d.len = Atom.totalLen (x ++ y ++ z) := by
      rw [len, ← totalLen_atoms, hatoms]
    rw [← h.stop_eq, hlen]
    exact textBetween_eq hlast

/-- A beginning and an end of a row of glyphs are determined by their texts. -/
theorem glyphs_unique {x y z : List Atom} {first middle last : List Glyph}
    (h : (x ++ y ++ z).map Atom.glyph = first ++ middle ++ last)
    (hfirst : Glyph.join first = Atom.joinText x) (hlast : Glyph.join last = Atom.joinText z) :
    first = x.map Atom.glyph ∧ last = z.map Atom.glyph := by
  obtain ⟨xy, z', heq, hxy, rfl⟩ := List.map_eq_append_iff.1 h
  obtain ⟨x', y', rfl, rfl, rfl⟩ := List.map_eq_append_iff.1 hxy
  have hx : Atom.joinText x' = Atom.joinText x := (Atom.join_map_glyph x').symm.trans hfirst
  have hz : Atom.joinText z' = Atom.joinText z := (Atom.join_map_glyph z').symm.trans hlast
  have hlen := congrArg (fun as => Text.byteLen (Atom.joinText as)) heq
  simp only [Atom.joinText_append, Text.byteLen_append, hx, hz] at hlen
  obtain ⟨hxy', rfl⟩ := Atom.append_inj_of_byteLen heq
    (by simp only [Atom.joinText_append, Text.byteLen_append, hx]; omega)
  obtain ⟨rfl, -⟩ := Atom.append_inj_of_byteLen hxy' (by rw [hx])
  exact ⟨rfl, rfl⟩

/-- A group of edits keeps the agreement exactly where it changes the text locally. -/
theorem revise_agrees_iff (h : d.Sound) (hclean : d.freshness = .clean)
    (hagrees : d.Agrees b fs) (es : List TextEdit) :
    (d.revise b fs es).Agrees b fs ↔ (TextEdit.applyAll es d).ChangedLocally b fs d.text := by
  have hpending : Pending (atoms d.segments) (TextEdit.applyAll es d) :=
    Pending.applyAll ⟨h, .nowhere hclean rfl⟩ es
  unfold revise
  generalize TextEdit.applyAll es d = e at hpending
  have hsound := hpending.sound.reparse b fs
  rw [agrees_iff b fs h] at hagrees
  rw [agrees_iff b fs hsound]
  cases hpending.changed with
  | nowhere hf hatoms =>
    have hrow : (e.reparse b fs).2 = e := by
      unfold reparse
      rw [hf]
    have hglyphs : glyphs e.segments = glyphs d.segments := congrArg (List.map Atom.glyph) hatoms
    unfold ChangedLocally
    rw [hf, hrow, text_eq_join, hglyphs, ← text_eq_join]
    exact iff_of_true hagrees trivial
  | within hf hbefore hcut =>
    next lo hi u v v' w =>
    -- what stands before and behind the range to be read again has not changed
    obtain ⟨x, a, c, z, rfl, rfl, hreread⟩ := exists_cut_around hcut (Nat.le_refl lo) (Nat.le_refl hi)
    have hold : reading b fs d.text = (x ++ (a ++ v ++ c) ++ z).map Atom.glyph := by
      rw [← hagrees, glyphs, hbefore]
      simp only [List.append_assoc]
    have hnew := glyphs_reparse b fs hpending.sound.owned hf hreread
    obtain ⟨hx, hy, hz⟩ := textBetween_of_cut hreread
    unfold ChangedLocally
    rw [hf]
    dsimp only
    rw [hx, hy, hz, text_eq_join, hnew, Glyph.join_append, Glyph.join_append,
      Atom.join_map_glyph, Atom.join_map_glyph]
    constructor
    · intro heq
      refine ⟨x.map Atom.glyph, (a ++ v ++ c).map Atom.glyph, z.map Atom.glyph, ?_, ?_, ?_, heq.symm⟩
      · rw [hold, List.map_append, List.map_append]
      · exact Atom.join_map_glyph x
      · exact Atom.join_map_glyph z
    · rintro ⟨first, middle, last, hsplit, hfirst, hlast, heq⟩
      obtain ⟨rfl, rfl⟩ := glyphs_unique (hold.symm.trans hsplit) hfirst hlast
      exact heq.symm

/-! ### Runs -/

variable (d)

theorem sound_revise (h : d.Sound) (hclean : d.freshness = .clean) (es : List TextEdit) :
    (d.revise b fs es).Sound ∧ (d.revise b fs es).freshness = .clean := by
  have hpending : Pending (atoms d.segments) (TextEdit.applyAll es d) :=
    Pending.applyAll ⟨h, .nowhere hclean rfl⟩ es
  exact ⟨hpending.sound.reparse b fs, (reread_reparse _ b fs).clean⟩

theorem sound_reviseAll (groups : List (List TextEdit)) (h : d.Sound)
    (hclean : d.freshness = .clean) :
    (d.reviseAll b fs groups).Sound ∧ (d.reviseAll b fs groups).freshness = .clean := by
  induction groups generalizing d with
  | nil => exact ⟨h, hclean⟩
  | cons es groups ih =>
    obtain ⟨hsound, hclean'⟩ := sound_revise b fs d h hclean es
    exact ih _ hsound hclean'

theorem reviseAll_append (groups : List (List TextEdit)) (es : List TextEdit) :
    d.reviseAll b fs (groups ++ [es]) = (d.reviseAll b fs groups).revise b fs es := by
  unfold reviseAll
  rw [List.foldl_append]
  rfl

/-- After every group of a run the document agrees with a fresh parse of its text exactly where the
script reads back and every group changes the text locally. -/
theorem reviseAll_agrees_iff (script : Text) (groups : List (List TextEdit)) :
    (∀ done, done <+: groups → ((ofText script b fs).reviseAll b fs done).Agrees b fs) ↔
      ReadsBack b fs script ∧ ∀ done es, done ++ [es] <+: groups →
        (TextEdit.applyAll es ((ofText script b fs).reviseAll b fs done)).ChangedLocally b fs
          ((ofText script b fs).reviseAll b fs done).text := by
  have hopened : ∀ done, ((ofText script b fs).reviseAll b fs done).Sound
      ∧ ((ofText script b fs).reviseAll b fs done).freshness = .clean :=
    fun done => sound_reviseAll b fs _ done (Sound.ofText script b fs) rfl
  have hfirst : (ofText script b fs).Agrees b fs ↔ ReadsBack b fs script := by
    rw [agrees_iff b fs (Sound.ofText script b fs), text_eq_join]
    exact eq_comm
  constructor
  · intro hall
    refine ⟨hfirst.1 (hall [] List.nil_prefix), ?_⟩
    intro done es hprefix
    obtain ⟨hsound, hclean⟩ := hopened done
    have hbefore := hall done ((List.prefix_append done [es]).trans hprefix)
    have hafter := hall (done ++ [es]) hprefix
    rw [reviseAll_append] at hafter
    exact (revise_agrees_iff b fs hsound hclean hbefore es).1 hafter
  · rintro ⟨hscript, hlocal⟩ done
    induction done using List.reverseRecOn with
    | nil => exact fun _ => hfirst.2 hscript
    | append_singleton done es ih =>
      intro hprefix
      obtain ⟨hsound, hclean⟩ := hopened done
      have hbefore := ih ((List.prefix_append done [es]).trans hprefix)
      rw [reviseAll_append]
      exact (revise_agrees_iff b fs hsound hclean hbefore es).2 (hlocal done es hprefix)

/-- Where the quotes that open a doc string are removed its lines are code, but only the first of
them is read again. -/
theorem reviseAll_agrees_iff_docString :
    let script := "\"\"\"\n\"a.png\"\n\"\"\"".toList
    let fs := Store.empty.addFile (.ofString "/w/a.png") [65]
    let b := Bundle.ofScript (.ofString "/w/s.py")
    let d := ofText script b fs
    d.Agrees b fs ∧ ¬ (d.reviseAll b fs [[.remove 0 3]]).Agrees b fs
      ∧ ReadsBack b fs script ∧ ¬ (TextEdit.applyAll [.remove 0 3] d).ChangedLocally b fs d.text := by
  intro script fs b d
  have hscript : ReadsBack b fs script := by
    unfold ReadsBack
    decide +kernel
  have hstale : ¬ (d.reviseAll b fs [[.remove 0 3]]).Agrees b fs := by
    unfold Agrees
    decide +kernel
  have hrun := reviseAll_agrees_iff b fs script [[.remove 0 3]]
  refine ⟨(agrees_iff b fs (Sound.ofText script b fs)).2 ?_, hstale, hscript, ?_⟩
  · decide +kernel
  · intro hlocal
    refine hstale (hrun.2 ⟨hscript, ?_⟩ _ (List.prefix_refl _))
    intro done es hprefix
    obtain ⟨rest, hrest⟩ := hprefix
    cases done with
    | nil =>
      obtain ⟨rfl, -⟩ : es = [.remove 0 3] ∧ rest = [] := by simpa using hrest
      exact hlocal
    | cons first done => simp at hrest

end Document

end ImageScript
