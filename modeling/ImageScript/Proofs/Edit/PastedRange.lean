import ImageScript.Proofs.Document.Agreement
import ImageScript.Proofs.Document.FlatSequence
import ImageScript.Proofs.Edit.WidgetIds

/-!
# The range of a paste

A paste returns the range from its position on over as many positions as the document has grown by.
The lines of the pasted text are read again as a whole, and what stands before or behind the pasted
text may take more positions or fewer for that, so the range need not even lie in the document. It
has the old text before and behind it exactly where the lines are read as a row that begins with the
text before the position, on as many positions, and that ends with the text behind it.

Main statement: `Clipboard.paste_encloses_iff`.
-/

namespace ImageScript

namespace Glyph

/-- The number of positions a glyph takes. -/
def len : Glyph → Nat
  | char c => c.utf8Size
  | pattern _ | region _ => 1

def totalLen : List Glyph → Nat
  | [] => 0
  | g :: gs => g.len + totalLen gs

/-- Whether a row of glyphs begins with the text of a row of atoms, on as many positions, and ends
with the text of another one, and what is between takes the positions by which the row has grown. -/
def Surrounds (before behind : List Atom) (gs : List Glyph) : Prop :=
  ∃ first middle last, gs = first ++ middle ++ last
    ∧ join first = Atom.joinText before ∧ totalLen first = Atom.totalLen before
    ∧ join last = Atom.joinText behind
    ∧ totalLen middle = totalLen gs - (Atom.totalLen before + Atom.totalLen behind)

theorem len_pos (g : Glyph) : 0 < g.len := by
  cases g with
  | char c => exact Text.utf8Size_pos c
  | pattern s => exact Nat.one_pos
  | region s => exact Nat.one_pos

@[simp] theorem totalLen_append (gs hs : List Glyph) :
    totalLen (gs ++ hs) = totalLen gs + totalLen hs := by
  induction gs with
  | nil => simp [totalLen]
  | cons g gs ih => simp only [List.cons_append, totalLen, ih, Nat.add_assoc]

@[simp] theorem totalLen_map_glyph (as : List Atom) :
    totalLen (as.map Atom.glyph) = Atom.totalLen as := by
  induction as with
  | nil => rfl
  | cons a as ih =>
    simp only [List.map_cons, totalLen, Atom.totalLen, ih]
    cases a <;> rfl

theorem eq_nil_of_totalLen {gs : List Glyph} (h : totalLen gs = 0) : gs = [] := by
  cases gs with
  | nil => rfl
  | cons g gs =>
    have hpos := g.len_pos
    simp only [totalLen] at h
    omega

/-- Of two beginnings of a row the one with fewer positions is the beginning of the other. -/
theorem prefix_of_totalLen_le {as bs cs ds : List Glyph} (h : as ++ bs = cs ++ ds)
    (hle : totalLen as ≤ totalLen cs) : ∃ m, cs = as ++ m ∧ bs = m ++ ds := by
  rcases List.append_eq_append_iff.1 h with ⟨m, rfl, rfl⟩ | ⟨m, rfl, rfl⟩
  · exact ⟨m, rfl, rfl⟩
  · rw [totalLen_append] at hle
    have hm : m = [] := eq_nil_of_totalLen (by omega)
    subst hm
    exact ⟨[], by simp, by simp⟩

/-- An end of a row whose text ends with that of some last atoms takes these in. -/
theorem suffix_of_joinText {as cs ds : List Glyph} {z : List Atom} {rest : Text}
    (h : as ++ z.map Atom.glyph = cs ++ ds) (htext : join ds = rest ++ Atom.joinText z) :
    ∃ m, ds = m ++ z.map Atom.glyph ∧ as = cs ++ m := by
  rcases List.append_eq_append_iff.1 h with ⟨m, rfl, hz⟩ | ⟨m, rfl, rfl⟩
  · obtain ⟨u, v, rfl, rfl, rfl⟩ := List.map_eq_append_iff.1 hz
    have hlen := congrArg Text.byteLen htext
    rw [Atom.joinText_append] at hlen
    simp only [Text.byteLen_append] at hlen
    have hv : join (v.map Atom.glyph) = Atom.joinText v := Atom.join_map_glyph v
    rw [hv] at hlen
    have hu : Atom.joinText u = [] := by
      by_contra hne
      have hpos := Text.byteLen_pos hne
      omega
    obtain rfl := Atom.eq_nil_of_joinText hu
    exact ⟨[], by simp, by simp⟩
  · exact ⟨m, rfl, rfl⟩

variable {x a c z : List Atom} {gs : List Glyph}

/-- What stands unchanged on both sides is of no account. -/
theorem surrounds_append_iff :
    Surrounds (x ++ a) (c ++ z) (x.map Atom.glyph ++ gs ++ z.map Atom.glyph)
      ↔ Surrounds a c gs := by
  have hx : join (x.map Atom.glyph) = Atom.joinText x := Atom.join_map_glyph x
  have hz : join (z.map Atom.glyph) = Atom.joinText z := Atom.join_map_glyph z
  constructor
  · rintro ⟨first, middle, last, heq, hfirst, hlen, hlast, hgrown⟩
    have hrow : x.map Atom.glyph ++ (gs ++ z.map Atom.glyph) = first ++ (middle ++ last) := by
      simpa only [List.append_assoc] using heq
    have hle : totalLen (x.map Atom.glyph) ≤ totalLen first := by
      rw [totalLen_map_glyph, hlen, Atom.totalLen_append]
      omega
    obtain ⟨first', rfl, htail⟩ := prefix_of_totalLen_le hrow hle
    rw [← List.append_assoc] at htail
    obtain ⟨last', rfl, rfl⟩ := suffix_of_joinText htail (hlast.trans (Atom.joinText_append c z))
    rw [join_append, hx, Atom.joinText_append] at hfirst
    rw [join_append, hz, Atom.joinText_append] at hlast
    simp only [totalLen_append, totalLen_map_glyph, Atom.totalLen_append] at hlen hgrown
    refine ⟨first', middle, last', rfl, List.append_cancel_left hfirst, by omega,
      List.append_cancel_right hlast, ?_⟩
    simp only [totalLen_append]
    omega
  · rintro ⟨first, middle, last, rfl, hfirst, hlen, hlast, hgrown⟩
    refine ⟨x.map Atom.glyph ++ first, middle, last ++ z.map Atom.glyph, by simp, ?_, ?_, ?_, ?_⟩
    · rw [join_append, hx, hfirst, Atom.joinText_append]
    · rw [totalLen_append, totalLen_map_glyph, hlen, Atom.totalLen_append]
    · rw [join_append, hz, hlast, Atom.joinText_append]
    · simp only [totalLen_append, totalLen_map_glyph, Atom.totalLen_append] at hgrown ⊢
      omega

/-- Where something was only put between the two rows, they surround it. -/
theorem surrounds_between (before between behind : List Atom) :
    Surrounds before behind ((before ++ between ++ behind).map Atom.glyph) := by
  refine ⟨before.map Atom.glyph, between.map Atom.glyph, behind.map Atom.glyph, by simp,
    Atom.join_map_glyph before, totalLen_map_glyph before, Atom.join_map_glyph behind, ?_⟩
  simp only [totalLen_map_glyph, Atom.totalLen_append]
  omega

end Glyph

/-- The dirty range that results takes in the range that is noted. -/
theorem Freshness.touch_covers (f : Freshness) (p q : Nat) :
    ∃ lo hi, f.touch p q = .dirty lo hi ∧ lo ≤ p ∧ q ≤ hi := by
  cases f with
  | clean => exact ⟨p, q, rfl, Nat.le_refl _, Nat.le_refl _⟩
  | dirty lo hi => exact ⟨_, _, rfl, Nat.min_le_right .., Nat.le_max_right ..⟩

namespace Document

open Segment

/-- Whether a range of the document `e` begins at a position of the document `d`, ends at a position
too, and has the text before and behind it that stood before and behind the position. -/
structure Encloses (d : Document) (pos : Nat) (r : Nat × Nat) (e : Document) : Prop where
  position : d.IsPosition pos
  start_eq : r.1 = pos
  start : e.IsPosition r.1
  stop : e.IsPosition r.2
  before : e.textBetween 0 r.1 = d.textBetween 0 pos
  behind : e.textBetween r.2 e.len = d.textBetween pos d.len

/-- Whether a document is dirty and divides into what is to be read again and what stands before and
behind it. -/
def ToReread (d : Document) (x y z : List Atom) : Prop :=
  ∃ lo hi, d.freshness = .dirty lo hi
    ∧ Cut d.segments (d.rereadRange lo hi).1 (d.rereadRange lo hi).2 x y z

variable {d e inserted : Document} {pos : Nat} {s : Text} {before behind x y z : List Atom}

theorem encloses_iff_surrounds (hcut : Cut d.segments pos pos before [] behind) :
    d.Encloses pos (Clipboard.pastedRange pos d e) e
      ↔ Glyph.Surrounds before behind (glyphs e.segments) := by
  obtain ⟨hbefore, -, hbehind⟩ := textBetween_of_cut hcut
  have hpos := hcut.start_eq
  have hd : d.len = Atom.totalLen before + Atom.totalLen behind := by
    rw [len, ← totalLen_atoms, hcut.atoms_eq]
    simp
  have he : Glyph.totalLen (glyphs e.segments) = e.len := by
    rw [glyphs, Glyph.totalLen_map_glyph, totalLen_atoms, len]
  constructor
  · rintro ⟨-, -, hstart, hstop, htext, htext'⟩
    obtain ⟨u, v, w, hrange⟩ := exists_cut_iff.2 ⟨Nat.le_add_right .., hstart, hstop⟩
    obtain ⟨hu, -, hw⟩ := textBetween_of_cut hrange
    have hlo : Atom.totalLen u = pos := hrange.start_eq
    have hhi : Atom.totalLen (u ++ v) = pos + (e.len - d.len) := hrange.stop_eq
    rw [Atom.totalLen_append] at hhi
    refine ⟨u.map Atom.glyph, v.map Atom.glyph, w.map Atom.glyph, ?_, ?_, ?_, ?_, ?_⟩
    · rw [glyphs, hrange.atoms_eq, List.map_append, List.map_append]
    · exact (Atom.join_map_glyph u).trans (hu.symm.trans (htext.trans hbefore))
    · rw [Glyph.totalLen_map_glyph, hlo, hpos]
    · exact (Atom.join_map_glyph w).trans (hw.symm.trans (htext'.trans hbehind))
    · rw [Glyph.totalLen_map_glyph, he]
      omega
  · rintro ⟨first, middle, last, heq, hfirst, hlen, hlast, hgrown⟩
    obtain ⟨uv, w, hatoms, huv, rfl⟩ := List.map_eq_append_iff.1 heq
    obtain ⟨u, v, rfl, rfl, rfl⟩ := List.map_eq_append_iff.1 huv
    rw [Glyph.totalLen_map_glyph] at hlen hgrown
    have hrange : Cut e.segments pos (pos + (e.len - d.len)) u v w := by
      refine ⟨hatoms, hlen.trans hpos, ?_⟩
      rw [Atom.totalLen_append]
      omega
    obtain ⟨-, hstart, hstop⟩ := exists_cut_iff.1 ⟨u, v, w, hrange⟩
    obtain ⟨hu, -, hw⟩ := textBetween_of_cut hrange
    refine ⟨exists_cut_point_iff.1 ⟨before, behind, hcut⟩, rfl, hstart, hstop, ?_, ?_⟩
    · exact hu.trans ((Atom.join_map_glyph u).symm.trans (hfirst.trans hbefore.symm))
    · exact hw.trans ((Atom.join_map_glyph w).symm.trans (hlast.trans hbehind.symm))

theorem atoms_of_insertText (h : d.insertText pos s = .ok inserted)
    (hcut : Cut d.segments pos pos before [] behind) :
    atoms inserted.segments = before ++ s.map .char ++ behind := by
  have hreplaced := (replaces_insertText d pos s).leaves ([], inserted) (by rw [h]; rfl)
  exact hreplaced.trans (hcut.replaceBetween_eq _)

theorem dirty_of_insertText (hs : s ≠ []) (h : d.insertText pos s = .ok inserted) :
    ∃ lo hi, inserted.freshness = .dirty lo hi ∧ lo ≤ pos ∧ pos + Text.byteLen s ≤ hi := by
  unfold insertText at h
  rw [if_neg hs] at h
  split at h
  · simp at h
  · obtain rfl := Except.ok.inj h
    exact Freshness.touch_covers _ _ _

/-- An insertion lies within the range that is to be read again. -/
theorem exists_toReread (hs : s ≠ []) (h : d.insertText pos s = .ok inserted) :
    ∃ x a c z, Cut d.segments pos pos (x ++ a) [] (c ++ z)
      ∧ inserted.ToReread x (a ++ s.map .char ++ c) z := by
  obtain ⟨before, behind, hcut⟩ := cut_of_insertText hs h
  obtain ⟨lo, hi, hf, hlo, hhi⟩ := dirty_of_insertText hs h
  have hinsertion : Cut inserted.segments pos (pos + Text.byteLen s) before (s.map .char) behind := by
    refine ⟨atoms_of_insertText h hcut, hcut.start_eq, ?_⟩
    rw [Atom.totalLen_append, hcut.start_eq, Atom.totalLen_map_char]
  obtain ⟨x, a, c, z, rfl, rfl, hreread⟩ := exists_cut_around hinsertion hlo hhi
  exact ⟨x, a, c, z, hcut, lo, hi, hf, hreread⟩

variable {σ : Type} [FileSystem σ] (b : Bundle) (fs : σ)

/-- Where anything is rebuilt, the text to be read again is read as by itself. -/
theorem glyphs_of_rebuilt (h : d.ToReread x y z)
    (hne : (d.reparse b fs).2.segments ≠ d.segments) :
    glyphs (d.reparse b fs).2.segments =
      x.map Atom.glyph ++ reading b fs (Atom.joinText y) ++ z.map Atom.glyph := by
  obtain ⟨lo, hi, hf, hcut⟩ := h
  obtain ⟨old, -, -, ⟨-, hsame⟩ | hrow⟩ := reparse_of_cut b fs hf hcut
  · exact absurd hsame hne
  · rw [hrow]
    exact glyphs_rebuild b fs hcut.atoms_eq old

theorem exists_toReread_of_rebuilt (hne : (d.reparse b fs).2.segments ≠ d.segments) :
    ∃ x y z, d.ToReread x y z := by
  cases hf : d.freshness with
  | clean =>
    unfold reparse at hne
    rw [hf] at hne
    exact absurd rfl hne
  | dirty lo hi =>
    obtain ⟨x, y, z, hcut, -⟩ := exists_cut_rereadRange d lo hi
    exact ⟨x, y, z, lo, hi, hf, hcut⟩

/-- What a paste of the text `s` leaves: the document `inserted`, read again, and a range. Where
nothing is rebuilt the range encloses the content; otherwise it does exactly where the new row is
that of the document before, up to the position and from it on, with something between. For the row
it is enough to look at the lines that are read again. -/
structure Pasted (d : Document) (pos : Nat) (s : Text) (inserted e : Document) (r : Nat × Nat) :
    Prop where
  inserted_eq : d.insertText pos s = .ok inserted
  reread_eq : e = (inserted.reparse b fs).2
  start_eq : r.1 = pos
  stop_le_iff : pos ≤ d.len → (r.2 ≤ e.len ↔ pos ≤ e.len)
  encloses_iff : d.Encloses pos r e ↔ ∃ before behind, Cut d.segments pos pos before [] behind
    ∧ (e.segments = inserted.segments ∨ ∃ x y z, inserted.ToReread x y z
      ∧ Glyph.Surrounds before behind
          (x.map Atom.glyph ++ reading b fs (Atom.joinText y) ++ z.map Atom.glyph))
  encloses_iff_lines : s ≠ [] → ∃ x a c z, Cut d.segments pos pos (x ++ a) [] (c ++ z)
    ∧ inserted.ToReread x (a ++ s.map .char ++ c) z
    ∧ (d.Encloses pos r e ↔ e.segments = inserted.segments
        ∨ Glyph.Surrounds a c (reading b fs (Atom.joinText a ++ s ++ Atom.joinText c)))

theorem encloses_of_same (h : d.insertText pos s = .ok inserted)
    (hcut : Cut d.segments pos pos before [] behind) (hsame : e.segments = inserted.segments) :
    d.Encloses pos (Clipboard.pastedRange pos d e) e := by
  rw [encloses_iff_surrounds hcut, hsame, glyphs, atoms_of_insertText h hcut]
  exact Glyph.surrounds_between before (s.map .char) behind

theorem pasted_of_insertText (h : d.insertText pos s = .ok inserted) :
    d.Pasted b fs pos s inserted (inserted.reparse b fs).2
      (Clipboard.pastedRange pos d (inserted.reparse b fs).2) := by
  refine ⟨h, rfl, rfl, ?_, ?_, ?_⟩
  · intro hpos
    dsimp only [Clipboard.pastedRange]
    omega
  · constructor
    · intro hencloses
      obtain ⟨before, behind, hcut⟩ := exists_cut_point_iff.2 hencloses.position
      refine ⟨before, behind, hcut, ?_⟩
      by_cases hsame : (inserted.reparse b fs).2.segments = inserted.segments
      · exact Or.inl hsame
      · obtain ⟨x, y, z, hreread⟩ := exists_toReread_of_rebuilt b fs hsame
        rw [encloses_iff_surrounds hcut, glyphs_of_rebuilt b fs hreread hsame] at hencloses
        exact Or.inr ⟨x, y, z, hreread, hencloses⟩
    · rintro ⟨before, behind, hcut, hrow⟩
      by_cases hsame : (inserted.reparse b fs).2.segments = inserted.segments
      · exact encloses_of_same h hcut hsame
      · obtain ⟨x, y, z, hreread, hsurrounds⟩ := hrow.resolve_left hsame
        rwa [encloses_iff_surrounds hcut, glyphs_of_rebuilt b fs hreread hsame]
  · intro hs
    obtain ⟨x, a, c, z, hcut, hreread⟩ := exists_toReread hs h
    refine ⟨x, a, c, z, hcut, hreread, ?_⟩
    by_cases hsame : (inserted.reparse b fs).2.segments = inserted.segments
    · exact iff_of_true (encloses_of_same h hcut hsame) (Or.inl hsame)
    · rw [encloses_iff_surrounds hcut, glyphs_of_rebuilt b fs hreread hsame,
        Glyph.surrounds_append_iff, or_iff_right hsame]
      simp only [Atom.joinText_append, Atom.joinText_map_char]

variable {b fs} in
/-- In a document that has become shorter than the position, no range begins there. -/
theorem Pasted.not_encloses {r : Nat × Nat} (h : d.Pasted b fs pos s inserted e r)
    (hpos : pos ≤ d.len) (hlt : e.len < pos) : ¬ d.Encloses pos r e := by
  intro hencloses
  have hle := (h.stop_le_iff hpos).1 hencloses.stop.1
  omega

end Document

/-! ### Both ways to paste -/

variable {σ : Type} [FileSystem σ] {b : Bundle} {fs fs' : σ}

/-- A step that inserts a text and succeeds leaves the document with the text, read again. -/
theorem Draft.document_of_edit {d d' : Draft} {description s : Text} {pos : Nat}
    (h : d.edit description [.insertText pos s] b fs = (d', none)) :
    ∃ inserted, d.document.insertText pos s = .ok inserted
      ∧ d'.document = (inserted.reparse b fs).2 := by
  unfold Draft.edit at h
  split at h
  · next made hmade =>
    obtain ⟨rfl, -⟩ := Prod.mk.inj h
    rw [Draft.applyAll] at hmade
    split at hmade
    · next applied happlied =>
      obtain ⟨rfl, -⟩ := Prod.mk.inj hmade
      obtain ⟨-, -, hinserted, -⟩ := Draft.of_apply happlied
      exact ⟨applied.document, Mutation.insertText_of_apply hinserted, rfl⟩
    · simp at hmade
  · dsimp only at h
    split at h <;> simp at h

namespace Session

variable {desk desk' : Desk σ}

theorem files_of_edit {description : String} {ms : List Mutation}
    (h : edit description ms desk = .ok () desk') : desk'.files = desk.files := by
  unfold edit at h
  dsimp only at h
  split at h
  · obtain ⟨-, rfl⟩ := EStateM.Result.ok.inj h
    rfl
  · simp at h

theorem pasted_of_paste {pos : Nat} {payload : ClipboardPayload} {r : Nat × Nat}
    (h : paste pos payload desk = .ok r desk') : ∃ p inserted,
      Clipboard.prepare payload desk.session.bundle desk.files = .ok p desk'.files
      ∧ desk.session.document.Pasted desk.session.bundle desk'.files pos p.text inserted
          desk'.session.document r := by
  have hends := paste_ends pos payload desk
  rw [h] at hends
  cases hends with
  | @made p files _ prepared edited =>
    obtain ⟨inserted, hinserted, hdocument⟩ := Draft.document_of_edit (draft_of_edit edited)
    have hfiles := files_of_edit edited
    dsimp only at hinserted hdocument hfiles
    refine ⟨p, inserted, by rw [hfiles, prepared], ?_⟩
    have hpasted := Document.pasted_of_insertText desk.session.bundle files hinserted
    rw [← hdocument] at hpasted
    rw [hfiles]
    exact hpasted

end Session

namespace Clipboard

theorem pasted_of_paste {d e : Document} {pos : Nat} {payload : ClipboardPayload} {r : Nat × Nat}
    (h : paste d pos payload b fs = .ok (r, e) fs') : ∃ p inserted,
      prepare payload b fs = .ok p fs' ∧ d.Pasted b fs' pos p.text inserted e r := by
  unfold paste at h
  simp only [bind, EStateM.bind] at h
  cases hprepare : prepare payload b fs with
  | error e files => simp [hprepare] at h
  | ok p files =>
    simp only [hprepare] at h
    cases hinserted : d.insertText pos p.text with
    | error e =>
      simp [hinserted, modify, modifyGet, MonadStateOf.modifyGet, EStateM.modifyGet, EStateM.bind,
        throw, throwThe, MonadExceptOf.throw, EStateM.throw] at h
    | ok inserted =>
      simp only [hinserted] at h
      obtain ⟨hresult, rfl⟩ := EStateM.Result.ok.inj h
      obtain ⟨rfl, rfl⟩ := Prod.mk.inj hresult
      exact ⟨p, inserted, rfl, Document.pasted_of_insertText b files hinserted⟩

/-- When the range of a paste that succeeds is a range of the new document, with the old text before
and behind it: in a document by itself, and in the document of a session. -/
theorem paste_encloses_iff :
    (∀ (d e : Document) (pos : Nat) (payload : ClipboardPayload) (b : Bundle) (fs fs' : σ)
      (r : Nat × Nat), paste d pos payload b fs = .ok (r, e) fs' → ∃ p inserted,
        prepare payload b fs = .ok p fs' ∧ d.Pasted b fs' pos p.text inserted e r)
    ∧ ∀ (desk desk' : Desk σ) (pos : Nat) (payload : ClipboardPayload) (r : Nat × Nat),
      Session.paste pos payload desk = .ok r desk' → ∃ p inserted,
        prepare payload desk.session.bundle desk.files = .ok p desk'.files
        ∧ desk.session.document.Pasted desk.session.bundle desk'.files pos p.text inserted
            desk'.session.document r :=
  ⟨fun _ _ _ _ _ _ _ _ h => pasted_of_paste h, fun _ _ _ _ _ h => Session.pasted_of_paste h⟩

/-- A paste that completes the name of an image: the whole document becomes one widget, and the range
lies behind it. -/
theorem paste_encloses_iff_completed :
    let fs := (Store.empty.addFile (.ofString "/w/s.sikuli/s.py") []).addFile
      (.ofString "/w/s.sikuli/a.png") [1]
    let b := Bundle.ofScript (.ofString "/w/s.sikuli/s.py")
    let d := Document.ofText "\"a.p".toList b fs
    let payload := ClipboardPayload.plain "ng\"".toList
    (∃ e fs', paste d 4 payload b fs = .ok ((4, 4), e) fs' ∧ e.len = 1
        ∧ ¬ d.Encloses 4 (4, 4) e)
      ∧ ∃ desk' : Desk Store,
        Session.paste 4 payload ⟨⟨b, ⟨d, .new 100⟩, .default⟩, fs⟩ = .ok (4, 4) desk'
          ∧ desk'.session.document.len = 1 ∧ ¬ d.Encloses 4 (4, 4) desk'.session.document := by
  intro fs b d payload
  have hlen : 4 ≤ d.len := by decide +kernel
  constructor
  · have hresult : ((paste d 4 payload b).run' fs).map (fun x => (x.1, x.2.len))
        = some ((4, 4), 1) := by decide +kernel
    unfold EStateM.run' EStateM.run at hresult
    cases hrun : paste d 4 payload b fs with
    | error err fs' => simp [hrun] at hresult
    | ok x fs' =>
      obtain ⟨r, e⟩ := x
      simp only [hrun, Option.map_some, Option.some.injEq, Prod.mk.injEq] at hresult
      obtain ⟨rfl, hone⟩ := hresult
      obtain ⟨p, inserted, -, hpasted⟩ := paste_encloses_iff.1 d e 4 payload b fs fs' _ hrun
      exact ⟨e, fs', rfl, hone, hpasted.not_encloses hlen (by omega)⟩
  · let desk : Desk Store := ⟨⟨b, ⟨d, .new 100⟩, .default⟩, fs⟩
    have hresult : (match Session.paste 4 payload desk with
        | .ok r desk' => some (r, desk'.session.document.len)
        | .error _ _ => none) = some ((4, 4), 1) := by decide +kernel
    cases hrun : Session.paste 4 payload desk with
    | error err desk' => simp [hrun] at hresult
    | ok r desk' =>
      simp only [hrun, Option.some.injEq, Prod.mk.injEq] at hresult
      obtain ⟨rfl, hone⟩ := hresult
      obtain ⟨p, inserted, -, hpasted⟩ := paste_encloses_iff.2 desk desk' 4 payload _ hrun
      exact ⟨desk', rfl, hone, hpasted.not_encloses hlen (by omega)⟩

end Clipboard

end ImageScript
