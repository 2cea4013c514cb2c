import ImageScript.Proofs.Document.Outline
import ImageScript.Proofs.Script.Continuation

/-!
# Seams

Two texts meet in a seam when the literals of both together are those of each. This is so where their
tokens meet and the scan of the tokens behind does not depend on those before. At a seam a text can
be read part by part.

Main statements: `seam_of_parts`, `reading_append`.
-/

namespace ImageScript

open Recognition

/-- Whether no literal reaches over the place where two texts meet. -/
def Seam (s t : Text) : Prop :=
  recognizeAll (s ++ t) = recognizeAll s ++ (recognizeAll t).map (Match.shift (Text.byteLen s))

/-- The literals of a text with the offsets that they have behind `o` bytes. -/
theorem literals_tokens (o : Nat) (s : Text) :
    literals (Cursor.tokens ⟨o, s⟩) = (recognizeAll s).map (Match.shift o) := by
  rw [Cursor.tokens_eq_tokenize, literals_shift, recognizeAll_eq_literals]

theorem Match.eq_of_shift {k : Nat} {m m' : Match} (h : m.shift k = m'.shift k) : m = m' := by
  obtain ⟨start, stop, l⟩ := m
  obtain ⟨start', stop', l'⟩ := m'
  simp only [shift, Match.mk.injEq] at h ⊢
  exact ⟨by omega, by omega, h.2.2⟩

/-- Two texts meet in a seam where their tokens and their literals do, wherever the texts stand. -/
theorem seam_of_parts {x r : Text} (o : Nat) (hparts : Parts x r)
    (h : literals (Cursor.tokens ⟨o, x⟩ ++ Cursor.tokens ⟨o + Text.byteLen x, r⟩) =
      literals (Cursor.tokens ⟨o, x⟩) ++ literals (Cursor.tokens ⟨o + Text.byteLen x, r⟩)) :
    Seam x r := by
  rw [← hparts.tokens, literals_tokens, literals_tokens, literals_tokens] at h
  refine (List.map_inj_right fun m m' => Match.eq_of_shift (k := o)).1 ?_
  rw [h, List.map_append, List.map_map]
  congr 2
  funext m
  simp only [Function.comp_apply, Match.shift, Match.mk.injEq, and_true]
  omega

namespace Synthesis

variable {σ : Type} [FileSystem σ] (b : Bundle) (fs : σ)

/-- Behind the last literal of the first text its rest and the second text follow. -/
theorem readFrom_behind (s t : Text) {cursor : Nat} {ms : List Match}
    (hcursor : s.Boundary cursor) (hms : ∀ m ∈ ms, m.Within t) :
    readFrom b fs (s ++ t) (Text.byteLen s + Text.byteLen t) cursor
      (ms.map (Match.shift (Text.byteLen s))) =
      (Text.slice cursor (Text.byteLen s) s).map .char
        ++ readFrom b fs t (Text.byteLen t) 0 ms := by
  induction ms with
  | nil =>
    have hend : t.Boundary (Text.byteLen t) := ⟨t, [], by simp, rfl⟩
    rw [List.map_nil, readFrom, readFrom, Text.slice_across hcursor hend, List.map_append]
  | cons m ms ih =>
    have hm := hms m (List.mem_cons_self ..)
    have hrest : ∀ m' ∈ ms, m'.Within t := fun m' hm' => hms m' (List.mem_cons_of_mem _ hm')
    simp only [List.map_cons, readFrom, Match.shift]
    cases widgetGlyphs? b fs m.literal with
    | none => exact ih hrest
    | some g =>
      have htail := readFrom_middle b fs s t [] hm.stop.le hrest
      rw [List.append_nil] at htail
      simp only [htail, Text.slice_across hcursor hm.start, List.map_append, List.append_assoc]

/-- The literals of two texts, one behind the other, make the glyphs of both. -/
theorem readFrom_append (s t : Text) {cursor : Nat} {ms ms' : List Match}
    (hcursor : s.Boundary cursor) (hms : ∀ m ∈ ms, m.Within s) (hms' : ∀ m ∈ ms', m.Within t) :
    readFrom b fs (s ++ t) (Text.byteLen s + Text.byteLen t) cursor
      (ms ++ ms'.map (Match.shift (Text.byteLen s))) =
      readFrom b fs s (Text.byteLen s) cursor ms ++ readFrom b fs t (Text.byteLen t) 0 ms' := by
  induction ms generalizing cursor with
  | nil => rw [List.nil_append, readFrom_behind b fs s t hcursor hms', readFrom]
  | cons m ms ih =>
    have hm := hms m (List.mem_cons_self ..)
    have hrest : ∀ m' ∈ ms, m'.Within s := fun m' hm' => hms m' (List.mem_cons_of_mem _ hm')
    simp only [List.cons_append, readFrom]
    cases widgetGlyphs? b fs m.literal with
    | none => exact ih hcursor hrest
    | some g =>
      have hslice : Text.slice (Text.byteLen [] + cursor) (Text.byteLen [] + m.start) ([] ++ s ++ t)
          = Text.slice cursor m.start s := Text.slice_middle [] s t hm.start.le
      simp only [List.nil_append, Text.byteLen_nil, Nat.zero_add] at hslice
      simp only [ih hm.stop hrest, hslice, List.append_assoc]

end Synthesis

variable {σ : Type} [FileSystem σ] (b : Bundle) (fs : σ)

/-- At a seam a text is read part by part. -/
theorem reading_append {s t : Text} (h : Seam s t) :
    reading b fs (s ++ t) = reading b fs s ++ reading b fs t := by
  simp only [Synthesis.reading_eq_readFrom]
  rw [h, Text.byteLen_append]
  exact Synthesis.readFrom_append b fs s t (Text.Boundary.zero s)
    (fun m hm => within_of_mem_recognizeAll hm) fun m hm => within_of_mem_recognizeAll hm

end ImageScript
