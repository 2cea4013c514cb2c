import ImageScript.Text.Offset

/-!
# Splitting and comparing

Cutting a text at its separators, and comparisons of words that look at ASCII letters only.
-/

namespace ImageScript.Text

/-- The parts before and after the last separator. -/
def splitLast? (sep : Char) : Text → Option (Text × Text)
  | [] => none
  | c :: r =>
    match splitLast? sep r with
    | some (a, b) => some (c :: a, b)
    | none => if c = sep then some ([], r) else none

/-- The first of the parts a separator divides a text into, and the others. -/
def pieces (sep : Char) : Text → Text × List Text
  | [] => ([], [])
  | c :: r =>
    let (a, b) := pieces sep r
    if c = sep then ([], a :: b) else (c :: a, b)

/-- Parts joined by a separator; the inverse of `pieces`. -/
def joinPieces (sep : Char) (first : Text) (others : List Text) : Text :=
  first ++ others.flatMap (sep :: ·)

theorem joinPieces_pieces (sep : Char) (s : Text) :
    joinPieces sep (pieces sep s).1 (pieces sep s).2 = s := by
  induction s with
  | nil => rfl
  | cons c r ih =>
    simp only [pieces]
    split
    · next h => subst h; simpa [joinPieces] using ih
    · simpa [joinPieces] using ih

/-- No part holds the separator. -/
theorem not_mem_pieces (sep : Char) (s : Text) :
    sep ∉ (pieces sep s).1 ∧ ∀ part ∈ (pieces sep s).2, sep ∉ part := by
  induction s with
  | nil => simp [pieces]
  | cons c r ih =>
    simp only [pieces]
    split
    · refine ⟨by simp, ?_⟩
      intro part hpart
      rcases List.mem_cons.1 hpart with rfl | hpart
      · exact ih.1
      · exact ih.2 part hpart
    · next h =>
      refine ⟨?_, ih.2⟩
      intro hc
      rcases List.mem_cons.1 hc with hc | hc
      · exact h hc.symm
      · exact ih.1 hc

theorem pieces_of_not_mem {sep : Char} {s : Text} (h : sep ∉ s) : pieces sep s = (s, []) := by
  induction s with
  | nil => rfl
  | cons c r ih =>
    simp only [List.mem_cons, not_or] at h
    simp [pieces, ih h.2, Ne.symm h.1]

/-- The parts before and behind a separator are found one after the other. -/
theorem pieces_append_sep (sep : Char) (a b : Text) :
    pieces sep (a ++ sep :: b)
      = ((pieces sep a).1, (pieces sep a).2 ++ (pieces sep b).1 :: (pieces sep b).2) := by
  induction a with
  | nil => simp [pieces]
  | cons c r ih =>
    simp only [List.cons_append, pieces, ih]
    split <;> simp

/-- Parts without a separator are found again in the text they were joined to. -/
theorem pieces_joinPieces {sep : Char} {first : Text} {others : List Text} (hf : sep ∉ first)
    (ho : ∀ part ∈ others, sep ∉ part) :
    pieces sep (joinPieces sep first others) = (first, others) := by
  induction others generalizing first with
  | nil => simpa [joinPieces] using pieces_of_not_mem hf
  | cons part others ih =>
    have hpart := ho part (List.mem_cons_self ..)
    have hrest : pieces sep (joinPieces sep part others) = (part, others) :=
      ih hpart fun q hq => ho q (List.mem_cons_of_mem _ hq)
    have hjoin : joinPieces sep first (part :: others)
        = first ++ sep :: joinPieces sep part others := by simp [joinPieces]
    rw [hjoin, pieces_append_sep, pieces_of_not_mem hf, hrest]
    rfl

/-- Equality up to the case of ASCII letters. -/
def sameLetters (a b : Text) : Bool :=
  a.map Char.toLower == b.map Char.toLower

end ImageScript.Text
