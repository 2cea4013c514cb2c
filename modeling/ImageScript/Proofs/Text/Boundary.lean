import ImageScript.Text.Lines

/-!
# Character boundaries

A text can be cut at its boundaries only. The offsets at which lines begin and end are boundaries,
and a slice of a part of a text is a slice of the whole.

Main statements: `Boundary.of_append`, `slice_middle`, `boundary_lineStart`, `boundary_lineStop`.
-/

namespace ImageScript

namespace Text

/-- Whether an offset falls between two characters or at an end. -/
def Boundary (s : Text) (n : Nat) : Prop := ∃ a b, s = a ++ b ∧ byteLen a = n

variable {s t : Text} {n : Nat}

theorem Boundary.zero (s : Text) : Boundary s 0 := ⟨[], s, rfl, rfl⟩

theorem Boundary.le (h : Boundary s n) : n ≤ byteLen s := by
  obtain ⟨a, b, rfl, rfl⟩ := h
  rw [byteLen_append]
  omega

theorem Boundary.cons (c : Char) (h : Boundary s n) : Boundary (c :: s) (c.utf8Size + n) := by
  obtain ⟨a, b, rfl, rfl⟩ := h
  exact ⟨c :: a, b, rfl, rfl⟩

/-- A boundary of two texts in a row is a boundary of one of them. -/
theorem Boundary.of_append (h : Boundary (s ++ t) n) :
    (n < byteLen s ∧ Boundary s n) ∨ (byteLen s ≤ n ∧ Boundary t (n - byteLen s)) := by
  obtain ⟨a, b, hab, rfl⟩ := h
  rcases List.append_eq_append_iff.1 hab with ⟨m, rfl, rfl⟩ | ⟨m, rfl, rfl⟩
  · right
    rw [byteLen_append]
    exact ⟨by omega, m, b, rfl, by omega⟩
  · by_cases hm : m = []
    · subst hm
      right
      simp only [List.append_nil, Nat.sub_self]
      exact ⟨Nat.le_refl _, Boundary.zero _⟩
    · have hpos := byteLen_pos hm
      left
      rw [byteLen_append]
      exact ⟨by omega, a, m, rfl, rfl⟩

theorem splitAt?_behind (a s : Text) (n : Nat) :
    splitAt? (byteLen a + n) (a ++ s) = (splitAt? n s).map fun p => (a ++ p.1, p.2) := by
  induction a with
  | nil => simp
  | cons c r ih =>
    have hc := utf8Size_pos c
    obtain ⟨j, hj⟩ : ∃ j, byteLen (c :: r) + n = j + 1 :=
      ⟨byteLen (c :: r) + n - 1, by rw [byteLen_cons]; omega⟩
    rw [byteLen_cons] at hj
    rw [byteLen_cons, hj, List.cons_append, splitAt?, if_pos (by omega),
      show j + 1 - c.utf8Size = byteLen r + n by omega, ih, Option.map_map]
    rfl

theorem splitAt?_before (s b : Text) {n : Nat} (h : n ≤ byteLen s) :
    splitAt? n (s ++ b) = (splitAt? n s).map fun p => (p.1, p.2 ++ b) := by
  induction s generalizing n with
  | nil =>
    obtain rfl : n = 0 := by simpa using h
    simp [splitAt?_zero]
  | cons c r ih =>
    cases n with
    | zero => simp [splitAt?_zero]
    | succ n =>
      simp only [byteLen_cons] at h
      simp only [List.cons_append, splitAt?]
      split
      · rw [ih (by omega), Option.map_map, Option.map_map]
        rfl
      · rfl

theorem slice?_eq_some {lo hi : Nat} {t part : Text} (h : slice? lo hi t = some part) :
    ∃ a b, t = a ++ part ++ b ∧ byteLen a = lo ∧ byteLen (a ++ part) = hi := by
  unfold slice? at h
  split at h
  · next hle =>
    obtain ⟨⟨a, r⟩, har, h⟩ := Option.bind_eq_some_iff.1 h
    obtain ⟨⟨part', b⟩, hpb, rfl⟩ := Option.map_eq_some_iff.1 h
    obtain ⟨rfl, ha⟩ := splitAt?_eq_some har
    obtain ⟨rfl, hp⟩ := splitAt?_eq_some hpb
    refine ⟨a, b, by simp, ha, ?_⟩
    rw [byteLen_append]
    dsimp only
    omega
  · simp at h

theorem slice?_append (a part b : Text) :
    slice? (byteLen a) (byteLen (a ++ part)) (a ++ part ++ b) = some part := by
  have hlen : byteLen (a ++ part) - byteLen a = byteLen part := by
    rw [byteLen_append]
    omega
  unfold slice?
  rw [if_pos (by rw [byteLen_append]; omega), hlen, List.append_assoc, splitAt?_append]
  simp only [Option.bind_some]
  rw [splitAt?_append]
  rfl

theorem slice_append (a part b : Text) :
    slice (byteLen a) (byteLen (a ++ part)) (a ++ part ++ b) = part := by
  unfold slice
  rw [slice?_append]
  rfl

theorem slice?_whole (s : Text) : slice? 0 (byteLen s) s = some s := by
  have h := slice?_append [] s []
  simpa using h

theorem slice_whole (s : Text) : slice 0 (byteLen s) s = s := by
  unfold slice
  rw [slice?_whole]
  rfl

/-- A slice of two texts in a row that begins in the first and ends in the second. -/
theorem slice_across {s t : Text} {lo k : Nat} (hlo : Boundary s lo) (hk : Boundary t k) :
    slice lo (byteLen s + k) (s ++ t) = slice lo (byteLen s) s ++ slice 0 k t := by
  obtain ⟨a, a', rfl, rfl⟩ := hlo
  obtain ⟨c, c', rfl, rfl⟩ := hk
  have hboth := slice_append a (a' ++ c) c'
  have hfirst := slice_append a a' []
  have hsecond := slice_append [] c c'
  simp only [List.append_nil, List.nil_append, byteLen_nil] at hfirst hsecond
  rw [hfirst, hsecond, ← hboth]
  simp only [byteLen_append, List.append_assoc, Nat.add_assoc]

/-- A slice of a part is a slice of the whole. -/
theorem slice_middle (a s b : Text) {lo hi : Nat} (h : hi ≤ byteLen s) :
    slice (byteLen a + lo) (byteLen a + hi) (a ++ s ++ b) = slice lo hi s := by
  unfold slice slice?
  by_cases hle : lo ≤ hi
  · rw [if_pos (by omega), if_pos hle, List.append_assoc, splitAt?_behind,
      splitAt?_before s b (Nat.le_trans hle h), Nat.add_sub_add_left]
    cases hsplit : splitAt? lo s with
    | none => rfl
    | some p =>
      obtain ⟨hs, hlo⟩ := splitAt?_eq_some hsplit
      have hlen : hi - lo ≤ byteLen p.2 := by
        rw [hs, byteLen_append] at h
        omega
      simp only [Option.map_some, Option.bind_some]
      rw [splitAt?_before p.2 b hlen, Option.map_map]
      rfl
  · rw [if_neg (by omega), if_neg hle]

/-! ### Lines -/

theorem boundary_lineStart (s : Text) (offset : Nat) : Boundary s (lineStart s offset) := by
  induction s generalizing offset with
  | nil => exact Boundary.zero _
  | cons c r ih =>
    simp only [lineStart]
    split
    · exact Boundary.zero _
    · split
      · exact (ih _).cons c
      · split
        · exact (Boundary.zero r).cons c
        · exact Boundary.zero _

theorem lineStart_le (s : Text) (offset : Nat) : lineStart s offset ≤ offset := by
  induction s generalizing offset with
  | nil => exact Nat.zero_le _
  | cons c r ih =>
    have hr := ih (offset - c.utf8Size)
    simp only [lineStart]
    split
    · exact Nat.zero_le _
    · split
      · omega
      · split <;> omega

theorem boundary_lineStop (s : Text) (offset : Nat) : Boundary s (lineStop s offset) := by
  induction s generalizing offset with
  | nil => exact Boundary.zero _
  | cons c r ih =>
    simp only [lineStop]
    split
    · exact Boundary.zero _
    · exact (ih _).cons c

theorem le_lineStop {s : Text} {offset : Nat} (h : offset ≤ byteLen s) :
    offset ≤ lineStop s offset := by
  induction s generalizing offset with
  | nil => exact h
  | cons c r ih =>
    simp only [byteLen_cons] at h
    have hr : offset - c.utf8Size ≤ lineStop r (offset - c.utf8Size) := ih (by omega)
    simp only [lineStop]
    split
    · omega
    · omega

end Text

end ImageScript
