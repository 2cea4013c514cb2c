/-!
# Byte offsets

Positions in a text count the bytes of its UTF-8 form, and a text may be cut only between two
characters. `Text.splitAt?` is the one operation that cuts: where it cuts, `Text.splitAt?_eq_some`
says that it returns the two parts, and `Text.splitAt?_append` that it cuts between any two.
-/

namespace ImageScript

/-- A text as the sequence of its characters. -/
abbrev Text := List Char

namespace Text

/-- The number of bytes of the UTF-8 form. -/
def byteLen : Text → Nat
  | [] => 0
  | c :: r => c.utf8Size + byteLen r

/-- Cuts a text at a byte offset; `none` where no character begins or the text has ended before. -/
def splitAt? : Nat → Text → Option (Text × Text)
  | 0, s => some ([], s)
  | _ + 1, [] => none
  | n + 1, c :: r =>
    if c.utf8Size ≤ n + 1 then
      (splitAt? (n + 1 - c.utf8Size) r).map fun p => (c :: p.1, p.2)
    else none

/-- The part from byte `lo` to byte `hi`; `none` unless both are boundaries in order. -/
def slice? (lo hi : Nat) (s : Text) : Option Text :=
  if lo ≤ hi then
    (splitAt? lo s).bind fun p => (splitAt? (hi - lo) p.2).map Prod.fst
  else none

/-- The part between two boundaries, empty where the range is not one. -/
def slice (lo hi : Nat) (s : Text) : Text :=
  (slice? lo hi s).getD []

theorem utf8Size_pos (c : Char) : 0 < c.utf8Size :=
  Char.utf8Size_pos c

@[simp] theorem byteLen_nil : byteLen [] = 0 := rfl

@[simp] theorem byteLen_cons (c : Char) (r : Text) :
    byteLen (c :: r) = c.utf8Size + byteLen r := rfl

@[simp] theorem byteLen_append (a b : Text) : byteLen (a ++ b) = byteLen a + byteLen b := by
  induction a with
  | nil => simp
  | cons c r ih => simp [ih, Nat.add_assoc]

theorem byteLen_pos {s : Text} (h : s ≠ []) : 0 < byteLen s := by
  cases s with
  | nil => exact absurd rfl h
  | cons c r => have := utf8Size_pos c; simp only [byteLen_cons]; omega

theorem splitAt?_zero (s : Text) : splitAt? 0 s = some ([], s) := by
  cases s <;> rfl

/-- A cut gives back the text and puts `n` bytes before it. -/
theorem splitAt?_eq_some {n : Nat} {s a b : Text} (h : splitAt? n s = some (a, b)) :
    s = a ++ b ∧ byteLen a = n := by
  induction s generalizing n a b with
  | nil =>
    cases n with
    | zero => simp only [splitAt?, Option.some.injEq, Prod.mk.injEq] at h; simp [← h.1, ← h.2]
    | succ n => simp [splitAt?] at h
  | cons c r ih =>
    cases n with
    | zero => simp only [splitAt?, Option.some.injEq, Prod.mk.injEq] at h; simp [← h.1, ← h.2]
    | succ n =>
      simp only [splitAt?] at h
      split at h
      · next hc =>
        obtain ⟨⟨a', b'⟩, hr, hab⟩ := Option.map_eq_some_iff.1 h
        simp only [Prod.mk.injEq] at hab
        obtain ⟨rfl, rfl⟩ := hab
        obtain ⟨rfl, hlen⟩ := ih hr
        refine ⟨rfl, ?_⟩
        simp only [byteLen_cons]
        omega
      · simp at h

theorem splitAt?_append (a b : Text) : splitAt? (byteLen a) (a ++ b) = some (a, b) := by
  induction a with
  | nil => exact splitAt?_zero b
  | cons c r ih =>
    have hc := utf8Size_pos c
    obtain ⟨k, hk⟩ : ∃ k, byteLen (c :: r) = k + 1 := ⟨byteLen (c :: r) - 1, by simp; omega⟩
    rw [hk, List.cons_append, splitAt?]
    simp only [byteLen_cons] at hk
    have hle : c.utf8Size ≤ k + 1 := by omega
    have hsub : k + 1 - c.utf8Size = byteLen r := by omega
    simp [hle, hsub, ih]

end Text

end ImageScript
