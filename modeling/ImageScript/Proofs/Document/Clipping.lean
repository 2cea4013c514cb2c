import ImageScript.Proofs.Document.FlatSequence

/-!
# The form of a copied range

A copy of a range of a document has its runs separated like the document, unless it is a copy of
nothing that was taken within a run: that one is a run without characters.

Main statement: `Document.separated_segmentsIn_iff`.
-/

namespace ImageScript

/-- Whether a position falls between two characters. -/
def Atom.BetweenCharacters (as : List Atom) (pos : Nat) : Prop :=
  ∃ x c c' z, as = x ++ char c :: char c' :: z ∧ totalLen x + c.utf8Size = pos

namespace Segment

open Atom (BetweenCharacters)

variable {s t : Segment} {row parts : List Segment} {lo hi n : Nat}

theorem separated_cons_iff : Separated (s :: row) ↔ s ≠ .text []
    ∧ (∀ t ∈ row.head?, s.isWidget = true ∨ t.isWidget = true) ∧ Separated row := by
  constructor
  · rintro ⟨hnonempty, happart⟩
    obtain ⟨hhead, hrest⟩ := List.isChain_cons.1 happart
    refine ⟨?_, hhead, ⟨fun hmem => hnonempty (List.mem_cons_of_mem _ hmem), hrest⟩⟩
    rintro rfl
    exact hnonempty (List.mem_cons_self ..)
  · rintro ⟨hs, hhead, hnonempty, happart⟩
    refine ⟨fun hmem => ?_, List.isChain_cons.2 ⟨hhead, happart⟩⟩
    rcases List.mem_cons.1 hmem with heq | hmem
    · exact hs heq.symm
    · exact hnonempty hmem

theorem len_pos_of_ne (h : s ≠ .text []) : 0 < s.len := by
  cases s with
  | text t =>
    refine Text.byteLen_pos ?_
    rintro rfl
    exact h rfl
  | pattern p => exact Nat.one_pos
  | region r => exact Nat.one_pos

/-- A copy of nothing from the start of a row is nothing. -/
theorem clip?_nothing (h : Separated row) : clip? 0 0 row = some [] := by
  cases row with
  | nil => rfl
  | cons s rest =>
    have hs := len_pos_of_ne (separated_cons_iff.1 h).1
    simp only [clip?, if_neg (Nat.not_le.2 hs), if_true]

/-- A copy of something begins with a part of the segment in which the range begins. -/
theorem exists_of_clip?_cons (hlt : lo < s.len) (hhi : lo < hi)
    (h : clip? lo hi (s :: row) = some parts) : ∃ part rest, parts = part :: rest
      ∧ clip? 0 (hi - s.len) row = some rest ∧ part.isWidget = s.isWidget ∧ part ≠ .text [] := by
  simp only [clip?, if_neg (Nat.not_le.2 hlt), if_neg (show hi ≠ 0 by omega)] at h
  cases s with
  | text t =>
    simp only at h
    split at h
    · next part rest hslice hrest =>
      refine ⟨.text part, rest, (Option.some.inj h).symm, hrest, rfl, ?_⟩
      rintro heq
      obtain ⟨a, b, -, ha, hab⟩ := Text.slice?_eq_some hslice
      rw [Segment.text.inj heq, List.append_nil, ha] at hab
      simp only [len] at hlt hab
      omega
    · cases h
  | pattern p =>
    obtain ⟨rest, hrest, rfl⟩ := Option.map_eq_some_iff.1 h
    exact ⟨.pattern p, rest, rfl, hrest, rfl, by simp⟩
  | region r =>
    obtain ⟨rest, hrest, rfl⟩ := Option.map_eq_some_iff.1 h
    exact ⟨.region r, rest, rfl, hrest, rfl, by simp⟩

/-- A copy of something has its runs separated. -/
theorem Separated.clip? (hrow : Separated row) (hlt : lo < hi)
    (h : clip? lo hi row = some parts) : Separated parts := by
  induction row generalizing lo hi parts with
  | nil =>
    obtain rfl := Option.some.inj h
    exact hrow
  | cons s rest ih =>
    obtain ⟨hs, hhead, hrest⟩ := separated_cons_iff.1 hrow
    by_cases hle : s.len ≤ lo
    · simp only [Segment.clip?, if_pos hle] at h
      exact ih hrest (by omega) h
    · obtain ⟨part, tail, rfl, htail, hwidget, hpart⟩ := exists_of_clip?_cons (by omega) hlt h
      by_cases hmore : hi ≤ s.len
      · rw [Nat.sub_eq_zero_of_le hmore, clip?_nothing hrest] at htail
        obtain rfl := Option.some.inj htail
        exact separated_cons_iff.2 ⟨hpart, by simp, ⟨List.not_mem_nil, List.isChain_nil⟩⟩
      · refine separated_cons_iff.2 ⟨hpart, ?_, ih hrest (by omega) htail⟩
        -- the copy goes on with a part of the next segment, which is a widget where this is a run
        cases rest with
        | nil =>
          obtain rfl := Option.some.inj htail
          simp
        | cons t rest =>
          have ht := len_pos_of_ne (separated_cons_iff.1 hrest).1
          obtain ⟨next, tail', rfl, -, hnext, -⟩ := exists_of_clip?_cons ht (by omega) htail
          simpa [hwidget, hnext] using hhead

/-! ### Copies of nothing -/

theorem not_betweenCharacters_zero (as : List Atom) : ¬ BetweenCharacters as 0 := by
  rintro ⟨x, c, c', z, -, hpos⟩
  have hc := Text.utf8Size_pos c
  omega

/-- In a row with separated runs, no position between two segments falls between two characters. -/
theorem betweenCharacters_cons (h : Separated (s :: row)) (hle : s.len ≤ n) :
    BetweenCharacters (atoms (s :: row)) n ↔ BetweenCharacters (atoms row) (n - s.len) := by
  have hs := totalLen_atomsOf s
  constructor
  · rintro ⟨x, c, c', z, heq, hpos⟩
    have hsplit : atoms (s :: row) = (x ++ [.char c]) ++ .char c' :: z := by simp [heq]
    have hlen : Atom.totalLen (x ++ [.char c]) = n := by
      rw [Atom.totalLen_append, ← hpos]
      rfl
    rcases atoms_cons_eq_append hsplit with ⟨-, m, hm, hrest⟩ | ⟨hlt, -⟩
    · rcases List.eq_nil_or_concat m with rfl | ⟨m, a, rfl⟩
      · -- the run of the first character ends where that of the second begins
        exfalso
        obtain ⟨-, hhead, -⟩ := separated_cons_iff.1 h
        cases row with
        | nil => simp [atoms] at hrest
        | cons t row =>
          have hne := (separated_cons_iff.1 (separated_cons_iff.1 h).2.2).1
          rcases hhead t rfl with hwidget | hwidget
          · cases s with
            | text a => simp [isWidget] at hwidget
            | pattern p => simpa [atomsOf] using congrArg List.getLast? hm
            | region r => simpa [atomsOf] using congrArg List.getLast? hm
          · cases t with
            | text a => simp [isWidget] at hwidget
            | pattern p => simp [atoms, atomsOf] at hrest
            | region r => simp [atoms, atomsOf] at hrest
      · rw [List.concat_eq_append] at hm hrest
        rw [← List.append_assoc] at hm
        obtain ⟨hx, ha⟩ := List.append_inj' hm rfl
        obtain rfl := List.singleton_inj.1 ha
        refine ⟨m, c, c', z, by simpa using hrest, ?_⟩
        rw [hx, Atom.totalLen_append] at hpos
        omega
    · omega
  · rintro ⟨x, c, c', z, heq, hpos⟩
    refine ⟨s.atomsOf ++ x, c, c', z, by simp [atoms, heq], ?_⟩
    rw [Atom.totalLen_append]
    omega

/-- A position within a run falls between two of its characters. -/
theorem betweenCharacters_of_run {a b : Text} (ha : 0 < Text.byteLen a) (hb : 0 < Text.byteLen b) :
    BetweenCharacters (atoms (.text (a ++ b) :: row)) (Text.byteLen a) := by
  rcases List.eq_nil_or_concat a with rfl | ⟨a, c, rfl⟩
  · exact absurd ha (Nat.lt_irrefl 0)
  · cases b with
    | nil => exact absurd hb (Nat.lt_irrefl 0)
    | cons c' b =>
      refine ⟨a.map .char, c, c', b.map .char ++ atoms row, by simp [atoms, atomsOf], ?_⟩
      rw [Atom.totalLen_map_char, List.concat_eq_append, Text.byteLen_append]
      rfl

/-- A copy of nothing is a run without characters where it is taken within a run, and else
nothing. -/
theorem clip?_self (hrow : Separated row) (h : clip? n n row = some parts) :
    (BetweenCharacters (atoms row) n → parts = [.text []])
      ∧ (¬ BetweenCharacters (atoms row) n → parts = []) := by
  induction row generalizing n with
  | nil =>
    obtain rfl := Option.some.inj h
    refine ⟨?_, fun _ => rfl⟩
    rintro ⟨x, c, c', z, heq, -⟩
    simp [atoms] at heq
  | cons s rest ih =>
    obtain ⟨-, -, hrest⟩ := separated_cons_iff.1 hrow
    by_cases hle : s.len ≤ n
    · simp only [clip?, if_pos hle] at h
      rw [betweenCharacters_cons hrow hle]
      exact ih hrest h
    · by_cases hzero : n = 0
      · subst hzero
        rw [clip?_nothing hrow] at h
        exact ⟨fun hb => absurd hb (not_betweenCharacters_zero _), fun _ => (Option.some.inj h).symm⟩
      · cases s with
        | text t =>
          simp only [len, Nat.not_le] at hle
          simp only [clip?, len, if_neg (Nat.not_le.2 hle), if_neg hzero, Nat.min_eq_left hle.le,
            Nat.sub_eq_zero_of_le hle.le, clip?_nothing hrest] at h
          cases hslice : Text.slice? n n t with
          | none => simp [hslice] at h
          | some part =>
            simp only [hslice, Option.some.injEq] at h
            obtain ⟨a, b, rfl, rfl, hpart⟩ := Text.slice?_eq_some hslice
            rw [Text.byteLen_append] at hpart
            obtain rfl : part = [] := by
              by_contra hne
              have hpos := Text.byteLen_pos hne
              omega
            rw [List.append_nil, Text.byteLen_append] at hle
            rw [List.append_nil]
            have hwithin : BetweenCharacters (atoms (.text (a ++ b) :: rest)) (Text.byteLen a) :=
              betweenCharacters_of_run (by omega) (by omega)
            exact ⟨fun _ => h.symm, fun hb => absurd hwithin hb⟩
        | pattern p => simp only [len] at hle; omega
        | region r => simp only [len] at hle; omega

end Segment

namespace Document

open Segment Atom

variable {d : Document} {lo hi : Nat} {parts : List Segment}

theorem clip?_of_segmentsIn (h : d.segmentsIn lo hi = .ok parts) :
    clip? lo hi d.segments = some parts := by
  unfold segmentsIn at h
  split at h
  · cases h
  · split at h
    · next hclip => rw [hclip, Except.ok.inj h]
    · cases h

/-- A copy of nothing that is taken within a run is a run without characters. -/
theorem eq_run_of_betweenCharacters (hd : Separated d.segments)
    (h : d.segmentsIn lo lo = .ok parts) (hb : BetweenCharacters d.flat lo) : parts = [.text []] :=
  (clip?_self hd (clip?_of_segmentsIn h)).1 hb

/-- Every copy but the ones of nothing within a run has its runs separated. -/
theorem separated_segmentsIn_iff (hd : Separated d.segments)
    (h : d.segmentsIn lo hi = .ok parts) :
    Separated parts ↔ ¬ (lo = hi ∧ BetweenCharacters d.flat lo) := by
  constructor
  · rintro hparts ⟨rfl, hb⟩
    obtain rfl := eq_run_of_betweenCharacters hd h hb
    exact hparts.nonempty (List.mem_singleton_self _)
  · intro hne
    obtain ⟨x, z, hcut⟩ := cut_of_segmentsIn h
    rcases Nat.eq_or_lt_of_le hcut.le with rfl | hlt
    · obtain rfl := (clip?_self hd (clip?_of_segmentsIn h)).2 fun hb => hne ⟨rfl, hb⟩
      exact ⟨List.not_mem_nil, List.isChain_nil⟩
    · exact hd.clip? hlt (clip?_of_segmentsIn h)

end Document

end ImageScript
