import ImageScript.Document.Basic
import ImageScript.Proofs.Text.Boundary

/-!
# Atoms

A row of segments holds characters and widgets, and no edit divides one of them. Its atoms forget
how the characters are parted into runs; a normal row is determined by them, and a position can be
cut exactly where it falls between two atoms.

Main statements: `normalize_eq_toRow`, `atoms_toRow`, `splitAt?_eq_some`, `exists_splitAt?`,
`cut_of_clip?`, `exists_clip?`.
-/

namespace ImageScript

/-- What no edit divides: one character of a run, or a widget. -/
inductive Atom where
  | char (c : Char)
  | pattern (p : Pattern)
  | region (r : Region)

namespace Atom

/-- The positions an atom takes. -/
def len : Atom → Nat
  | char c => c.utf8Size
  | pattern _ | region _ => 1

def toSegment : Atom → Segment
  | char c => .text [c]
  | pattern p => .pattern p
  | region r => .region r

def toText : Atom → Text
  | char c => [c]
  | pattern p => p.toText
  | region r => r.toText

def id? : Atom → Option Text
  | char _ => none
  | pattern p => some p.id
  | region r => some r.id

/-- The positions of a row of atoms. -/
def totalLen : List Atom → Nat
  | [] => 0
  | a :: as => a.len + totalLen as

/-- The normal row of segments that holds some atoms. -/
def toRow : List Atom → List Segment
  | [] => []
  | a :: as => Segment.attach a.toSegment (toRow as)

theorem len_pos (a : Atom) : 0 < a.len := by
  cases a with
  | char c => exact Text.utf8Size_pos c
  | pattern p => exact Nat.one_pos
  | region r => exact Nat.one_pos

@[simp] theorem totalLen_append (as bs : List Atom) :
    totalLen (as ++ bs) = totalLen as + totalLen bs := by
  induction as with
  | nil => simp [totalLen]
  | cons a as ih => simp only [List.cons_append, totalLen, ih]; omega

theorem eq_nil_of_totalLen {as : List Atom} (h : totalLen as = 0) : as = [] := by
  cases as with
  | nil => rfl
  | cons a as =>
    have hpos := a.len_pos
    simp only [totalLen] at h
    omega

/-- Two divisions of one row at the same position are the same. -/
theorem append_inj {as bs cs ds : List Atom} (h : as ++ bs = cs ++ ds)
    (hlen : totalLen as = totalLen cs) : as = cs ∧ bs = ds := by
  rcases List.append_eq_append_iff.1 h with ⟨m, rfl, rfl⟩ | ⟨m, rfl, rfl⟩
  · rw [totalLen_append] at hlen
    have hm : m = [] := eq_nil_of_totalLen (by omega)
    simp [hm]
  · rw [totalLen_append] at hlen
    have hm : m = [] := eq_nil_of_totalLen (by omega)
    simp [hm]

@[simp] theorem totalLen_map_char (s : Text) : totalLen (s.map char) = Text.byteLen s := by
  induction s with
  | nil => rfl
  | cons c r ih => simp [totalLen, len, ih]

end Atom

namespace Segment

/-- The atoms of one segment. -/
def atomsOf : Segment → List Atom
  | text s => s.map .char
  | pattern p => [.pattern p]
  | region r => [.region r]

/-- The atoms of a row of segments. -/
def atoms : List Segment → List Atom
  | [] => []
  | s :: rest => s.atomsOf ++ atoms rest

@[simp] theorem atoms_nil : atoms [] = [] := rfl

@[simp] theorem atoms_append (as bs : List Segment) : atoms (as ++ bs) = atoms as ++ atoms bs := by
  induction as with
  | nil => rfl
  | cons a as ih => simp [atoms, ih]

theorem totalLen_atomsOf (s : Segment) : Atom.totalLen s.atomsOf = s.len := by
  cases s with
  | text t => simp [atomsOf, len]
  | pattern p => rfl
  | region r => rfl

theorem totalLen_atoms (row : List Segment) : Atom.totalLen (atoms row) = totalLen row := by
  induction row with
  | nil => rfl
  | cons s rest ih => simp [atoms, totalLen, totalLen_atomsOf, ih]

theorem toText_atomsOf (s : Segment) : s.atomsOf.flatMap Atom.toText = s.toText := by
  cases s with
  | text t => simp [atomsOf, toText, List.flatMap_map, Atom.toText]
  | pattern p => simp [atomsOf, toText, Atom.toText]
  | region r => simp [atomsOf, toText, Atom.toText]

/-- The canonical text is the text of the atoms. -/
theorem joinText_eq_flatMap (row : List Segment) :
    joinText row = (atoms row).flatMap Atom.toText := by
  induction row with
  | nil => rfl
  | cons s rest ih =>
    rw [atoms, List.flatMap_append, ← ih, toText_atomsOf]
    rfl

/-- The ids of the widgets of a row. -/
def idsOf (row : List Segment) : List Text := row.filterMap id?

theorem idsOf_append (as bs : List Segment) : idsOf (as ++ bs) = idsOf as ++ idsOf bs :=
  List.filterMap_append

theorem idsOf_cons (s : Segment) (rest : List Segment) :
    idsOf (s :: rest) = idsOf [s] ++ idsOf rest :=
  idsOf_append [s] rest

theorem id?_atomsOf (s : Segment) : s.atomsOf.filterMap Atom.id? = s.id?.toList := by
  cases s with
  | text t => simp [atomsOf, id?, List.filterMap_map, Function.comp_def, Atom.id?]
  | pattern p => rfl
  | region r => rfl

theorem idsOf_eq_filterMap (row : List Segment) :
    idsOf row = (atoms row).filterMap Atom.id? := by
  induction row with
  | nil => rfl
  | cons s rest ih =>
    rw [atoms, List.filterMap_append, ← ih, id?_atomsOf]
    cases h : s.id? <;> simp [idsOf, h]

/-! ### Normal rows -/

theorem atoms_attach (s : Segment) (rest : List Segment) :
    atoms (attach s rest) = s.atomsOf ++ atoms rest := by
  cases s with
  | pattern p => rfl
  | region r => rfl
  | text a =>
    by_cases ha : a = []
    · simp [attach, ha, atomsOf]
    · cases rest with
      | nil => simp [attach, ha, atoms]
      | cons t rest => cases t <;> simp [attach, ha, atoms, atomsOf]

/-- A run put before a row goes there character by character. -/
theorem attach_text_cons (c : Char) (s : Text) (rest : List Segment) :
    attach (text (c :: s)) rest = attach (text [c]) (attach (text s) rest) := by
  by_cases hs : s = []
  · simp [hs, attach]
  · cases rest with
    | nil => simp [attach, hs]
    | cons t rest =>
      cases t with
      | text b => simp [attach, hs]
      | pattern p => simp [attach, hs]
      | region r => simp [attach, hs]

theorem attach_eq_foldr (s : Segment) (rest : List Segment) :
    attach s rest = s.atomsOf.foldr (fun a => attach a.toSegment) rest := by
  cases s with
  | pattern p => rfl
  | region r => rfl
  | text t =>
    induction t with
    | nil => rfl
    | cons c t ih =>
      rw [attach_text_cons, ih]
      rfl

theorem toRow_eq_foldr (as : List Atom) :
    Atom.toRow as = as.foldr (fun a => attach a.toSegment) [] := by
  induction as with
  | nil => rfl
  | cons a as ih => simp [Atom.toRow, ih]

/-- Merging runs leaves the row that the atoms determine. -/
theorem normalize_eq_toRow (row : List Segment) : normalize row = Atom.toRow (atoms row) := by
  rw [toRow_eq_foldr]
  induction row with
  | nil => rfl
  | cons s rest ih =>
    rw [atoms, List.foldr_append, ← ih, ← attach_eq_foldr]
    rfl

@[simp] theorem atoms_toRow (as : List Atom) : atoms (Atom.toRow as) = as := by
  induction as with
  | nil => rfl
  | cons a as ih =>
    rw [Atom.toRow, atoms_attach, ih]
    cases a <;> rfl

theorem idsOf_toRow (as : List Atom) : idsOf (Atom.toRow as) = as.filterMap Atom.id? := by
  rw [idsOf_eq_filterMap, atoms_toRow]

/-- No run is empty and no two runs are neighbours. -/
def IsNormal (row : List Segment) : Prop := Atom.toRow (atoms row) = row

theorem isNormal_toRow (as : List Atom) : IsNormal (Atom.toRow as) := by
  unfold IsNormal
  rw [atoms_toRow]

/-! ### Cutting -/

theorem splitAt?_eq_some {n : Nat} {row before after : List Segment}
    (h : splitAt? n row = some (before, after)) :
    atoms row = atoms before ++ atoms after ∧ totalLen before = n := by
  induction row generalizing n before after with
  | nil =>
    cases n with
    | zero =>
      simp only [splitAt?, Option.some.injEq, Prod.mk.injEq] at h
      obtain ⟨rfl, rfl⟩ := h
      exact ⟨rfl, rfl⟩
    | succ n => simp [splitAt?] at h
  | cons s rest ih =>
    cases n with
    | zero =>
      simp only [splitAt?, Option.some.injEq, Prod.mk.injEq] at h
      obtain ⟨rfl, rfl⟩ := h
      exact ⟨rfl, rfl⟩
    | succ n =>
      simp only [splitAt?] at h
      split at h
      · next hle =>
        obtain ⟨⟨a, b⟩, hab, heq⟩ := Option.map_eq_some_iff.1 h
        simp only [Prod.mk.injEq] at heq
        obtain ⟨rfl, rfl⟩ := heq
        obtain ⟨hatoms, hlen⟩ := ih hab
        refine ⟨by simp [atoms, hatoms], ?_⟩
        simp only [totalLen]
        omega
      · split at h
        · next t hlt =>
          obtain ⟨⟨a, b⟩, hab, heq⟩ := Option.map_eq_some_iff.1 h
          simp only [Prod.mk.injEq] at heq
          obtain ⟨rfl, rfl⟩ := heq
          obtain ⟨rfl, hlen⟩ := Text.splitAt?_eq_some hab
          refine ⟨by simp [atoms, atomsOf], ?_⟩
          simp only [totalLen, len]
          omega
        · simp at h

/-- The atoms before a position begin with a segment that ends before it, and otherwise lie within
the segment. -/
theorem atoms_cons_eq_append {s : Segment} {rest : List Segment} {x y : List Atom}
    (h : atoms (s :: rest) = x ++ y) :
    (s.len ≤ Atom.totalLen x ∧ ∃ x', x = s.atomsOf ++ x' ∧ atoms rest = x' ++ y)
      ∨ (Atom.totalLen x < s.len ∧ ∃ y', s.atomsOf = x ++ y' ∧ y = y' ++ atoms rest) := by
  have hs := totalLen_atomsOf s
  rcases List.append_eq_append_iff.1 h with ⟨m, rfl, hrest⟩ | ⟨m, hm, rfl⟩
  · left
    refine ⟨?_, m, rfl, hrest⟩
    rw [Atom.totalLen_append]
    omega
  · rw [hm, Atom.totalLen_append] at hs
    by_cases hzero : Atom.totalLen m = 0
    · have hnil := Atom.eq_nil_of_totalLen hzero
      subst hnil
      left
      refine ⟨by omega, [], ?_, ?_⟩
      · simpa using hm.symm
      · simp
    · right
      exact ⟨by omega, m, hm, rfl⟩

/-- The characters of a run divide into the characters of two runs. -/
theorem map_char_eq_append {t : Text} {x y : List Atom} (h : t.map Atom.char = x ++ y) :
    ∃ a b, t = a ++ b ∧ x = a.map Atom.char ∧ y = b.map Atom.char := by
  obtain ⟨a, b, rfl, rfl, rfl⟩ := List.map_eq_append_iff.1 h
  exact ⟨a, b, rfl, rfl, rfl⟩

theorem exists_splitAt? {row : List Segment} {x y : List Atom} (h : atoms row = x ++ y) :
    ∃ before after, splitAt? (Atom.totalLen x) row = some (before, after)
      ∧ atoms before = x ∧ atoms after = y := by
  induction row generalizing x y with
  | nil =>
    obtain ⟨rfl, rfl⟩ := List.append_eq_nil_iff.1 h.symm
    exact ⟨[], [], rfl, rfl, rfl⟩
  | cons s rest ih =>
    cases hn : Atom.totalLen x with
    | zero =>
      have hx := Atom.eq_nil_of_totalLen hn
      subst hx
      exact ⟨[], s :: rest, rfl, rfl, h⟩
    | succ n =>
      rcases atoms_cons_eq_append h with ⟨hle, x', rfl, hrest⟩ | ⟨hlt, y', hs, rfl⟩
      · obtain ⟨before, after, hsplit, hbefore, hafter⟩ := ih hrest
        have hlen : n + 1 - s.len = Atom.totalLen x' := by
          rw [Atom.totalLen_append, totalLen_atomsOf] at hn
          omega
        refine ⟨s :: before, after, ?_, by simp [atoms, hbefore], hafter⟩
        simp only [splitAt?]
        rw [if_pos (by omega), hlen, hsplit]
        rfl
      · cases s with
        | text t =>
          obtain ⟨a, b, rfl, rfl, rfl⟩ := map_char_eq_append hs
          have hsplit := Text.splitAt?_append a b
          rw [Atom.totalLen_map_char] at hn hlt
          rw [hn] at hsplit
          refine ⟨[text a], text b :: rest, ?_, by simp [atoms, atomsOf], rfl⟩
          simp only [splitAt?]
          rw [if_neg (by omega), hsplit]
          rfl
        | pattern p => simp only [len] at hlt; omega
        | region r => simp only [len] at hlt; omega

/-- The atoms before, within and behind a range of positions. -/
structure Cut (row : List Segment) (lo hi : Nat) (x y z : List Atom) : Prop where
  atoms_eq : atoms row = x ++ y ++ z
  start_eq : Atom.totalLen x = lo
  stop_eq : Atom.totalLen (x ++ y) = hi

namespace Cut

variable {row : List Segment} {lo hi : Nat} {x y z : List Atom}

theorem le (h : Cut row lo hi x y z) : lo ≤ hi := by
  have h₁ := h.start_eq
  have h₂ := h.stop_eq
  rw [Atom.totalLen_append] at h₂
  omega

theorem le_totalLen (h : Cut row lo hi x y z) : hi ≤ totalLen row := by
  have h₁ := totalLen_atoms row
  have h₂ := h.stop_eq
  rw [h.atoms_eq, Atom.totalLen_append] at h₁
  omega

/-- A range of positions divides a row in one way. -/
theorem unique {x' y' z' : List Atom} (h : Cut row lo hi x y z) (h' : Cut row lo hi x' y' z') :
    x = x' ∧ y = y' ∧ z = z' := by
  have heq : x ++ y ++ z = x' ++ y' ++ z' := by rw [← h.atoms_eq, h'.atoms_eq]
  have hstop : Atom.totalLen (x ++ y) = Atom.totalLen (x' ++ y') := by rw [h.stop_eq, h'.stop_eq]
  obtain ⟨hxy, hz⟩ := Atom.append_inj heq hstop
  have hstart : Atom.totalLen x = Atom.totalLen x' := by rw [h.start_eq, h'.start_eq]
  obtain ⟨hx, hy⟩ := Atom.append_inj hxy hstart
  exact ⟨hx, hy, hz⟩

/-- A range without length holds nothing. -/
theorem eq_nil (h : Cut row lo lo x y z) : y = [] := by
  have hstart := h.start_eq
  have hstop := h.stop_eq
  rw [Atom.totalLen_append] at hstop
  exact Atom.eq_nil_of_totalLen (by omega)

/-- What takes the place of a range is a range of the new row. -/
theorem replaced (h : Cut row lo hi x y z) (w : List Atom) :
    Cut (Atom.toRow (x ++ w ++ z)) lo (lo + Atom.totalLen w) x w z := by
  refine ⟨atoms_toRow _, h.start_eq, ?_⟩
  rw [Atom.totalLen_append, h.start_eq]

/-- Where a range was taken out, the row can be cut. -/
theorem removed (h : Cut row lo hi x y z) : Cut (Atom.toRow (x ++ z)) lo lo x [] z := by
  have hnothing := h.replaced []
  rw [List.append_nil] at hnothing
  exact hnothing

end Cut

theorem IsNormal.eq_toRow {row : List Segment} {lo hi : Nat} {x y z : List Atom}
    (hn : IsNormal row) (h : Cut row lo hi x y z) : row = Atom.toRow (x ++ y ++ z) := by
  rw [← h.atoms_eq]
  exact hn.symm

theorem IsNormal.eq_toRow_point {row : List Segment} {pos : Nat} {x z : List Atom}
    (hn : IsNormal row) (h : Cut row pos pos x [] z) : row = Atom.toRow (x ++ z) := by
  have heq := hn.eq_toRow h
  rwa [List.append_nil] at heq

/-- Where a range begins in the first segment, that segment is clipped and the others follow. -/
theorem of_clip?_cons {s : Segment} {rest parts : List Segment} {lo hi : Nat} (hlo : lo < s.len)
    (hhi : 0 < hi) (h : clip? lo hi (s :: rest) = some parts) :
    ∃ part parts' a b, parts = part :: parts' ∧ clip? 0 (hi - s.len) rest = some parts'
      ∧ s.atomsOf = a ++ part.atomsOf ++ b ∧ Atom.totalLen a = lo
      ∧ Atom.totalLen (a ++ part.atomsOf) = min hi s.len := by
  simp only [clip?] at h
  rw [if_neg (by omega), if_neg (by omega)] at h
  cases s with
  | text t =>
    simp only [len] at h ⊢
    cases hslice : Text.slice? lo (min hi (Text.byteLen t)) t with
    | none => simp [hslice] at h
    | some part =>
      cases hclip : clip? 0 (hi - Text.byteLen t) rest with
      | none => simp [hclip] at h
      | some parts' =>
        simp only [hslice, hclip, Option.some.injEq] at h
        obtain ⟨a, b, ht, ha, hb⟩ := Text.slice?_eq_some hslice
        refine ⟨.text part, parts', a.map .char, b.map .char, h.symm, rfl, ?_, ?_, ?_⟩
        · simp [ht, atomsOf]
        · rw [Atom.totalLen_map_char, ha]
        · rw [atomsOf, ← List.map_append, Atom.totalLen_map_char, hb]
  | pattern p =>
    obtain ⟨parts', hclip, rfl⟩ := Option.map_eq_some_iff.1 h
    simp only [len] at hlo hclip ⊢
    refine ⟨.pattern p, parts', [], [], rfl, hclip, rfl, ?_, ?_⟩
    · simp only [Atom.totalLen]; omega
    · simp only [atomsOf, List.nil_append, Atom.totalLen, Atom.len]; omega
  | region r =>
    obtain ⟨parts', hclip, rfl⟩ := Option.map_eq_some_iff.1 h
    simp only [len] at hlo hclip ⊢
    refine ⟨.region r, parts', [], [], rfl, hclip, rfl, ?_, ?_⟩
    · simp only [Atom.totalLen]; omega
    · simp only [atomsOf, List.nil_append, Atom.totalLen, Atom.len]; omega

theorem eq_of_whole {s : Segment} {a y b : List Atom} (hs : s.atomsOf = a ++ y ++ b)
    (ha : Atom.totalLen a = 0) (hstop : Atom.totalLen (a ++ y) = s.len) : s.atomsOf = y := by
  have hb : Atom.totalLen b = 0 := by
    have hlen := totalLen_atomsOf s
    rw [hs, Atom.totalLen_append] at hlen
    omega
  rw [Atom.eq_nil_of_totalLen ha, Atom.eq_nil_of_totalLen hb] at hs
  simpa using hs

theorem clip?_cons_of {s : Segment} {rest parts : List Segment} {lo hi : Nat} {a y b : List Atom}
    (hs : s.atomsOf = a ++ y ++ b) (hlo : Atom.totalLen a = lo) (hlt : lo < s.len)
    (hhi : 0 < hi) (hstop : Atom.totalLen (a ++ y) = min hi s.len)
    (hrest : clip? 0 (hi - s.len) rest = some parts) :
    ∃ part, clip? lo hi (s :: rest) = some (part :: parts) ∧ part.atomsOf = y := by
  simp only [clip?]
  rw [if_neg (by omega), if_neg (by omega)]
  cases s with
  | text t =>
    obtain ⟨ay, b', rfl, hay, rfl⟩ := map_char_eq_append hs
    obtain ⟨a', part, rfl, rfl, rfl⟩ := map_char_eq_append hay.symm
    rw [Atom.totalLen_map_char] at hlo
    rw [← List.map_append, Atom.totalLen_map_char] at hstop
    have hslice := Text.slice?_append a' part b'
    rw [hlo, hstop] at hslice
    exact ⟨.text part, by simp only [hslice, hrest], rfl⟩
  | pattern p =>
    simp only [len] at hlt hstop
    have hy := eq_of_whole hs (by omega) (by simp only [len]; omega)
    exact ⟨.pattern p, by simp [hrest], hy⟩
  | region r =>
    simp only [len] at hlt hstop
    have hy := eq_of_whole hs (by omega) (by simp only [len]; omega)
    exact ⟨.region r, by simp [hrest], hy⟩

theorem cut_of_clip? {row parts : List Segment} {lo hi : Nat} (hle : lo ≤ hi)
    (hhi : hi ≤ totalLen row) (h : clip? lo hi row = some parts) :
    ∃ x z, Cut row lo hi x (atoms parts) z := by
  induction row generalizing lo hi parts with
  | nil =>
    simp only [clip?, Option.some.injEq] at h
    simp only [totalLen] at hhi
    subst h
    exact ⟨[], [], rfl, by simp only [Atom.totalLen]; omega, by simp [Atom.totalLen]; omega⟩
  | cons s rest ih =>
    simp only [totalLen] at hhi
    by_cases hs : s.len ≤ lo
    · simp only [clip?, if_pos hs] at h
      obtain ⟨x, z, hcut⟩ := ih (by omega) (by omega) h
      have hstart := hcut.start_eq
      have hstop := hcut.stop_eq
      refine ⟨s.atomsOf ++ x, z, by simp [atoms, hcut.atoms_eq], ?_, ?_⟩
      · rw [Atom.totalLen_append, totalLen_atomsOf]
        omega
      · rw [List.append_assoc, Atom.totalLen_append, totalLen_atomsOf]
        omega
    · by_cases hzero : hi = 0
      · simp only [clip?, if_neg hs, if_pos hzero, Option.some.injEq] at h
        subst h
        exact ⟨[], atoms (s :: rest), rfl, by simp only [Atom.totalLen]; omega,
          by simp [Atom.totalLen, hzero]⟩
      · obtain ⟨part, parts', a, b, rfl, hclip, hatoms, ha, hpart⟩ :=
          of_clip?_cons (by omega) (by omega) h
        obtain ⟨x, z, hcut⟩ := ih (Nat.zero_le _) (by omega) hclip
        have hx : x = [] := Atom.eq_nil_of_totalLen hcut.start_eq
        subst hx
        have hrest := hcut.atoms_eq
        have hstop := hcut.stop_eq
        have hlen := totalLen_atomsOf s
        rw [hatoms, Atom.totalLen_append] at hlen
        rw [List.nil_append] at hrest hstop
        -- Either the range ends within the first segment, or nothing of it is left behind.
        have hempty : atoms parts' = [] ∨ b = [] := by
          by_cases hin : hi ≤ s.len
          · exact Or.inl (Atom.eq_nil_of_totalLen (by omega))
          · exact Or.inr (Atom.eq_nil_of_totalLen (by omega))
        have hstop' : Atom.totalLen (a ++ (part.atomsOf ++ atoms parts')) = hi := by
          rw [← List.append_assoc, Atom.totalLen_append, hpart, hstop]
          omega
        rcases hempty with hnil | hnil
        · refine ⟨a, b ++ z, ?_, ha, hstop'⟩
          simp [atoms, hatoms, hrest, hnil]
        · refine ⟨a, z, ?_, ha, hstop'⟩
          simp [atoms, hatoms, hrest, hnil]

theorem exists_clip? {row : List Segment} {lo hi : Nat} {x y z : List Atom}
    (h : Cut row lo hi x y z) : ∃ parts, clip? lo hi row = some parts ∧ atoms parts = y := by
  induction row generalizing lo hi x y z with
  | nil =>
    have hnil : x ++ y ++ z = [] := h.atoms_eq.symm
    simp only [List.append_eq_nil_iff] at hnil
    exact ⟨[], by simp [clip?], by simp [hnil]⟩
  | cons s rest ih =>
    have hstart := h.start_eq
    have hstop := h.stop_eq
    have hle := h.le
    have hatoms := h.atoms_eq
    rw [List.append_assoc] at hatoms
    rcases atoms_cons_eq_append hatoms with ⟨hs, x', rfl, hrest⟩ | ⟨hs, m, hm, hyz⟩
    · rw [Atom.totalLen_append, totalLen_atomsOf] at hstart
      rw [List.append_assoc, Atom.totalLen_append, totalLen_atomsOf] at hstop
      have hcut : Cut rest (lo - s.len) (hi - s.len) x' y z :=
        ⟨by simpa using hrest, by omega, by omega⟩
      obtain ⟨parts, hclip, hparts⟩ := ih hcut
      refine ⟨parts, ?_, hparts⟩
      simp only [clip?]
      rw [if_pos (by omega), hclip]
    · by_cases hzero : hi = 0
      · rw [Atom.totalLen_append] at hstop
        have hy : y = [] := Atom.eq_nil_of_totalLen (by omega)
        refine ⟨[], ?_, hy.symm⟩
        simp only [clip?]
        rw [if_neg (by omega), if_pos hzero]
      · have hlen := totalLen_atomsOf s
        rw [hm, Atom.totalLen_append] at hlen
        rw [Atom.totalLen_append] at hstop
        rcases List.append_eq_append_iff.1 hyz with ⟨b, rfl, hz⟩ | ⟨y', rfl, hr⟩
        · -- The range ends within the first segment.
          rw [Atom.totalLen_append] at hlen
          have hcut : Cut rest 0 (hi - s.len) [] [] (atoms rest) :=
            ⟨rfl, rfl, by simp only [List.nil_append, Atom.totalLen]; omega⟩
          obtain ⟨parts', hclip, hparts⟩ := ih hcut
          obtain ⟨part, hpart, hy⟩ := clip?_cons_of (by rw [hm, List.append_assoc]) hstart (by omega)
            (by omega) (by rw [Atom.totalLen_append]; omega) hclip
          exact ⟨part :: parts', hpart, by simp [atoms, hy, hparts]⟩
        · rw [Atom.totalLen_append] at hstop
          have hcut : Cut rest 0 (hi - s.len) [] y' z :=
            ⟨by simpa using hr, rfl, by simp only [List.nil_append]; omega⟩
          obtain ⟨parts', hclip, hparts⟩ := ih hcut
          obtain ⟨part, hpart, hy⟩ := clip?_cons_of (b := []) (by rw [hm, List.append_nil]) hstart
            (by omega) (by omega) (by rw [Atom.totalLen_append]; omega) hclip
          exact ⟨part :: parts', hpart, by simp [atoms, hy, hparts]⟩

end Segment

end ImageScript
