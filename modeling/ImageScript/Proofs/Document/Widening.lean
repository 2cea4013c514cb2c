import Mathlib.Data.List.DropRight
import ImageScript.Proofs.Document.Extent

/-!
# Widening as a loop over slices

The range to read again is found by a loop that cuts the text and looks for line feeds in the slices,
until a pass reaches no further. Here the loop is run with cuts that fail within a character: it ends
after finitely many passes, no cut of it fails, and it ends with the range that `Extent.widen` gives.
That range consists of whole lines and is self-contained: its tokens are those of the whole text.

Main statements: `Extent.widen_selfContained`.
-/

namespace ImageScript

namespace Text

/-- Whether an offset is zero or falls behind a line feed. -/
def BeginsLine (s : Text) (n : Nat) : Prop :=
  n = 0 ∨ ∃ a b, s = a ++ '\n' :: b ∧ byteLen (a ++ ['\n']) = n

/-- Whether an offset is the end of the text or that of a line feed. -/
def EndsLine (s : Text) (n : Nat) : Prop :=
  n = byteLen s ∨ ∃ a b, s = a ++ '\n' :: b ∧ byteLen a = n

/-- The offset behind the last line feed in the slice before an offset. -/
def lineStart? (s : Text) (offset : Nat) : Option Nat :=
  (splitAt? offset s).map fun (before, _) => byteLen (before.rdropWhile (· ≠ '\n'))

/-- The offset of the first line feed in the slice from an offset on. -/
def lineStop? (s : Text) (offset : Nat) : Option Nat :=
  (splitAt? offset s).map fun (before, behind) =>
    byteLen before + byteLen (behind.takeWhile (· ≠ '\n'))

variable {s : Text} {n : Nat}

theorem BeginsLine.cons (c : Char) (h : BeginsLine s n) (hn : 0 < n) :
    BeginsLine (c :: s) (c.utf8Size + n) := by
  rcases h with rfl | ⟨a, b, rfl, rfl⟩
  · omega
  · exact Or.inr ⟨c :: a, b, rfl, rfl⟩

theorem EndsLine.cons (c : Char) (h : EndsLine s n) : EndsLine (c :: s) (c.utf8Size + n) := by
  rcases h with rfl | ⟨a, b, rfl, rfl⟩
  · exact Or.inl rfl
  · exact Or.inr ⟨c :: a, b, rfl, rfl⟩

theorem beginsLine_lineStart (s : Text) (offset : Nat) : BeginsLine s (lineStart s offset) := by
  induction s generalizing offset with
  | nil => exact Or.inl rfl
  | cons c r ih =>
    simp only [lineStart]
    split
    · exact Or.inl rfl
    · split
      · next hlater => exact (ih _).cons c hlater
      · split
        · next hc => exact Or.inr ⟨[], r, by rw [hc]; rfl, by simp [hc]⟩
        · exact Or.inl rfl

theorem endsLine_lineStop (s : Text) (offset : Nat) : EndsLine s (lineStop s offset) := by
  induction s generalizing offset with
  | nil => exact Or.inl rfl
  | cons c r ih =>
    simp only [lineStop]
    split
    · next hc => exact Or.inr ⟨[], r, by rw [hc.1]; rfl, rfl⟩
    · exact (ih _).cons c

theorem rdropWhile_cons (p : Char → Bool) (c : Char) (r : Text) : (c :: r).rdropWhile p =
    if r.rdropWhile p = [] then if p c then [] else [c] else c :: r.rdropWhile p := by
  unfold List.rdropWhile
  rw [List.reverse_cons, List.dropWhile_append]
  generalize r.reverse.dropWhile p = kept
  cases kept with
  | nil => cases hc : p c <;> simp [hc]
  | cons d kept => simp

/-- The line feed that is looked for is the last one before the offset. -/
theorem lineStart_append (a b : Text) :
    lineStart (a ++ b) (byteLen a) = byteLen (a.rdropWhile (· ≠ '\n')) := by
  induction a with
  | nil =>
    cases b with
    | nil => rfl
    | cons c r => simp [lineStart, utf8Size_pos c]
  | cons c r ih =>
    rw [List.cons_append, byteLen_cons, lineStart, if_neg (by omega), Nat.add_sub_cancel_left, ih,
      rdropWhile_cons]
    dsimp only
    by_cases hnil : r.rdropWhile (· ≠ '\n') = []
    · rw [if_pos hnil, hnil, byteLen_nil, if_neg (by omega)]
      by_cases hc : c = '\n' <;> simp [hc]
    · rw [if_neg hnil, if_pos (byteLen_pos hnil), byteLen_cons]

/-- The line feed that is looked for is the first one from the offset on. -/
theorem lineStop_append (a b : Text) :
    lineStop (a ++ b) (byteLen a) = byteLen a + byteLen (b.takeWhile (· ≠ '\n')) := by
  induction a with
  | nil =>
    induction b with
    | nil => rfl
    | cons c r ih =>
      rw [List.nil_append, byteLen_nil, Nat.zero_add] at *
      by_cases hc : c = '\n'
      · simp [lineStop, hc]
      · simp [lineStop, hc, ih]
  | cons c r ih =>
    have hc := utf8Size_pos c
    rw [List.cons_append, byteLen_cons, lineStop, if_neg (by omega), Nat.add_sub_cancel_left, ih]
    omega

theorem lineStart?_eq (h : s.Boundary n) : lineStart? s n = some (lineStart s n) := by
  obtain ⟨a, b, rfl, rfl⟩ := h
  rw [lineStart_append]
  unfold lineStart?
  rw [splitAt?_append]
  rfl

theorem lineStop?_eq (h : s.Boundary n) : lineStop? s n = some (lineStop s n) := by
  obtain ⟨a, b, rfl, rfl⟩ := h
  rw [lineStop_append]
  unfold lineStop?
  rw [splitAt?_append]
  rfl

/-- The byte before the beginning of a line is that of a line feed. -/
theorem BeginsLine.boundary_pred (h : BeginsLine s n) : s.Boundary (n - 1) := by
  rcases h with rfl | ⟨a, b, rfl, rfl⟩
  · exact Boundary.zero s
  · exact ⟨a, '\n' :: b, rfl, by rw [byteLen_append]; rfl⟩

/-- The byte at the end of a line is that of a line feed, unless the text ends there. -/
theorem EndsLine.boundary_succ (h : EndsLine s n) (hn : n < byteLen s) : s.Boundary (n + 1) := by
  rcases h with rfl | ⟨a, b, rfl, rfl⟩
  · omega
  · exact ⟨a ++ ['\n'], b, by simp, by rw [byteLen_append]; rfl⟩

end Text

namespace Extent

variable {s : Text} {ts : List Token} {e f : Extent} {lo hi : Nat}

/-- Whether a range begins and ends with a line. -/
structure OnLines (s : Text) (e : Extent) : Prop where
  start : s.BeginsLine e.start
  stop : s.EndsLine e.stop

theorem OnLines.coverTokens (h : OnLines s e) (ts : List Token) :
    OnLines s (coverTokens s ts e) := by
  constructor
  · simp only [Extent.coverTokens]
    split
    · split
      · exact Text.beginsLine_lineStart _ _
      · exact h.start
    · exact h.start
  · simp only [Extent.coverTokens]
    split
    · split
      · exact Text.endsLine_lineStop _ _
      · exact h.stop
    · exact h.stop

theorem OnLines.coverBefore (h : OnLines s e) (ts : List Token) :
    OnLines s (coverBefore s ts e) := by
  unfold Extent.coverBefore
  dsimp only
  split
  · exact ⟨Text.beginsLine_lineStart _ _, h.stop⟩
  · exact h

theorem OnLines.coverBehind (h : OnLines s e) (ts : List Token) :
    OnLines s (coverBehind s ts e) := by
  unfold Extent.coverBehind
  dsimp only
  split
  · exact ⟨h.start, Text.endsLine_lineStop _ _⟩
  · exact h

theorem OnLines.step (h : OnLines s e) (ts : List Token) : OnLines s (step s ts e) :=
  ((h.coverTokens ts).coverBefore ts).coverBehind ts

/-! ### The loop -/

/-- Takes in the lines of a token that lies across an end; fails on a cut within a character. -/
def coverTokens? (s : Text) (ts : List Token) (e : Extent) : Option Extent := do
  let start ←
    match ts.find? (e.start < ·.stop) with
    | some t => if t.offset < e.start then Text.lineStart? s t.offset else some e.start
    | none => some e.start
  let stop ←
    match lastWhile? (·.offset < e.stop) ts with
    | some t => if e.stop < t.stop then Text.lineStop? s t.stop else some e.stop
    | none => some e.stop
  return ⟨start, stop⟩

/-- Takes in the line before where a literal may begin on it; fails on a cut within a character. -/
def coverBefore? (s : Text) (ts : List Token) (e : Extent) : Option Extent :=
  let before := lastWhile? (·.stop ≤ e.start) ts
  let opening := (ts.find? (e.start < ·.stop)).filter (·.offset < e.stop)
  if 0 < e.start ∧ (before.any leavesOpen ∨ opening.any continues) then
    (Text.lineStart? s (e.start - 1)).map fun start => { e with start }
  else some e

/-- Takes in the line behind where a literal may go on there; fails on a cut within a character. -/
def coverBehind? (s : Text) (ts : List Token) (e : Extent) : Option Extent :=
  let closing := (lastWhile? (·.offset < e.stop) ts).filter (e.start < ·.stop)
  let behind := ts.find? (e.stop ≤ ·.offset)
  if e.stop < Text.byteLen s ∧ (closing.any leavesOpen ∨ behind.any continues) then
    (Text.lineStop? s (e.stop + 1)).map fun stop => { e with stop }
  else some e

/-- One pass of the loop. -/
def pass? (s : Text) (ts : List Token) (e : Extent) : Option Extent := do
  coverBehind? s ts (← coverBefore? s ts (← coverTokens? s ts e))

/-- Whether the loop comes from one range to another after `n` passes that reach further and a last
one that does not. -/
inductive Loops (s : Text) (ts : List Token) : Nat → Extent → Extent → Prop where
  | done {e : Extent} (h : pass? s ts e = some e) : Loops s ts 0 e e
  | again {n : Nat} {e f g : Extent} (h : pass? s ts e = some f) (hne : f ≠ e)
      (rest : Loops s ts n f g) : Loops s ts (n + 1) e g

theorem coverTokens?_eq (hts : ∀ t ∈ ts, t.Within s) (e : Extent) :
    coverTokens? s ts e = some (coverTokens s ts e) := by
  have hstart : ∀ t, ts.find? (e.start < ·.stop) = some t →
      Text.lineStart? s t.offset = some (Text.lineStart s t.offset) := fun t ht =>
    Text.lineStart?_eq (hts t (List.mem_of_find?_eq_some ht)).start
  have hstop : ∀ t, lastWhile? (·.offset < e.stop) ts = some t →
      Text.lineStop? s t.stop = some (Text.lineStop s t.stop) := fun t ht =>
    Text.lineStop?_eq (hts t (List.takeWhile_subset _ (List.mem_of_getLast? ht))).stop
  unfold coverTokens? coverTokens
  cases hfirst : ts.find? (e.start < ·.stop) with
  | none =>
    cases hlast : lastWhile? (·.offset < e.stop) ts with
    | none => rfl
    | some t =>
      simp only [hstop t hlast]
      split <;> rfl
  | some t =>
    cases hlast : lastWhile? (·.offset < e.stop) ts with
    | none =>
      simp only [hstart t hfirst]
      split <;> rfl
    | some u =>
      simp only [hstart t hfirst, hstop u hlast]
      split <;> split <;> rfl

theorem coverBefore?_eq (h : OnLines s e) (ts : List Token) :
    coverBefore? s ts e = some (coverBefore s ts e) := by
  unfold coverBefore? coverBefore
  dsimp only
  rw [Text.lineStart?_eq h.start.boundary_pred]
  split <;> rfl

theorem coverBehind?_eq (h : OnLines s e) (ts : List Token) :
    coverBehind? s ts e = some (coverBehind s ts e) := by
  unfold coverBehind? coverBehind
  dsimp only
  split
  · next hmore =>
    rw [Text.lineStop?_eq (h.stop.boundary_succ hmore.1)]
    rfl
  · rfl

/-- No pass over whole lines cuts within a character. -/
theorem pass?_eq (hts : ∀ t ∈ ts, t.Within s) (h : OnLines s e) :
    pass? s ts e = some (step s ts e) := by
  have hbefore := coverBefore?_eq (h.coverTokens ts) ts
  have hbehind := coverBehind?_eq ((h.coverTokens ts).coverBefore ts) ts
  unfold pass? step
  rw [coverTokens?_eq hts]
  simp only [Option.bind_eq_bind, Option.bind_some, hbefore, hbehind]

/-- The loop ends, each pass but the last taking in one byte more at least. -/
theorem loops_grow (hts : ∀ t ∈ ts, t.Within s) (hcuts : Cuts s e) (h : OnLines s e) :
    ∃ n, Loops s ts n e (grow s ts e) ∧ n ≤ e.start + (Text.byteLen s - e.stop) := by
  fun_induction grow s ts e with
  | case1 e hwidens ih =>
    obtain ⟨n, hloops, hle⟩ := ih (hcuts.step ts) (h.step ts)
    have hlt := hwidens.measure_lt
    obtain ⟨-, -, -, hne⟩ := hwidens
    exact ⟨n + 1, .again (pass?_eq hts h) hne hloops, by omega⟩
  | case2 e hwidens =>
    have hlast : step s ts e = e := by
      have hgrow := step_grow hts hcuts
      unfold grow at hgrow
      rwa [dif_neg hwidens] at hgrow
    refine ⟨0, .done ?_, Nat.zero_le _⟩
    rw [pass?_eq hts h, hlast]

theorem onLines_grow (s : Text) (ts : List Token) (e : Extent) (h : OnLines s e) :
    OnLines s (grow s ts e) := by
  fun_induction grow s ts e with
  | case1 e hwidens ih => exact ih (h.step ts)
  | case2 e hwidens => exact h

/-! ### Where it ends -/

/-- Whether a range takes in another one, consists of whole lines, and holds the tokens of the whole
text that lie in it when it is read by itself. -/
structure SelfContained (s : Text) (lo hi : Nat) (e : Extent) : Prop where
  start_le : e.start ≤ lo
  le_stop : hi ≤ e.stop
  lines : OnLines s e
  uncrossed : ∀ t ∈ tokenize s, ¬ t.Crosses e.start ∧ ¬ t.Crosses e.stop
  tokens_eq : ∃ part, Text.slice? e.start e.stop s = some part
    ∧ Cursor.tokens ⟨e.start, part⟩ =
      (tokenize s).filter fun t => e.start ≤ t.offset ∧ t.stop ≤ e.stop

/-- The tokens of a range across whose ends no token lies. -/
theorem tokens_slice {a part c : Text} (h : tokenize (a ++ part ++ c) =
      tokenize a ++ (tokenize part).map (Token.shift (Text.byteLen a))
        ++ (tokenize c).map (Token.shift (Text.byteLen (a ++ part)))) :
    Cursor.tokens ⟨Text.byteLen a, part⟩ = (tokenize (a ++ part ++ c)).filter fun t =>
      Text.byteLen a ≤ t.offset ∧ t.stop ≤ Text.byteLen (a ++ part) := by
  have hbefore : (tokenize a).filter (fun t =>
      decide (Text.byteLen a ≤ t.offset ∧ t.stop ≤ Text.byteLen (a ++ part))) = [] := by
    rw [List.filter_eq_nil_iff]
    intro t ht
    have hle := (within_of_mem_tokenize t ht).stop.le
    have hlt := offset_lt_stop_of_mem_tokenize t ht
    simp only [decide_eq_true_eq]
    omega
  have hwithin : ((tokenize part).map (Token.shift (Text.byteLen a))).filter (fun t =>
      decide (Text.byteLen a ≤ t.offset ∧ t.stop ≤ Text.byteLen (a ++ part)))
        = (tokenize part).map (Token.shift (Text.byteLen a)) := by
    rw [List.filter_eq_self]
    intro t ht
    obtain ⟨u, hu, rfl⟩ := List.mem_map.1 ht
    have hle := (within_of_mem_tokenize u hu).stop.le
    simp only [Token.offset_shift, Token.stop_shift, Text.byteLen_append, decide_eq_true_eq]
    omega
  have hbehind : ((tokenize c).map (Token.shift (Text.byteLen (a ++ part)))).filter (fun t =>
      decide (Text.byteLen a ≤ t.offset ∧ t.stop ≤ Text.byteLen (a ++ part))) = [] := by
    rw [List.filter_eq_nil_iff]
    intro t ht
    obtain ⟨u, hu, rfl⟩ := List.mem_map.1 ht
    have hlt := offset_lt_stop_of_mem_tokenize u hu
    simp only [Token.stop_shift, decide_eq_true_eq]
    omega
  have hshift := Cursor.tokens_shift (Text.byteLen a) ⟨0, part⟩
  rw [Nat.add_zero] at hshift
  rw [h, List.filter_append, List.filter_append, hbefore, hwithin, hbehind, hshift]
  simp [tokenize]

theorem selfContained_widen (hhi : hi ≤ Text.byteLen s) :
    SelfContained s lo hi (widen s lo hi) := by
  have hcovers : Covers s lo hi (widen s lo hi) := covers_widen hhi
  obtain ⟨a, part, c, rfl, hstart, hstop, htokens⟩ := @tokenize_widen s lo hi hhi
  refine ⟨hcovers.start_le, hcovers.le_stop, ?_, uncrossed_widen _ lo hi, part, ?_, ?_⟩
  · exact onLines_grow _ _ _ ⟨Text.beginsLine_lineStart _ _, Text.endsLine_lineStop _ _⟩
  · rw [← hstart, ← hstop]
    exact Text.slice?_append a part c
  · rw [← hstart, ← hstop]
    exact tokens_slice htokens

/-- The loop that widens a range ends, it cuts the text between characters only, and it stops on a
self-contained range of whole lines. -/
theorem widen_selfContained (hlo : s.Boundary lo) (hhi : s.Boundary hi) (hle : lo ≤ hi) :
    (∃ start stop n, Text.lineStart? s lo = some start ∧ Text.lineStop? s hi = some stop
        ∧ Loops s (tokenize s) n ⟨start, stop⟩ (widen s lo hi)
        ∧ n ≤ lo + (Text.byteLen s - hi))
      ∧ SelfContained s lo hi (widen s lo hi) := by
  refine ⟨⟨Text.lineStart s lo, Text.lineStop s hi, ?_⟩, selfContained_widen hhi.le⟩
  have hfirst : widen s lo hi =
      grow s (tokenize s) ⟨Text.lineStart s lo, Text.lineStop s hi⟩ := by
    unfold widen
    dsimp only
    rw [Nat.min_eq_left hlo.le, Nat.max_eq_left hle, Nat.min_eq_left hhi.le]
  have hcuts : Cuts s ⟨Text.lineStart s lo, Text.lineStop s hi⟩ :=
    ⟨Text.boundary_lineStart _ _, Text.boundary_lineStop _ _⟩
  have hlines : OnLines s ⟨Text.lineStart s lo, Text.lineStop s hi⟩ :=
    ⟨Text.beginsLine_lineStart _ _, Text.endsLine_lineStop _ _⟩
  have htokens : ∀ t ∈ tokenize s, t.Within s := within_of_mem_tokenize
  obtain ⟨n, hloops, hn⟩ := loops_grow htokens hcuts hlines
  have hstart := Text.lineStart_le s lo
  have hstop := Text.le_lineStop hhi.le
  rw [hfirst]
  exact ⟨n, Text.lineStart?_eq hlo, Text.lineStop?_eq hhi, hloops, by dsimp only at hn; omega⟩

/-- The second line of a doc string takes in the first one. -/
theorem widen_selfContained_docString :
    let s : Text := "x = \"\"\"a\nb\"\"\"\nz".toList
    s.Boundary 9 ∧ widen s 9 9 = ⟨0, 13⟩
      ∧ (∃ n, Loops s (tokenize s) n ⟨9, 13⟩ ⟨0, 13⟩) ∧ SelfContained s 9 9 ⟨0, 13⟩ := by
  intro s
  have hcut : s.Boundary 9 :=
    ⟨"x = \"\"\"a\n".toList, "b\"\"\"\nz".toList, by decide, by decide⟩
  have hwiden : widen s 9 9 = ⟨0, 13⟩ := by decide +kernel
  obtain ⟨⟨start, stop, n, hstart, hstop, hloops, -⟩, hself⟩ :=
    widen_selfContained hcut hcut (Nat.le_refl 9)
  have hstart' : Text.lineStart? s 9 = some 9 := by decide
  have hstop' : Text.lineStop? s 9 = some 13 := by decide
  obtain rfl := Option.some.inj (hstart.symm.trans hstart')
  obtain rfl := Option.some.inj (hstop.symm.trans hstop')
  rw [hwiden] at hloops hself
  exact ⟨hcut, hwiden, ⟨n, hloops⟩, hself⟩

end Extent

end ImageScript
