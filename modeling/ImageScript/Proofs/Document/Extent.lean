import ImageScript.Document.Extent
import ImageScript.Proofs.Script.Cutting

/-!
# What widening promises

Widening takes in the given range and stops where no step reaches further. It ends between two
characters and across no token; that no literal reaches over its ends is not promised.

Main statements: `covers_widen`, `step_widen`, `uncrossed_widen`, `tokenize_widen`.
-/

namespace ImageScript

namespace Extent

/-- Whether both ends fall between two characters. -/
structure Cuts (s : Text) (e : Extent) : Prop where
  start : s.Boundary e.start
  stop : s.Boundary e.stop

variable {s : Text} {e : Extent}

theorem Cuts.coverTokens (h : Cuts s e) (ts : List Token) : Cuts s (coverTokens s ts e) := by
  constructor
  · simp only [Extent.coverTokens]
    split
    · split
      · exact Text.boundary_lineStart _ _
      · exact h.start
    · exact h.start
  · simp only [Extent.coverTokens]
    split
    · split
      · exact Text.boundary_lineStop _ _
      · exact h.stop
    · exact h.stop

theorem Cuts.coverBefore (h : Cuts s e) (ts : List Token) : Cuts s (coverBefore s ts e) := by
  unfold Extent.coverBefore
  dsimp only
  split
  · exact ⟨Text.boundary_lineStart _ _, h.stop⟩
  · exact h

theorem Cuts.coverBehind (h : Cuts s e) (ts : List Token) : Cuts s (coverBehind s ts e) := by
  unfold Extent.coverBehind
  dsimp only
  split
  · exact ⟨h.start, Text.boundary_lineStop _ _⟩
  · exact h

theorem Cuts.step (h : Cuts s e) (ts : List Token) : Cuts s (step s ts e) :=
  ((h.coverTokens ts).coverBefore ts).coverBehind ts

/-- Widening goes from one pair of character boundaries to another and never back. -/
theorem grow_spec (s : Text) (ts : List Token) (e : Extent) (h : Cuts s e) :
    Cuts s (grow s ts e) ∧ (grow s ts e).start ≤ e.start ∧ e.stop ≤ (grow s ts e).stop := by
  fun_induction grow s ts e with
  | case1 e hwidens ih =>
    obtain ⟨hcuts, hstart, hstop⟩ := ih (h.step ts)
    obtain ⟨hstart', hstop', -, -⟩ := hwidens
    exact ⟨hcuts, Nat.le_trans hstart hstart', Nat.le_trans hstop' hstop⟩
  | case2 e hwidens => exact ⟨h, Nat.le_refl _, Nat.le_refl _⟩

/-- Whether a range of bytes can be cut out of a text and takes in another range. -/
structure Covers (s : Text) (lo hi : Nat) (e : Extent) : Prop extends Cuts s e where
  start_le : e.start ≤ lo
  le_stop : hi ≤ e.stop
  start_le_stop : e.start ≤ e.stop

theorem covers_widen {s : Text} {lo hi : Nat} (hhi : hi ≤ Text.byteLen s) :
    Covers s lo hi (widen s lo hi) := by
  unfold widen
  dsimp only
  generalize hlo' : min lo (Text.byteLen s) = lo'
  generalize hhi' : min (max hi lo') (Text.byteLen s) = hi'
  obtain ⟨hcuts, hstart, hstop⟩ := grow_spec s (tokenize s)
    ⟨Text.lineStart s lo', Text.lineStop s hi'⟩
    ⟨Text.boundary_lineStart _ _, Text.boundary_lineStop _ _⟩
  have hle := Text.lineStart_le s lo'
  have hle' : hi' ≤ Text.lineStop s hi' := Text.le_lineStop (by omega)
  dsimp only at hstart hstop
  refine ⟨hcuts, ?_, ?_, ?_⟩
  · omega
  · omega
  · omega

/-! ### The last step -/

theorem start_coverTokens_le (s : Text) (ts : List Token) (e : Extent) :
    (coverTokens s ts e).start ≤ e.start := by
  simp only [coverTokens]
  split
  · next t _ =>
    have hle := Text.lineStart_le s t.offset
    split <;> omega
  · exact Nat.le_refl _

theorem le_stop_coverTokens {s : Text} {ts : List Token} (hts : ∀ t ∈ ts, t.Within s)
    (e : Extent) : e.stop ≤ (coverTokens s ts e).stop := by
  simp only [coverTokens]
  split
  · next t ht =>
    have hmem : t ∈ ts := List.takeWhile_subset _ (List.mem_of_getLast? ht)
    have hle := Text.le_lineStop (hts t hmem).stop.le
    split <;> omega
  · exact Nat.le_refl _

theorem coverBefore_le (s : Text) (ts : List Token) (e : Extent) :
    (coverBefore s ts e).start ≤ e.start ∧ (coverBefore s ts e).stop = e.stop := by
  have hle := Text.lineStart_le s (e.start - 1)
  unfold coverBefore
  dsimp only
  split
  · dsimp only
    omega
  · omega

theorem le_coverBehind (s : Text) (ts : List Token) (e : Extent) :
    (coverBehind s ts e).start = e.start ∧ e.stop ≤ (coverBehind s ts e).stop := by
  unfold coverBehind
  dsimp only
  split
  · next h =>
    have hle : e.stop + 1 ≤ Text.lineStop s (e.stop + 1) := Text.le_lineStop h.1
    dsimp only
    omega
  · omega

/-- Where a step does not reach further its first part does not either. -/
theorem coverTokens_eq_of_step {s : Text} {ts : List Token} (hts : ∀ t ∈ ts, t.Within s)
    {e : Extent} (h : step s ts e = e) : coverTokens s ts e = e := by
  have hstart := start_coverTokens_le s ts e
  have hstop := le_stop_coverTokens hts e
  obtain ⟨hbefore, hbefore'⟩ := coverBefore_le s ts (coverTokens s ts e)
  obtain ⟨hbehind, hbehind'⟩ := le_coverBehind s ts (coverBefore s ts (coverTokens s ts e))
  have hstep := congrArg start h
  have hstep' := congrArg stop h
  unfold step at hstep hstep'
  cases hc : coverTokens s ts e with
  | mk a c =>
    rw [hc] at hstart hstop hbefore hbefore' hbehind hbehind' hstep hstep'
    cases e
    simp only [mk.injEq] at *
    omega

/-- Widening stops only where no step reaches further. -/
theorem step_grow {s : Text} {ts : List Token} (hts : ∀ t ∈ ts, t.Within s) {e : Extent}
    (h : Cuts s e) : step s ts (grow s ts e) = grow s ts e := by
  fun_induction grow s ts e with
  | case1 e hwidens ih => exact ih (h.step ts)
  | case2 e hwidens =>
    have hstart := start_coverTokens_le s ts e
    have hstop := le_stop_coverTokens hts e
    obtain ⟨hbefore, hbefore'⟩ := coverBefore_le s ts (coverTokens s ts e)
    obtain ⟨hbehind, hbehind'⟩ := le_coverBehind s ts (coverBefore s ts (coverTokens s ts e))
    have hle := (h.step ts).stop.le
    by_cases heq : step s ts e = e
    · exact heq
    · refine absurd ⟨?_, ?_, hle, heq⟩ hwidens
      · unfold step
        omega
      · unfold step
        omega

theorem find?_of_crosses {ts : List Token} (hts : ts.Pairwise fun t u => t.stop ≤ u.offset)
    {t : Token} {n : Nat} (ht : t ∈ ts) (h : t.Crosses n) : ts.find? (n < ·.stop) = some t := by
  obtain ⟨hlt, hgt⟩ := h
  obtain ⟨before, behind, rfl⟩ := List.append_of_mem ht
  rw [List.find?_eq_some_iff_append]
  refine ⟨by simpa using hgt, before, behind, rfl, ?_⟩
  intro u hu
  have hle := (List.pairwise_append.1 hts).2.2 u hu t (List.mem_cons_self ..)
  simp only [Bool.not_eq_eq_eq_not, Bool.not_true, decide_eq_false_iff_not]
  omega

theorem lastWhile?_of_crosses {ts : List Token} (hts : ts.Pairwise fun t u => t.stop ≤ u.offset)
    (hne : ∀ t ∈ ts, t.offset < t.stop) {t : Token} {n : Nat} (ht : t ∈ ts) (h : t.Crosses n) :
    lastWhile? (·.offset < n) ts = some t := by
  obtain ⟨hlt, hgt⟩ := h
  obtain ⟨before, behind, rfl⟩ := List.append_of_mem ht
  obtain ⟨-, htail, hcross⟩ := List.pairwise_append.1 hts
  have hbefore : ∀ u ∈ before, decide (u.offset < n) = true := by
    intro u hu
    have hle := hcross u hu t (List.mem_cons_self ..)
    have hlt' := hne u (List.mem_append_left _ hu)
    simp only [decide_eq_true_eq]
    omega
  have hbehind : behind.takeWhile (fun u => decide (u.offset < n)) = [] := by
    cases behind with
    | nil => rfl
    | cons u behind =>
      have hle := List.rel_of_pairwise_cons htail (List.mem_cons_self ..)
      rw [List.takeWhile_cons, if_neg (by simp only [decide_eq_true_eq]; omega)]
  unfold lastWhile?
  rw [List.takeWhile_append_of_pos hbefore, List.takeWhile_cons, if_pos (by simpa using hlt),
    hbehind]
  simp

/-- No token lies across an end where widening stops. -/
theorem uncrossed_of_coverTokens {s : Text} {e : Extent}
    (h : coverTokens s (tokenize s) e = e) :
    ∀ t ∈ tokenize s, ¬ t.Crosses e.start ∧ ¬ t.Crosses e.stop := by
  have hts := pairwise_tokenize s
  intro t ht
  constructor
  · intro hcross
    have hstart := congrArg start h
    have hle := Text.lineStart_le s t.offset
    have hlt := hcross.1
    unfold coverTokens at hstart
    dsimp only at hstart
    rw [find?_of_crosses hts ht hcross] at hstart
    dsimp only at hstart
    rw [if_pos hlt] at hstart
    omega
  · intro hcross
    have hstop := congrArg stop h
    have hle := Text.le_lineStop (within_of_mem_tokenize t ht).stop.le
    have hlt := hcross.2
    unfold coverTokens at hstop
    dsimp only at hstop
    rw [lastWhile?_of_crosses hts offset_lt_stop_of_mem_tokenize ht hcross] at hstop
    dsimp only at hstop
    rw [if_pos hlt] at hstop
    omega

theorem step_widen (s : Text) (lo hi : Nat) :
    step s (tokenize s) (widen s lo hi) = widen s lo hi :=
  step_grow within_of_mem_tokenize
    ⟨Text.boundary_lineStart _ _, Text.boundary_lineStop _ _⟩

/-- Widening ends across no token. -/
theorem uncrossed_widen (s : Text) (lo hi : Nat) :
    ∀ t ∈ tokenize s, ¬ t.Crosses (widen s lo hi).start ∧ ¬ t.Crosses (widen s lo hi).stop :=
  uncrossed_of_coverTokens (coverTokens_eq_of_step within_of_mem_tokenize (step_widen s lo hi))

/-- The tokens before, within and behind a widened range are those of the three parts of the text by
themselves. -/
theorem tokenize_widen {s : Text} {lo hi : Nat} (hhi : hi ≤ Text.byteLen s) :
    ∃ a part c, s = a ++ part ++ c ∧ Text.byteLen a = (widen s lo hi).start
      ∧ Text.byteLen (a ++ part) = (widen s lo hi).stop
      ∧ tokenize s = tokenize a ++ (tokenize part).map (Token.shift (Text.byteLen a))
        ++ (tokenize c).map (Token.shift (Text.byteLen (a ++ part))) := by
  have hcovers : Covers s lo hi (widen s lo hi) := covers_widen hhi
  have huncrossed := uncrossed_widen s lo hi
  obtain ⟨x, c, rfl, hstop⟩ := hcovers.stop
  obtain ⟨a, r, hr, hstart⟩ := hcovers.start
  have hle := hcovers.start_le_stop
  obtain ⟨part, rfl⟩ : ∃ part, x = a ++ part := by
    rcases List.append_eq_append_iff.1 hr with ⟨m, rfl, -⟩ | ⟨m, rfl, -⟩
    · rw [Text.byteLen_append] at hstart
      have hm : m = [] := by
        by_cases hm : m = []
        · exact hm
        · have hpos := Text.byteLen_pos hm
          omega
      exact ⟨[], by rw [hm]; simp⟩
    · exact ⟨m, rfl⟩
  have hbehind := tokenize_append (s := a ++ part) (t := c) fun u hu => by
    rw [hstop]
    exact (huncrossed u hu).2
  have hbefore := tokenize_append (s := a) (t := part) fun u hu => by
    rw [hstart]
    refine (huncrossed u ?_).1
    rw [hbehind]
    exact List.mem_append_left _ hu
  exact ⟨a, part, c, rfl, hstart, hstop, by rw [hbehind, hbefore]⟩

end Extent

end ImageScript
