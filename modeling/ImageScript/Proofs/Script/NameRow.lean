import Mathlib.Data.Prod.Lex
import Mathlib.Order.Monotone.Basic
import ImageScript.Proofs.Script.Spelling

/-!
# The row of names

From any name on, the names to try where one is taken form a row without repetition. From the second
name on, a stem ends in a dash and a number as numbers are written; each step counts the number up,
or adds a dash and a number behind it, so that the number of dashes and then the last number grow.
The extension is never touched. Nothing is assumed about the size of the numbers, neither of the one
that a name begins with nor of those that are reached.

Main statements: `ImageName.next_iterate_injective`, `ImageName.isImage_next`, `ImageName.mem_next`.
-/

namespace ImageScript

namespace Text

variable {sep : Char} {s a b : Text}

theorem eq_of_splitLast? (h : splitLast? sep s = some (a, b)) : s = a ++ sep :: b := by
  induction s generalizing a with
  | nil => simp [splitLast?] at h
  | cons c s ih =>
    simp only [splitLast?] at h
    split at h
    · next hs =>
      obtain ⟨rfl, rfl⟩ := Prod.mk.inj (Option.some.inj h)
      rw [ih hs, List.cons_append]
    · split at h
      · next hc =>
        obtain ⟨rfl, rfl⟩ := Prod.mk.inj (Option.some.inj h)
        rw [hc, List.nil_append]
      · simp at h

/-- A text is cut wherever it has the separator. -/
theorem splitLast?_eq_none_iff : splitLast? sep s = none ↔ sep ∉ s := by
  induction s with
  | nil => simp [splitLast?]
  | cons c s ih =>
    rw [splitLast?, List.mem_cons, not_or, ← ih]
    cases splitLast? sep s with
    | some parts => simp
    | none => simp [eq_comm]

/-- A text is cut at a separator that has none behind it. -/
theorem splitLast?_append (a : Text) (h : sep ∉ b) : splitLast? sep (a ++ sep :: b) = some (a, b) := by
  induction a with
  | nil => rw [List.nil_append, splitLast?, splitLast?_eq_none_iff.2 h, if_pos rfl]
  | cons c a ih => rw [List.cons_append, splitLast?, ih]

theorem not_mem_of_splitLast? (h : splitLast? sep s = some (a, b)) : sep ∉ b := by
  induction s generalizing a with
  | nil => simp [splitLast?] at h
  | cons c s ih =>
    simp only [splitLast?] at h
    split at h
    · next hs =>
      obtain ⟨-, rfl⟩ := Prod.mk.inj (Option.some.inj h)
      exact ih hs
    · next hs =>
      split at h
      · obtain ⟨-, rfl⟩ := Prod.mk.inj (Option.some.inj h)
        exact splitLast?_eq_none_iff.1 hs
      · simp at h

theorem not_mem_ofNat {c : Char} (hc : c.isDigit = false) (n : Nat) : c ∉ ofNat n := by
  intro hmem
  rw [isDigit_of_mem_ofNat hmem] at hc
  exact Bool.noConfusion hc

end Text

namespace ImageName

/-! ### Stems -/

/-- A stem that ends in a dash and a number. -/
def numbered (base : Text) (n : Nat) : Text := base ++ '-' :: Text.ofNat n

theorem nextStem_numbered (base : Text) (n : Nat) : nextStem (numbered base n)
    = if n < UInt64.size then numbered base (n + 1) else numbered (numbered base n) 1 := by
  have hcut : Text.splitLast? '-' (numbered base n) = some (base, Text.ofNat n) :=
    Text.splitLast?_append base (Text.not_mem_ofNat (by decide) n)
  simp only [nextStem, hcut, Text.toNat?_ofNat]
  rfl

/-- The next stem is the stem or what stands before its last number, and a number. -/
theorem exists_nextStem_eq (stem : Text) :
    ∃ base n, base <+: stem ∧ nextStem stem = numbered base n := by
  have hfirst : ∃ base n, base <+: stem ∧ stem ++ "-1".toList = numbered base n :=
    ⟨stem, 1, List.prefix_refl stem, rfl⟩
  unfold nextStem
  dsimp only
  split
  · exact hfirst
  · next base digits hcut =>
    split
    · next n _ =>
      split
      · refine ⟨base, n + 1, ?_, rfl⟩
        rw [Text.eq_of_splitLast? hcut]
        exact List.prefix_append base _
      · exact hfirst
    · exact hfirst

theorem mem_numbered {base : Text} {n : Nat} {c : Char} (h : c ∈ numbered base n) :
    c ∈ base ∨ c = '-' ∨ c.isDigit = true := by
  rw [numbered, List.mem_append, List.mem_cons] at h
  exact h.imp_right (Or.imp_right Text.isDigit_of_mem_ofNat)

theorem mem_nextStem {stem : Text} {c : Char} (h : c ∈ nextStem stem) :
    c ∈ stem ∨ c = '-' ∨ c.isDigit = true := by
  obtain ⟨base, n, hbase, heq⟩ := exists_nextStem_eq stem
  rw [heq] at h
  exact (mem_numbered h).imp_left fun hc => hbase.subset hc

theorem dash_mem_nextStem (stem : Text) : '-' ∈ nextStem stem := by
  obtain ⟨base, n, -, heq⟩ := exists_nextStem_eq stem
  rw [heq, numbered]
  exact List.mem_append_right _ List.mem_cons_self

/-- The number of dashes in a stem, and the number behind the last one. -/
def rank (stem : Text) : ℕ ×ₗ ℕ :=
  toLex (stem.count '-', ((Text.splitLast? '-' stem).bind fun parts => Text.toNat? parts.2).getD 0)

theorem rank_numbered (base : Text) (n : Nat) :
    rank (numbered base n) = toLex (base.count '-' + 1, n) := by
  have hcut : Text.splitLast? '-' (numbered base n) = some (base, Text.ofNat n) :=
    Text.splitLast?_append base (Text.not_mem_ofNat (by decide) n)
  have hcount : (numbered base n).count '-' = base.count '-' + 1 := by
    rw [numbered, List.count_append, List.count_cons_self,
      List.count_eq_zero_of_not_mem (Text.not_mem_ofNat (by decide) n)]
  rw [rank, hcut, hcount, Option.bind_some, Text.toNat?_ofNat, Option.getD_some]

/-- Each step from a stem that ends in a number leads to a greater one. -/
theorem rank_lt_nextStem (base : Text) (n : Nat) :
    rank (numbered base n) < rank (nextStem (numbered base n)) := by
  rw [nextStem_numbered]
  split
  · rw [rank_numbered, rank_numbered, Prod.Lex.toLex_lt_toLex]
    exact Or.inr ⟨rfl, Nat.lt_succ_self n⟩
  · rw [rank_numbered, rank_numbered, Prod.Lex.toLex_lt_toLex]
    refine Or.inl ?_
    have hdashes := congrArg (fun r => (ofLex r).1) (rank_numbered base n)
    simp only [rank, ofLex_toLex] at hdashes
    simp only [hdashes]
    exact Nat.lt_succ_self _

/-- From a stem that ends in a number on, no stem comes again. -/
theorem rank_strictMono (base : Text) (n : Nat) :
    StrictMono fun k => rank (nextStem^[k] (numbered base n)) := by
  have hnumbered : ∀ k, ∃ base' n', nextStem^[k] (numbered base n) = numbered base' n' := by
    intro k
    cases k with
    | zero => exact ⟨base, n, rfl⟩
    | succ k =>
      obtain ⟨base', n', -, heq⟩ := exists_nextStem_eq (nextStem^[k] (numbered base n))
      exact ⟨base', n', by rw [Function.iterate_succ_apply', heq]⟩
  refine strictMono_nat_of_lt_succ fun k => ?_
  obtain ⟨base', n', heq⟩ := hnumbered k
  rw [Function.iterate_succ_apply', heq]
  exact rank_lt_nextStem base' n'

/-- No stem comes again. -/
theorem nextStem_iterate_ne (stem : Text) {i j : Nat} (h : i < j) :
    nextStem^[i] stem ≠ nextStem^[j] stem := by
  intro heq
  -- what stands at `j` ends in a number, so that from `i` on the ranks grow
  obtain ⟨d, rfl⟩ := Nat.exists_eq_add_of_lt h
  obtain ⟨base, n, -, hnumbered⟩ := exists_nextStem_eq (nextStem^[i + d] stem)
  rw [Function.iterate_succ_apply', hnumbered] at heq
  have hlater : nextStem^[d + 1] (numbered base n) = numbered base n := by
    rw [← heq, ← Function.iterate_add_apply, Nat.add_right_comm, Nat.add_comm d i,
      Function.iterate_succ_apply', hnumbered, heq]
  have hlt := rank_strictMono base n (Nat.succ_pos d)
  simp only [Function.iterate_zero_apply] at hlt
  rw [hlater] at hlt
  exact lt_irrefl _ hlt

/-! ### Names -/

theorem splitExtension_subset (name : Text) : (splitExtension name).1 ⊆ name := by
  unfold splitExtension
  split
  · next stem ext hsplit =>
    split
    · exact List.Subset.refl _
    · rw [Text.eq_of_splitLast? hsplit]
      exact List.subset_append_left stem _
  · exact List.Subset.refl _

/-- A name made of a stem and an extension. -/
def spell : Text × Option Text → Text
  | (stem, some ext) => stem ++ '.' :: ext
  | (stem, none) => stem

theorem spell_splitExtension (name : Text) : spell (splitExtension name) = name := by
  unfold splitExtension
  split
  · next stem ext hsplit =>
    split
    · rfl
    · exact (Text.eq_of_splitLast? hsplit).symm
  · rfl

theorem next_eq (name : Text) :
    next name = spell (nextStem (splitExtension name).1, (splitExtension name).2) := by
  unfold next spell
  rcases splitExtension name with ⟨stem, _ | ext⟩ <;> rfl

/-- A name has no extension where its only dot is the first character. -/
theorem splitExtension_eq_self {name : Text} (h : '.' ∉ name.tail) :
    splitExtension name = (name, none) := by
  unfold splitExtension
  split
  · next stem ext hsplit =>
    rw [if_pos]
    rw [Text.eq_of_splitLast? hsplit] at h
    cases stem with
    | nil => rfl
    | cons c stem => exact absurd (by simp) h
  · rfl

theorem splitExtension_spell {stem ext : Text} (hstem : stem ≠ []) (hext : '.' ∉ ext) :
    splitExtension (spell (stem, some ext)) = (stem, some ext) := by
  rw [splitExtension, spell, Text.splitLast?_append stem hext]
  exact if_neg hstem

theorem tail_nextStem {stem : Text} (h : '.' ∉ stem.tail) : '.' ∉ (nextStem stem).tail := by
  obtain ⟨base, n, hbase, heq⟩ := exists_nextStem_eq stem
  have hnumber : '.' ∉ '-' :: Text.ofNat n := by
    rw [List.mem_cons, not_or]
    exact ⟨by decide, Text.not_mem_ofNat (by decide) n⟩
  rw [heq, numbered]
  cases base with
  | nil => exact fun hmem => hnumber (List.mem_of_mem_tail hmem)
  | cons c base =>
    obtain ⟨rest, rfl⟩ := hbase
    rw [List.cons_append, List.tail_cons, List.mem_append, not_or]
    exact ⟨fun hmem => h (List.mem_append_left rest hmem), hnumber⟩

/-- The next name has the next stem and the same extension. -/
theorem splitExtension_next (name : Text) :
    splitExtension (next name) = (nextStem (splitExtension name).1, (splitExtension name).2) := by
  have hstem : nextStem (splitExtension name).1 ≠ [] := List.ne_nil_of_mem (dash_mem_nextStem _)
  rw [next_eq]
  revert hstem
  unfold splitExtension
  split
  · next stem ext hsplit =>
    have hext := Text.not_mem_of_splitLast? hsplit
    split
    · next hnil =>
      intro _
      have htail : '.' ∉ name.tail := by
        rw [Text.eq_of_splitLast? hsplit, hnil]
        exact hext
      exact splitExtension_eq_self (tail_nextStem htail)
    · exact fun hstem => splitExtension_spell hstem hext
  · next hnone =>
    intro _
    have hdot := Text.splitLast?_eq_none_iff.1 hnone
    exact splitExtension_eq_self (tail_nextStem fun hmem => hdot (List.mem_of_mem_tail hmem))

theorem splitExtension_iterate (name : Text) (k : Nat) : splitExtension (next^[k] name)
    = (nextStem^[k] (splitExtension name).1, (splitExtension name).2) := by
  induction k with
  | zero => rfl
  | succ k ih => rw [Function.iterate_succ_apply', splitExtension_next, ih,
      Function.iterate_succ_apply']

/-- No name comes again in the row of names. -/
theorem next_iterate_injective (name : Text) : Function.Injective fun k => next^[k] name := by
  have hne : ∀ i j, i < j → next^[i] name ≠ next^[j] name := by
    intro i j hij heq
    have hstems := congrArg (fun n => (splitExtension n).1) heq
    simp only [splitExtension_iterate] at hstems
    exact nextStem_iterate_ne _ hij hstems
  intro i j heq
  rcases Nat.lt_trichotomy i j with hij | hij | hij
  · exact absurd heq (hne i j hij)
  · exact hij
  · exact absurd heq.symm (hne j i hij)

/-- The next name is made of the characters of the name, dashes and digits. -/
theorem mem_next {name : Text} {c : Char} (h : c ∈ next name) :
    c ∈ name ∨ c = '-' ∨ c.isDigit = true := by
  have hname := spell_splitExtension name
  have hsubset := splitExtension_subset name
  rw [next_eq] at h
  rcases hsplit : splitExtension name with ⟨stem, _ | ext⟩
  all_goals rw [hsplit] at h hname hsubset
  · exact (mem_nextStem h).imp_left fun hc => hsubset hc
  · rcases List.mem_append.1 h with h | h
    · exact (mem_nextStem h).imp_left fun hc => hsubset hc
    · rw [← hname]
      exact Or.inl (List.mem_append_right _ h)

theorem dash_mem_next (name : Text) : '-' ∈ next name := by
  rw [next_eq]
  rcases splitExtension name with ⟨stem, _ | ext⟩
  · exact dash_mem_nextStem stem
  · exact List.mem_append_left _ (dash_mem_nextStem stem)

/-- Behind the name of an image stand names of images. -/
theorem isImage_next {name : Text} (h : isImage name = true) : isImage (next name) = true := by
  unfold isImage at h
  split at h
  · next stem ext hsplit =>
    rw [Bool.and_eq_true, decide_eq_true_eq] at h
    have hparts : splitExtension name = (stem, some ext) := by
      rw [splitExtension, hsplit]
      exact if_neg h.1
    have hcut : Text.splitLast? '.' (next name) = some (nextStem stem, ext) := by
      rw [next_eq, hparts]
      exact Text.splitLast?_append _ (Text.not_mem_of_splitLast? hsplit)
    rw [isImage, hcut, Bool.and_eq_true, decide_eq_true_eq]
    exact ⟨List.ne_nil_of_mem (dash_mem_nextStem stem), h.2⟩
  · simp at h

end ImageName

end ImageScript
