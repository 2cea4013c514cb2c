import Mathlib.Data.List.Forall2
import ImageScript.Proofs.Script.Taking

/-!
# Rewritten literals

In one row of tokens some literals of another row are written anew; the other tokens look the same.
What the scan looks for behind a literal, and whether a place holds a literal at all, is the same in
both rows, unless a bare name was put between the parentheses of `Pattern( )`.

Main statements: `Rewrites.read?`, `Rewrites.here?_eq_none`.
-/

namespace ImageScript

/-- Whether two tokens look alike, wherever they stand. -/
structure Token.Looks (t t' : Token) : Prop where
  kind_eq : t'.kind = t.kind
  text_eq : t'.text = t.text

namespace Token.Looks

variable {t t' : Token}

theorem is_eq (h : t.Looks t') (word : String) : t'.is word = t.is word := by
  simp only [is, h.kind_eq, h.text_eq]

theorem isDoubleQuoted_eq (h : t.Looks t') : t'.isDoubleQuoted = t.isDoubleQuoted := by
  simp only [isDoubleQuoted, h.kind_eq, h.text_eq]

theorem content?_eq (h : t.Looks t') : t'.content? = t.content? := by
  simp only [content?, h.kind_eq, h.text_eq]

theorem imageName?_eq (h : t.Looks t') : Recognition.imageName? t' = Recognition.imageName? t := by
  simp only [Recognition.imageName?, h.content?_eq]

theorem quoted?_eq (h : t.Looks t') : Recognition.quoted? t' = Recognition.quoted? t := by
  simp only [Recognition.quoted?, h.content?_eq, h.imageName?_eq]

theorem shift (t : Token) (a b : Nat) : (t.shift a).Looks (t.shift b) := ⟨rfl, rfl⟩

end Token.Looks

namespace Recognition

open CallArguments

/-- Tokens that make up an image literal. -/
structure Block (us : List Token) : Prop where
  balanced : Balanced us
  shape : ∃ l, Shape l us

theorem Covers.toBlock {us : List Token} {m : Match} (h : Covers us m) : Block us :=
  ⟨h.balanced, m.literal, h.shape⟩

theorem int?_of_length {arg : List Token} (h : 3 ≤ arg.length) : int? arg = none := by
  match arg with
  | [] | [_] | [_, _] => simp at h
  | _ :: _ :: _ :: _ => rfl

namespace Block

variable {us : List Token}

/-- A literal is a string in double quotes or the beginning of a call. -/
theorem cases (h : Block us) : (∃ t, us = [t] ∧ t.isDoubleQuoted = true)
    ∨ ∃ head a b rest, us = head :: a :: b :: rest
      ∧ (head.is "Pattern" = true ∨ head.is "Region" = true) := by
  obtain ⟨-, l, hl⟩ := h
  cases l with
  | marker =>
    obtain ⟨t, rfl, hquoted, -⟩ := hl
    exact Or.inl ⟨t, rfl, hquoted⟩
  | fileName name =>
    obtain ⟨t, rfl, hquoted, -⟩ := hl
    exact Or.inl ⟨t, rfl, hquoted⟩
  | chain p =>
    obtain ⟨head, a, b, rest, rfl, hhead⟩ := hl
    exact Or.inr ⟨head, a, b, rest, rfl, Or.inl hhead⟩
  | region r =>
    obtain ⟨head, a, b, rest, rfl, hhead⟩ := hl
    exact Or.inr ⟨head, a, b, rest, rfl, Or.inr hhead⟩

theorem exists_head (h : Block us) : ∃ head rest, us = head :: rest ∧ head.opens = true := by
  rcases h.cases with ⟨t, rfl, hquoted⟩ | ⟨head, a, b, rest, rfl, hhead⟩
  · exact ⟨t, [], rfl, by simp [Token.opens, hquoted]⟩
  · refine ⟨head, a :: b :: rest, rfl, ?_⟩
    rcases hhead with hhead | hhead <;> simp [Token.opens, hhead]

/-- An argument with a literal in it is no number. -/
theorem int?_eq_none (h : Block us) (before behind : List Token) :
    int? (before ++ us ++ behind) = none := by
  rcases h.cases with ⟨t, rfl, hquoted⟩ | ⟨head, a, b, rest, rfl, -⟩
  · have hkind := Token.kind_of_isDoubleQuoted hquoted
    have hsign := Token.is_of_isDoubleQuoted hquoted
    have hdigits : Text.toNat? t.text = none := by
      simp only [Token.isDoubleQuoted, Bool.and_eq_true, decide_eq_true_eq] at hquoted
      obtain ⟨r, hr⟩ := List.head?_eq_some_iff.1 hquoted.2
      simp [Text.toNat?, hr]
    rcases before with _ | ⟨c, _ | ⟨_, before⟩⟩
    · rcases behind with _ | ⟨d, _ | _⟩
      · simp [int?, signedNumber?, hkind]
      · simp [int?, signedNumber?, hsign]
      · rfl
    · rcases behind with _ | _
      · simp only [int?, signedNumber?, List.cons_append, List.nil_append]
        split
        · simp [hdigits]
        · split <;> simp [hdigits]
      · rfl
    · exact int?_of_length (by simp; omega)
  · exact int?_of_length (by simp; omega)

end Block

/-- Whether two arguments are the same for a number: they look alike, or both hold a literal. -/
def Alike (arg arg' : List Token) : Prop :=
  List.Forall₂ Token.Looks arg arg'
    ∨ (∃ before us behind, arg = before ++ us ++ behind ∧ Block us)
      ∧ ∃ before us behind, arg' = before ++ us ++ behind ∧ Block us

namespace Alike

variable {arg arg' : List Token}

theorem cons {t t' : Token} (hlooks : t.Looks t') (h : Alike arg arg') :
    Alike (t :: arg) (t' :: arg') := by
  rcases h with h | ⟨⟨before, us, behind, rfl, hus⟩, before', us', behind', rfl, hus'⟩
  · exact Or.inl (.cons hlooks h)
  · exact Or.inr ⟨⟨t :: before, us, behind, rfl, hus⟩, t' :: before', us', behind', rfl, hus'⟩

theorem block {us us' : List Token} (hus : Block us) (hus' : Block us') (arg arg' : List Token) :
    Alike (us ++ arg) (us' ++ arg') :=
  Or.inr ⟨⟨[], us, arg, rfl, hus⟩, [], us', arg', rfl, hus'⟩

theorem eq_nil_iff (h : Alike arg arg') : arg = [] ↔ arg' = [] := by
  rcases h with h | ⟨⟨before, us, behind, rfl, hus⟩, before', us', behind', rfl, hus'⟩
  · cases h <;> simp
  · obtain ⟨head, rest, rfl, -⟩ := hus.exists_head
    obtain ⟨head', rest', rfl, -⟩ := hus'.exists_head
    simp

theorem int?_eq (h : Alike arg arg') : int? arg' = int? arg := by
  rcases h with h | ⟨⟨before, us, behind, rfl, hus⟩, before', us', behind', rfl, hus'⟩
  · cases h with
    | nil => rfl
    | cons ht h =>
      cases h with
      | nil => simp only [int?, signedNumber?, ht.kind_eq, ht.text_eq]
      | cons ht' h =>
        cases h with
        | nil => simp only [int?, signedNumber?, ht.is_eq, ht'.text_eq]
        | cons _ _ => rfl
  · rw [hus.int?_eq_none, hus'.int?_eq_none]

end Alike

/-- Two rows of tokens, where some literals of the first one are written anew in the second. A bare
name is put only in the place of a string that names an image, or of a literal that is allowed to
become one. -/
inductive Rewrites (P : Literal → Prop) : List Token → List Token → Prop
  | nil : Rewrites P [] []
  | keep {t t' : Token} {ts ts' : List Token} (looks : t.Looks t') (rest : Rewrites P ts ts') :
    Rewrites P (t :: ts) (t' :: ts')
  | swap {us us' ts ts' : List Token} (source : Block us) (target : Block us')
    (name : ∀ w, us' = [w] → (imageName? w).isSome → (∃ u, us = [u] ∧ (imageName? u).isSome)
      ∨ ∃ m, here? (us ++ ts) = some ⟨.literal m, ts⟩ ∧ P m.literal)
    (rest : Rewrites P ts ts') : Rewrites P (us ++ ts) (us' ++ ts')

namespace Rewrites

variable {P : Literal → Prop} {ts ts' : List Token}

theorem keepAll {f f' : Token → Token} {us : List Token} (h : Rewrites P ts ts')
    (hlooks : ∀ u ∈ us, (f u).Looks (f' u)) : Rewrites P (us.map f ++ ts) (us.map f' ++ ts') := by
  induction us with
  | nil => exact h
  | cons u us ih =>
    exact .keep (hlooks u (List.mem_cons_self ..))
      (ih fun v hv => hlooks v (List.mem_cons_of_mem _ hv))

/-- A token that cannot begin a literal was there before. -/
theorem exists_keep {t' : Token} (h : Rewrites P ts (t' :: ts')) (hopens : t'.opens = false) :
    ∃ t us, ts = t :: us ∧ t.Looks t' ∧ Rewrites P us ts' := by
  generalize hrow : t' :: ts' = row at h
  cases h with
  | nil => cases hrow
  | keep looks rest =>
    cases hrow
    exact ⟨_, _, rfl, looks, rest⟩
  | swap source target name rest =>
    obtain ⟨head, us, rfl, hhead⟩ := target.exists_head
    cases hrow
    rw [hopens] at hhead
    simp at hhead

theorem exists_of_is {t' : Token} {word : String} (h : Rewrites P ts (t' :: ts'))
    (hword : t'.is word = true) (hp : word ≠ "Pattern") (hr : word ≠ "Region") :
    ∃ t us, ts = t :: us ∧ t.is word = true ∧ Rewrites P us ts' := by
  obtain ⟨t, us, rfl, hlooks, hrest⟩ := h.exists_keep (Token.opens_of_is hword hp hr)
  exact ⟨t, us, rfl, by rw [← hlooks.is_eq, hword], hrest⟩

/-- No suffix call comes to stand behind a chain. -/
theorem suffixCall?_eq_none (h : Rewrites P ts ts') (hnone : suffixCall? ts = none) :
    suffixCall? ts' = none := by
  rw [Option.eq_none_iff_forall_ne_some]
  rintro ⟨suffix, name', opening', rest'⟩ hsome
  obtain ⟨dot', rfl, hdot, hname, hopening, -⟩ := exists_of_suffixCall? hsome
  obtain ⟨dot, us, rfl, hdot, h⟩ := h.exists_of_is hdot (by decide) (by decide)
  obtain ⟨name, us, rfl, hname, h⟩ := h.exists_of_is hname (by cases suffix <;> decide)
    (by cases suffix <;> decide)
  obtain ⟨opening, us, rfl, hopening, h⟩ := h.exists_of_is hopening (by decide) (by decide)
  have hmem : suffix ∈ Suffix.all := by cases suffix <;> decide
  simp only [suffixCall?, hdot, hopening, Bool.and_self, if_true, Option.map_eq_none_iff,
    List.find?_eq_none] at hnone
  exact hnone suffix hmem hname

/-- No marker call comes to stand behind a region. -/
theorem asOffset?_eq_none (h : Rewrites P ts ts') (hnone : asOffset? ts = none) :
    asOffset? ts' = none := by
  rw [Option.eq_none_iff_forall_ne_some]
  rintro ⟨stop, rest'⟩ hsome
  obtain ⟨dot', name', opening', close', rfl, hdot, hname, hopening, hclose, -⟩ :=
    exists_of_asOffset? hsome
  obtain ⟨dot, us, rfl, hdot, h⟩ := h.exists_of_is hdot (by decide) (by decide)
  obtain ⟨name, us, rfl, hname, h⟩ := h.exists_of_is hname (by decide) (by decide)
  obtain ⟨opening, us, rfl, hopening, h⟩ := h.exists_of_is hopening (by decide) (by decide)
  obtain ⟨close, us, rfl, hclose, h⟩ := h.exists_of_is hclose (by decide) (by decide)
  rw [asOffset?_of_is hdot hname hopening hclose] at hnone
  simp at hnone

/-- A call is closed in both rows or in neither, and its arguments hold the same numbers. -/
theorem readTail? (h : Rewrites P ts ts') (depth : Nat) :
    Option.Rel (fun r r' => Alike r.head r'.head ∧ List.Forall₂ Alike r.others r'.others)
      (CallArguments.readTail? depth ts) (CallArguments.readTail? depth ts') := by
  induction h generalizing depth with
  | nil => exact .none
  | @keep t t' ts ts' looks rest ih =>
    simp only [CallArguments.readTail?, looks.is_eq]
    split
    · exact .some ⟨Or.inl .nil, .nil⟩
    · split
      · have htail := ih 0
        generalize CallArguments.readTail? 0 ts = r, CallArguments.readTail? 0 ts' = r' at htail ⊢
        cases htail with
        | none => exact .none
        | some hr => exact .some ⟨Or.inl .nil, .cons hr.1 hr.2⟩
      · generalize (if t.is "(" then depth + 1 else if t.is ")" then depth - 1 else depth) = inner
        have htail := ih inner
        generalize CallArguments.readTail? inner ts = r,
          CallArguments.readTail? inner ts' = r' at htail ⊢
        cases htail with
        | none => exact .none
        | some hr => exact .some ⟨hr.1.cons looks, hr.2⟩
  | @swap us us' ts ts' source target name rest ih =>
    rw [source.balanced, target.balanced]
    have htail := ih depth
    generalize CallArguments.readTail? depth ts = r,
      CallArguments.readTail? depth ts' = r' at htail ⊢
    cases htail with
    | none => exact .none
    | some hr => exact .some ⟨.block source target _ _, hr.2⟩

theorem read? (h : Rewrites P ts ts') :
    Option.Rel (fun a a' => a'.groups.map int? = a.groups.map int?)
      (CallArguments.read? ts) (CallArguments.read? ts') := by
  have hnumbers : ∀ {as as' : List (List Token)}, List.Forall₂ Alike as as' →
      as'.map int? = as.map int? := by
    intro as as' has
    induction has with
    | nil => rfl
    | cons ha _ ih => rw [List.map_cons, List.map_cons, ha.int?_eq, ih]
  unfold CallArguments.read?
  have htail := h.readTail? 0
  generalize CallArguments.readTail? 0 ts = r, CallArguments.readTail? 0 ts' = r' at htail ⊢
  cases htail with
  | none => exact .none
  | @some r r' hr =>
    obtain ⟨hhead, hothers⟩ := hr
    refine .some ?_
    have hnil : r'.others = [] ↔ r.others = [] := by
      rw [← List.length_eq_zero_iff, ← List.length_eq_zero_iff, hothers.length_eq]
    simp only [hhead.eq_nil_iff, hnil]
    split
    · rfl
    · exact hnumbers (.cons hhead hothers)

/-- Whether a chain that begins with `head` would come to stand around a literal. -/
def Encloses (head : Token) (ts : List Token) (m : Match) : Prop :=
  ∃ opening us close rest, ts = opening :: us ∧ head.is "Pattern" = true ∧ opening.is "(" = true
    ∧ here? us = some ⟨.literal m, close :: rest⟩ ∧ close.is ")" = true

/-- Where a chain comes to stand, a literal began before, unless the chain stands around a bare
name. -/
theorem exists_reads_of_chain {t opening' name' close' : Token} {image : Text}
    (h : Rewrites P ts (opening' :: name' :: close' :: ts')) (hhead : t.is "Pattern" = true)
    (hopening : opening'.is "(" = true) (himage : imageName? name' = some image)
    (hclose : close'.is ")" = true) (hbare : ∀ m, P m.literal → ¬ Encloses t ts m) :
    ∃ s, Reads (t :: ts) s := by
  obtain ⟨opening, us, rfl, hopening, h⟩ := h.exists_of_is hopening (by decide) (by decide)
  -- A chain with a name between its parentheses was one before.
  have hchain : ∀ {name close : Token} {rest : List Token}, us = name :: close :: rest →
      (imageName? name).isSome → close.is ")" = true → ∃ s, Reads (t :: opening :: us) s := by
    rintro name close rest rfl hname hclose
    obtain ⟨image, himage⟩ := Option.isSome_iff_exists.1 hname
    exact ⟨_, .chain hhead hopening himage hclose rfl⟩
  generalize hrow : name' :: close' :: ts' = row at h
  cases h with
  | nil => cases hrow
  | keep looks rest =>
    cases hrow
    obtain ⟨close, us, rfl, hclose, -⟩ := rest.exists_of_is hclose (by decide) (by decide)
    exact hchain rfl (by rw [← looks.imageName?_eq, himage]; rfl) hclose
  | swap source target name rest =>
    rcases target.cases with ⟨w, rfl, -⟩ | ⟨head, a, b, behind, rfl, hhead'⟩
    · cases hrow
      obtain ⟨close, us, rfl, hclose, -⟩ := rest.exists_of_is hclose (by decide) (by decide)
      rcases name name' rfl (by rw [himage]; rfl) with ⟨u, rfl, hu⟩ | ⟨m, hm, hP⟩
      · exact hchain rfl hu hclose
      · exact absurd ⟨opening, _, close, us, rfl, hhead, hopening, hm, hclose⟩ (hbare m hP)
    · cases hrow
      have hkind := kind_of_imageName? himage
      rcases hhead' with hhead' | hhead' <;> simp [Token.kind_of_is hhead'] at hkind

/-- Where a region comes to stand, one began before. -/
theorem exists_reads_of_region {t opening' : Token} {args' : CallArguments} {x y w z : Int32}
    (h : Rewrites P ts (opening' :: ts')) (hhead : t.is "Region" = true)
    (hopening : opening'.is "(" = true) (hcall : CallArguments.read? ts' = some args')
    (hnumbers : args'.groups.map int? = [some x, some y, some w, some z]) :
    ∃ s, Reads (t :: ts) s := by
  obtain ⟨opening, us, rfl, hopening, h⟩ := h.exists_of_is hopening (by decide) (by decide)
  have hread := h.read?
  rw [hcall] at hread
  generalize hargs : CallArguments.read? us = found at hread
  cases hread with
  | some hgroups => exact exists_reads_of_numbers hhead hopening hargs (hgroups.symm.trans hnumbers)

/-- A place without a literal stays one, unless a bare name comes to stand in a chain. -/
theorem here?_eq_none {t t' : Token} (h : Rewrites P ts ts') (hlooks : t.Looks t')
    (hnone : here? (t :: ts) = none) (hbare : ∀ m, P m.literal → ¬ Encloses t ts m) :
    here? (t' :: ts') = none := by
  have hbefore : ¬ ∃ s, Reads (t :: ts) s := by
    rintro ⟨s, hs⟩
    rw [here?_of_reads hs] at hnone
    cases hnone
  rw [Option.eq_none_iff_forall_ne_some]
  intro s hsome
  refine hbefore ?_
  cases reads_of_here? hsome with
  | quoted quoted literal =>
    rw [hlooks.quoted?_eq] at literal
    exact ⟨_, .quoted (hlooks.isDoubleQuoted_eq ▸ quoted) literal⟩
  | chain head_word opening_sign content close_sign =>
    rw [hlooks.is_eq] at head_word
    exact h.exists_reads_of_chain head_word opening_sign content close_sign hbare
  | region head_word opening_sign call numbers =>
    rw [hlooks.is_eq] at head_word
    exact h.exists_reads_of_region head_word opening_sign call numbers
  | offset head_word opening_sign call numbers =>
    rw [hlooks.is_eq] at head_word
    exact h.exists_reads_of_region head_word opening_sign call numbers

/-- What ends before some tokens ends before the rewritten ones. -/
theorem ends {f : Finding} (h : Rewrites P ts ts') (hends : f.Ends ts) : f.Ends ts' := by
  cases f with
  | literal m =>
    obtain ⟨start, stop, l⟩ := m
    cases l with
    | marker => trivial
    | fileName name => trivial
    | chain p => exact h.suffixCall?_eq_none hends
    | region r => exact Or.imp_right h.asOffset?_eq_none hends
  | rejected e =>
    cases e with
    | unclosed pos suffix =>
      have hread := h.read?
      rw [show CallArguments.read? ts = none from hends] at hread
      simp only [Finding.Ends]
      generalize CallArguments.read? ts' = a' at hread ⊢
      cases hread
      rfl
    | malformedArgument => trivial
    | wrongArity => trivial
    | outOfRange => trivial

end Rewrites

end Recognition

end ImageScript
