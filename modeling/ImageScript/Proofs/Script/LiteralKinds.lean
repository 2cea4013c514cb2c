import ImageScript.Script.Recognition

/-!
# The kinds of literals

The first token of an image literal tells which kind it can be: a string in double quotes is one by
itself, and `Pattern` and `Region` begin a call. `Reads` is a step of the scan as a relation, with a
rule for each form that is found, so that what a step does is proved rule by rule.

Main statement: `Recognition.here?_eq_some_iff_reads`.
-/

namespace ImageScript

namespace Token

variable {t : Token}

theorem text_of_is {word : String} (h : t.is word = true) : t.text = word.toList := by
  simp only [is, Bool.and_eq_true, decide_eq_true_eq] at h
  exact h.2

theorem kind_of_is {word : String} (h : t.is word = true) : t.kind = .other := by
  simp only [is, Bool.and_eq_true, decide_eq_true_eq] at h
  exact h.1

/-- A token is one word only. -/
theorem is_eq_false {a b : String} (h : t.is a = true) (hne : a ≠ b) : t.is b = false := by
  refine Bool.eq_false_iff.2 fun h' => hne ?_
  exact String.toList_inj.1 ((text_of_is h).symm.trans (text_of_is h'))

theorem isDoubleQuoted_of_is {word : String} (h : t.is word = true) : t.isDoubleQuoted = false := by
  simp [isDoubleQuoted, kind_of_is h]

theorem kind_of_isDoubleQuoted (h : t.isDoubleQuoted = true) : t.kind = .string := by
  simp only [isDoubleQuoted, Bool.and_eq_true, decide_eq_true_eq] at h
  exact h.1

theorem is_of_isDoubleQuoted (h : t.isDoubleQuoted = true) (word : String) : t.is word = false := by
  refine Bool.eq_false_iff.2 fun h' => ?_
  rw [isDoubleQuoted_of_is h'] at h
  simp at h

/-- Whether an image literal can begin with a token. -/
def opens (t : Token) : Bool := t.isDoubleQuoted || t.is "Pattern" || t.is "Region"

theorem opens_of_is {word : String} (h : t.is word = true) (hp : word ≠ "Pattern")
    (hr : word ≠ "Region") : t.opens = false := by
  simp [opens, isDoubleQuoted_of_is h, is_eq_false h hp, is_eq_false h hr]

end Token

namespace Recognition

/-! ### The first token -/

section

variable {head : Token}

theorem marker?_of_not_quoted (h : head.isDoubleQuoted = false) (ts : List Token) :
    marker? (head :: ts) = none := by simp [marker?, h]

theorem fileName?_of_not_quoted (h : head.isDoubleQuoted = false) (ts : List Token) :
    fileName? (head :: ts) = none := by simp [fileName?, h]

theorem chain?_of_not_pattern (h : head.is "Pattern" = false) (ts : List Token) :
    chain? (head :: ts) = none := by
  unfold chain?
  split
  · next heq =>
    obtain ⟨rfl, -⟩ := List.cons.inj heq
    simp [h]
  · rfl

theorem region?_of_not_region (h : head.is "Region" = false) (ts : List Token) :
    region? (head :: ts) = none := by
  unfold region?
  split
  · next heq =>
    obtain ⟨rfl, -⟩ := List.cons.inj heq
    simp [h]
  · rfl

theorem here?_nil : here? [] = none := rfl

theorem here?_of_pattern (h : head.is "Pattern" = true) (ts : List Token) :
    here? (head :: ts) = chain? (head :: ts) := by
  have hquoted := Token.isDoubleQuoted_of_is h
  have hregion := Token.is_eq_false h (show "Pattern" ≠ "Region" by decide)
  simp [here?, marker?_of_not_quoted hquoted, fileName?_of_not_quoted hquoted,
    region?_of_not_region hregion]

theorem here?_of_region (h : head.is "Region" = true) (ts : List Token) :
    here? (head :: ts) = region? (head :: ts) := by
  have hquoted := Token.isDoubleQuoted_of_is h
  have hpattern := Token.is_eq_false h (show "Region" ≠ "Pattern" by decide)
  simp [here?, marker?_of_not_quoted hquoted, fileName?_of_not_quoted hquoted,
    chain?_of_not_pattern hpattern]

/-- The literal that a string in double quotes is by itself. -/
def quoted? (t : Token) : Option Literal :=
  if t.content? = some captureMarker then some .marker else (imageName? t).map .fileName

theorem here?_of_quoted (h : head.isDoubleQuoted = true) (ts : List Token) :
    here? (head :: ts) =
      (quoted? head).map fun l => ⟨.literal ⟨head.offset, head.stop, l⟩, ts⟩ := by
  have hpattern := chain?_of_not_pattern (Token.is_of_isDoubleQuoted h "Pattern") ts
  have hregion := region?_of_not_region (Token.is_of_isDoubleQuoted h "Region") ts
  simp only [here?, hpattern, hregion, marker?, fileName?, quoted?, h, true_and]
  by_cases hmarker : head.content? = some captureMarker
  · simp [hmarker]
  · simp [hmarker, Function.comp_def]

theorem here?_of_not_opens (h : head.opens = false) (ts : List Token) :
    here? (head :: ts) = none := by
  simp only [Token.opens, Bool.or_eq_false_iff] at h
  obtain ⟨⟨hquoted, hpattern⟩, hregion⟩ := h
  simp [here?, marker?_of_not_quoted hquoted, fileName?_of_not_quoted hquoted,
    chain?_of_not_pattern hpattern, region?_of_not_region hregion]

theorem cases_of_quoted? {l : Literal} (h : quoted? head = some l) :
    l = .marker ∧ head.content? = some captureMarker
      ∨ ∃ name, l = .fileName name ∧ imageName? head = some name := by
  unfold quoted? at h
  split at h
  · next hmarker => exact Or.inl ⟨(Option.some.inj h).symm, hmarker⟩
  · obtain ⟨name, hname, rfl⟩ := Option.map_eq_some_iff.1 h
    exact Or.inr ⟨name, rfl, hname⟩

end

/-! ### Calls -/

section

variable {ts rest : List Token}

theorem exists_of_suffixCall? {suffix : Suffix} {name opening : Token}
    (h : suffixCall? ts = some (suffix, name, opening, rest)) :
    ∃ dot, ts = dot :: name :: opening :: rest ∧ dot.is "." = true ∧ name.is suffix.name = true
      ∧ opening.is "(" = true
      ∧ ∀ rest', suffixCall? (dot :: name :: opening :: rest') = some (suffix, name, opening, rest') := by
  match ts with
  | [] | [_] | [_, _] => simp [suffixCall?] at h
  | dot :: name' :: opening' :: rest' =>
    simp only [suffixCall?] at h
    split at h
    · next hsigns =>
      obtain ⟨s, hs, heq⟩ := Option.map_eq_some_iff.1 h
      simp only [Prod.mk.injEq] at heq
      obtain ⟨rfl, rfl, rfl, rfl⟩ := heq
      have hname := List.find?_some hs
      simp only [Bool.and_eq_true] at hsigns
      refine ⟨dot, rfl, hsigns.1, hname, hsigns.2, fun rest' => ?_⟩
      simp [suffixCall?, hsigns, hs]
    · simp at h

/-- The marker call of a region is read alike whatever follows it. -/
theorem exists_of_asOffset? {stop : Nat} (h : asOffset? ts = some (stop, rest)) :
    ∃ dot name opening close, ts = dot :: name :: opening :: close :: rest ∧ dot.is "." = true
      ∧ name.is "asOffset" = true ∧ opening.is "(" = true ∧ close.is ")" = true
      ∧ stop = close.stop := by
  match ts with
  | [] | [_] | [_, _] | [_, _, _] => simp [asOffset?] at h
  | dot :: name :: opening :: close :: ts =>
    simp only [asOffset?] at h
    split at h
    · next hsigns =>
      simp only [Option.some.injEq, Prod.mk.injEq] at h
      obtain ⟨rfl, rfl⟩ := h
      simp only [Bool.and_eq_true] at hsigns
      obtain ⟨⟨⟨hdot, hname⟩, hopening⟩, hclose⟩ := hsigns
      exact ⟨dot, name, opening, close, rfl, hdot, hname, hopening, hclose, rfl⟩
    · simp at h

theorem asOffset?_of_is {dot name opening close : Token} (hdot : dot.is "." = true)
    (hname : name.is "asOffset" = true) (hopening : opening.is "(" = true)
    (hclose : close.is ")" = true) (ts : List Token) :
    asOffset? (dot :: name :: opening :: close :: ts) = some (close.stop, ts) := by
  simp [asOffset?, hdot, hname, hopening, hclose]

end

/-! ### Whole steps -/

/-- A step of the scan at the head of some tokens, with a rule for each form that is found there. -/
inductive Reads : List Token → Step → Prop where
  | quoted {t : Token} {ts : List Token} {l : Literal} (quoted : t.isDoubleQuoted = true)
      (literal : quoted? t = some l) : Reads (t :: ts) ⟨.literal ⟨t.offset, t.stop, l⟩, ts⟩
  | chain {head opening name close : Token} {ts : List Token} {image : Text} {s : Step}
      (head_word : head.is "Pattern" = true) (opening_sign : opening.is "(" = true)
      (content : imageName? name = some image) (close_sign : close.is ")" = true)
      (suffixes : readSuffixes head.offset (.bare image) close.stop ts = s) :
      Reads (head :: opening :: name :: close :: ts) s
  | region {head opening : Token} {ts : List Token} {args : CallArguments} {x y w h : Int32}
      (head_word : head.is "Region" = true) (opening_sign : opening.is "(" = true)
      (call : CallArguments.read? ts = some args)
      (numbers : args.groups.map int? = [some x, some y, some w, some h])
      (plain : asOffset? args.rest = none) :
      Reads (head :: opening :: ts)
        ⟨.literal ⟨head.offset, args.close.stop, .region ⟨x, y, w, h, false⟩⟩, args.rest⟩
  | offset {head opening : Token} {ts rest : List Token} {args : CallArguments} {x y w h : Int32}
      {stop : Nat} (head_word : head.is "Region" = true) (opening_sign : opening.is "(" = true)
      (call : CallArguments.read? ts = some args)
      (numbers : args.groups.map int? = [some x, some y, some w, some h])
      (marker : asOffset? args.rest = some (stop, rest)) :
      Reads (head :: opening :: ts)
        ⟨.literal ⟨head.offset, stop, .region ⟨x, y, w, h, true⟩⟩, rest⟩

section

variable {head opening : Token} {ts : List Token} {s : Step}

theorem reads_of_chain? (h : chain? ts = some s) : Reads ts s := by
  unfold chain? at h
  split at h
  · split at h
    · next hsigns =>
      simp only [Bool.and_eq_true] at hsigns
      obtain ⟨⟨hhead, hopening⟩, hclose⟩ := hsigns
      obtain ⟨image, hcontent, hsuffixes⟩ := Option.map_eq_some_iff.1 h
      exact .chain hhead hopening hcontent hclose hsuffixes
    · cases h
  · cases h

theorem reads_of_region? (h : region? ts = some s) : Reads ts s := by
  unfold region? at h
  split at h
  · split at h
    · next hsigns =>
      simp only [Bool.and_eq_true] at hsigns
      obtain ⟨args, hcall, hfound⟩ := Option.bind_eq_some_iff.1 h
      split at hfound
      · next hnumbers =>
        split at hfound
        · next hmarker =>
          obtain rfl := Option.some.inj hfound
          exact .offset hsigns.1 hsigns.2 hcall hnumbers hmarker
        · next hplain =>
          obtain rfl := Option.some.inj hfound
          exact .region hsigns.1 hsigns.2 hcall hnumbers hplain
      · cases hfound
    · cases h
  · cases h

theorem reads_of_here? (h : here? ts = some s) : Reads ts s := by
  cases ts with
  | nil => cases h
  | cons head ts =>
    by_cases hopens : head.opens = true
    · simp only [Token.opens, Bool.or_eq_true] at hopens
      obtain (hquoted | hpattern) | hregion := hopens
      · rw [here?_of_quoted hquoted] at h
        obtain ⟨l, hl, rfl⟩ := Option.map_eq_some_iff.1 h
        exact .quoted hquoted hl
      · rw [here?_of_pattern hpattern] at h
        exact reads_of_chain? h
      · rw [here?_of_region hregion] at h
        exact reads_of_region? h
    · rw [here?_of_not_opens (Bool.eq_false_iff.2 hopens)] at h
      cases h

theorem here?_of_reads (h : Reads ts s) : here? ts = some s := by
  cases h with
  | quoted quoted literal => rw [here?_of_quoted quoted, literal, Option.map_some]
  | chain head_word opening_sign content close_sign suffixes =>
    simp [here?_of_pattern head_word, chain?, head_word, opening_sign, content, close_sign, suffixes]
  | region head_word opening_sign call numbers plain =>
    simp [here?_of_region head_word, region?, head_word, opening_sign, call, numbers, plain]
  | offset head_word opening_sign call numbers marker =>
    simp [here?_of_region head_word, region?, head_word, opening_sign, call, numbers, marker]

/-- The scan takes a step exactly by one of the rules. -/
theorem here?_eq_some_iff_reads : here? ts = some s ↔ Reads ts s :=
  ⟨reads_of_here?, here?_of_reads⟩

/-- A region with four numbers is read, with its marker or without. -/
theorem exists_reads_of_numbers {args : CallArguments} {x y w h : Int32}
    (head_word : head.is "Region" = true) (opening_sign : opening.is "(" = true)
    (call : CallArguments.read? ts = some args)
    (numbers : args.groups.map int? = [some x, some y, some w, some h]) :
    ∃ s, Reads (head :: opening :: ts) s := by
  cases hmarker : asOffset? args.rest with
  | none => exact ⟨_, .region head_word opening_sign call numbers hmarker⟩
  | some found => exact ⟨_, .offset head_word opening_sign call numbers hmarker⟩

end

end Recognition

end ImageScript
