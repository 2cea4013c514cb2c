import ImageScript.Proofs.Document.Covering

/-!
# The normal form of a chain

A suffix of a chain overrides those of its group before it, and suffixes of different groups do not
meet. What a chain is read as depends on the image and on the last suffix of each group alone, so that
all spellings of it, whatever stands between their tokens, lead to widgets with one canonical text.

Main statements: `Grammar.pattern_congr`, `Grammar.IsChain.recognizeAll_eq`, `chain_normalForm`.
-/

namespace ImageScript

namespace Grammar

/-- The groups of suffixes: within a group the last suffix counts. -/
inductive SuffixGroup where
  | similarity
  | targetOffset
  | resize
  | mask
deriving DecidableEq, Repr

def Attribute.group : Attribute → SuffixGroup
  | exact | similar _ => .similarity
  | targetOffset _ _ => .targetOffset
  | resize _ => .resize
  | mask _ => .mask

/-- The last suffix of a group. -/
def lastOf (g : SuffixGroup) (as : List Attribute) : Option Attribute :=
  (as.filter (·.group = g)).getLast?

/-- Whether a text is one chain from its first to its last token: an image and suffixes. -/
inductive IsChain (s : Text) (image : Text) (as : List Attribute) : Prop where
  | call {us vs : List Token} (tokens_eq : tokenize s = us ++ vs) (call : PatternCall us image)
      (suffixes : SuffixCalls vs as) : IsChain s image as

/-- What a group says of a pattern, its last suffix says. -/
theorem getLast?_filterMap {α : Type} {g : SuffixGroup} {f : Attribute → Option α}
    (hf : ∀ a : Attribute, a.group ≠ g → f a = none) (hsome : ∀ a, a.group = g → (f a).isSome = true)
    (as : List Attribute) : (as.filterMap f).getLast? = (lastOf g as).bind f := by
  induction as using List.reverseRecOn with
  | nil => rfl
  | append_singleton as a ih =>
    unfold lastOf at ih ⊢
    rw [List.filterMap_append, List.filter_append]
    by_cases ha : a.group = g
    · obtain ⟨x, hx⟩ := Option.isSome_iff_exists.1 (hsome a ha)
      simp [ha, hx]
    · simp [ha, hf a ha, ih]

/-- A pattern is determined by its image and by the last suffix of each group. -/
theorem pattern_congr (image : Text) {as as' : List Attribute}
    (h : ∀ g, lastOf g as = lastOf g as') : pattern image as = pattern image as' := by
  have hsimilarity := @getLast?_filterMap _ .similarity Attribute.similarity?
    (by rintro ⟨⟩ <;> simp [Attribute.group, Attribute.similarity?])
    (by rintro ⟨⟩ <;> simp [Attribute.group, Attribute.similarity?])
  have hoffset := @getLast?_filterMap _ .targetOffset Attribute.targetOffset?
    (by rintro ⟨⟩ <;> simp [Attribute.group, Attribute.targetOffset?])
    (by rintro ⟨⟩ <;> simp [Attribute.group, Attribute.targetOffset?])
  have hresize := @getLast?_filterMap _ .resize Attribute.resize?
    (by rintro ⟨⟩ <;> simp [Attribute.group, Attribute.resize?])
    (by rintro ⟨⟩ <;> simp [Attribute.group, Attribute.resize?])
  have hmask := @getLast?_filterMap _ .mask Attribute.mask?
    (by rintro ⟨⟩ <;> simp [Attribute.group, Attribute.mask?])
    (by rintro ⟨⟩ <;> simp [Attribute.group, Attribute.mask?])
  simp only [pattern, hsimilarity, hoffset, hresize, hmask, h]

variable {s image : Text} {as : List Attribute}

/-- A text that is one chain holds this chain and no other literal. -/
theorem IsChain.recognizeAll_eq (h : IsChain s image as) :
    ∃ m, recognizeAll s = [m] ∧ m.literal = .chain (pattern image as) := by
  cases h with
  | @call us vs tokens_eq call suffixes =>
    have hread : ∀ t ∈ us ++ vs, t.IsRead := by
      rw [← tokens_eq]
      exact Cursor.isRead_of_mem_tokens _
    have hends : ¬ CallBegins [] := by
      rintro ⟨dot, name, opening, suffix, rest, heq, -⟩
      cases heq
    obtain ⟨m, hhere, hliteral, -⟩ := (Derives.chain call suffixes hends).exists_here? hread
    rw [List.append_nil] at hhere
    refine ⟨m, ?_, hliteral⟩
    rw [recognizeAll_eq_literals, tokens_eq]
    exact Recognition.literals_of_here? hhere

end Grammar

namespace Segment

/-- The canonical texts of the widgets in a row. -/
def widgetTexts (row : List Segment) : List Text := (row.filter isWidget).map toText

theorem widgetTexts_append (row row' : List Segment) :
    widgetTexts (row ++ row') = widgetTexts row ++ widgetTexts row' := by
  simp [widgetTexts]

theorem widgetTexts_cons {w : Segment} (h : w.isWidget = true) (row : List Segment) :
    widgetTexts (w :: row) = w.toText :: widgetTexts row := by
  simp [widgetTexts, h]

end Segment

namespace Synthesis

open Segment

variable {σ : Type} [FileSystem σ] {b : Bundle} {fs : σ} {l : Literal}

theorem widgetTexts_run (s : Text) : widgetTexts (run s) = [] := by
  unfold run
  split <;> rfl

/-- The widgets that a literal may become differ in their ids only. -/
theorem Depicts.toText_eq {w w' : Segment} (h : Depicts b fs l w) (h' : Depicts b fs l w') :
    w.toText = w'.toText := by
  cases h with
  | marker => cases h'; rfl
  | region => cases h'; rfl
  | chain id p named resolved =>
    cases h' with
    | chain id' _ named' resolved' =>
      obtain rfl := Option.some.inj (named.symm.trans named')
      rfl
  | fileName id named resolved =>
    cases h' with
    | fileName id' named' resolved' =>
      obtain rfl := Option.some.inj (named.symm.trans named')
      rfl

/-- A text with one literal has its widget, or none where the image is not there. -/
theorem widgetTexts_allSegments (b : Bundle) (fs : σ) {s : Text} {m : Match}
    (h : recognizeAll s = [m]) (ids : IdSource) :
    if becomesWidget b fs m.literal = true then
      ∃ w, Depicts b fs m.literal w ∧ widgetTexts (allSegments b fs s ids).1 = [w.toText]
    else widgetTexts (allSegments b fs s ids).1 = [] := by
  have hrow : (allSegments b fs s ids).1 = (build b fs s (Text.byteLen s) 0 [m] ids).1 := by
    rw [← h]
    rfl
  obtain ⟨placed, hms, hdepicts, hweave⟩ :=
    exists_weave_build b fs s (Text.byteLen s) 0 [m] ids
  rw [hrow, hweave]
  split
  · next hbecomes =>
    rw [List.filter_cons, if_pos hbecomes, List.filter_nil, List.map_eq_singleton_iff] at hms
    obtain ⟨⟨m', w⟩, rfl, rfl⟩ := hms
    have hw := hdepicts _ (List.mem_singleton_self _)
    refine ⟨w, hw, ?_⟩
    rw [weave, weave, widgetTexts_append, widgetTexts_cons hw.isWidget, widgetTexts_run,
      widgetTexts_run]
    rfl
  · next hbecomes =>
    rw [List.filter_cons, if_neg hbecomes, List.filter_nil, List.map_eq_nil_iff] at hms
    rw [hms, weave, widgetTexts_run]

end Synthesis

open Segment in
/-- Whether two texts are read as the same chain of an image: the literals in them have equal content,
and the widgets of one bundle have the same canonical text, one each where the image is there. -/
structure SameChain (image : Text) (s s' : Text) : Prop where
  captures : ∃ m m' p, recognizeAll s = [m] ∧ recognizeAll s' = [m'] ∧ m.literal = .chain p
    ∧ m'.literal = .chain p ∧ p.image = image
  widgets : ∀ (σ : Type) [FileSystem σ] (b : Bundle) (fs : σ) (ids ids' : IdSource), ∃ texts,
    widgetTexts (Synthesis.allSegments b fs s ids).1 = texts
      ∧ widgetTexts (Synthesis.allSegments b fs s' ids').1 = texts
      ∧ texts.length = if Synthesis.hasImage b fs image then 1 else 0

open Grammar in
/-- Two chains of one image that agree in the last suffix of each group have one normal form. -/
theorem chain_normalForm {s s' image : Text} {as as' : List Attribute} (h : IsChain s image as)
    (h' : IsChain s' image as') (hlast : ∀ g, lastOf g as = lastOf g as') :
    SameChain image s s' := by
  obtain ⟨m, hm, hliteral⟩ := h.recognizeAll_eq
  obtain ⟨m', hm', hliteral'⟩ := h'.recognizeAll_eq
  rw [← pattern_congr image hlast] at hliteral'
  refine ⟨⟨m, m', _, hm, hm', hliteral, hliteral', rfl⟩, fun σ _ b fs ids ids' => ?_⟩
  have hs := Synthesis.widgetTexts_allSegments b fs hm ids
  have hs' := Synthesis.widgetTexts_allSegments b fs hm' ids'
  have hbecomes : Synthesis.becomesWidget b fs (.chain (pattern image as)) =
      Synthesis.hasImage b fs image := rfl
  rw [hliteral, hbecomes] at hs
  rw [hliteral', hbecomes] at hs'
  split at hs
  · next himage =>
    rw [if_pos himage] at hs' ⊢
    obtain ⟨w, hw, htexts⟩ := hs
    obtain ⟨w', hw', htexts'⟩ := hs'
    exact ⟨_, htexts, by rw [htexts', hw.toText_eq hw'], rfl⟩
  · next himage =>
    rw [if_neg himage] at hs' ⊢
    exact ⟨_, hs, hs', rfl⟩

open Grammar in
/-- Suffixes in another order and over several lines, two of them overridden, with one name in other
quotes and one number in other digits. -/
theorem chain_normalForm_overridden :
    let s : Text := "Pattern(\"a.png\").similar(.5).targetOffset(1,-2)".toList
    let s' : Text := "Pattern( \x27a.png\x27 ).exact()\n  .targetOffset(+01, -2) .similar(0.50)".toList
    let as : List Attribute := [.similar 0.5, .targetOffset 1 (-2)]
    let as' : List Attribute := [.exact, .targetOffset 1 (-2), .similar 0.5]
    IsChain s "a.png".toList as ∧ IsChain s' "a.png".toList as' ∧ (∀ g, lastOf g as = lastOf g as')
      ∧ SameChain "a.png".toList s s' := by
  intro s s' as as'
  have htokens : tokenize s = [⟨.other, "Pattern".toList, 0⟩, sign '(' 7,
      ⟨.string, "\"a.png\"".toList, 8⟩, sign ')' 15]
      ++ (sign '.' 16 :: ⟨.other, "similar".toList, 17⟩ :: sign '(' 24
          :: ([⟨.other, ".5".toList, 25⟩] ++ [sign ')' 27])
        ++ (sign '.' 28 :: ⟨.other, "targetOffset".toList, 29⟩ :: sign '(' 41
            :: ([⟨.other, "1".toList, 42⟩]
                ++ sign ',' 43 :: [sign '-' 44, ⟨.other, "2".toList, 45⟩] ++ [sign ')' 46])
          ++ [])) := by decide +kernel
  have htokens' : tokenize s' = [⟨.other, "Pattern".toList, 0⟩, sign '(' 7,
      ⟨.string, "\x27a.png\x27".toList, 9⟩, sign ')' 17]
      ++ (sign '.' 18 :: ⟨.other, "exact".toList, 19⟩ :: sign '(' 24 :: ([] ++ [sign ')' 25])
        ++ (sign '.' 29 :: ⟨.other, "targetOffset".toList, 30⟩ :: sign '(' 42
            :: ([sign '+' 43, ⟨.other, "01".toList, 44⟩]
                ++ sign ',' 46 :: [sign '-' 48, ⟨.other, "2".toList, 49⟩] ++ [sign ')' 50])
          ++ (sign '.' 52 :: ⟨.other, "similar".toList, 53⟩ :: sign '(' 60
              :: ([⟨.other, "0.50".toList, 61⟩] ++ [sign ')' 65])
            ++ []))) := by decide +kernel
  have hhalf : Decimal.number? ".5".toList = some 0.5 := by decide +kernel
  have hhalf' : Decimal.number? "0.50".toList = some 0.5 := by decide +kernel
  have hsimilar : ∀ {us : List Token}, DecimalNumber us 0.5 → Arguments (.similar 0.5) [us] :=
    fun number => .similar number (by decide +kernel) (by decide +kernel)
  have htwo : ∀ o, WholeNumber [sign '-' o, ⟨.other, "2".toList, o + 1⟩] (-2) := fun o =>
    ⟨true, "2".toList, 2, .minus rfl rfl, by decide, by decide, by decide⟩
  have h : IsChain s "a.png".toList as := .call htokens (.call rfl rfl rfl (by decide) rfl)
    (.cons (.call rfl rfl rfl (.last _)
        (hsimilar ⟨false, '.', ['5'], _, .plain rfl, Or.inr rfl, hhalf, rfl⟩) rfl)
      (.cons (.call rfl rfl rfl (.more _ rfl (.last _))
          (.targetOffset ⟨false, _, 1, .plain rfl, by decide, by decide, by decide⟩ (htwo 44)) rfl)
        .nil))
  have h' : IsChain s' "a.png".toList as' := .call htokens' (.call rfl rfl rfl (by decide) rfl)
    (.cons (.call rfl rfl rfl .none .exact rfl)
      (.cons (.call rfl rfl rfl (.more _ rfl (.last _))
          (.targetOffset ⟨false, _, 1, .plus rfl rfl, by decide, by decide, by decide⟩ (htwo 48)) rfl)
        (.cons (.call rfl rfl rfl (.last _)
            (hsimilar ⟨false, '0', _, _, .plain rfl, Or.inl rfl, hhalf', rfl⟩) rfl)
          .nil)))
  have hlast : ∀ g, lastOf g as = lastOf g as' := by rintro ⟨⟩ <;> rfl
  exact ⟨h, h', hlast, chain_normalForm h h' hlast⟩

end ImageScript
