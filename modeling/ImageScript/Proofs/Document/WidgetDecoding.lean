import ImageScript.Proofs.Bundle.CleanupReading
import ImageScript.Proofs.Document.ReadingBack
import ImageScript.Proofs.Script.Acceptance
import ImageScript.Proofs.Script.ChainText

/-!
# Widgets that are decoded from their text

The text of a pattern that was recognized is one literal, and this literal makes the same pattern
again. Names have to stand in double quotes for that, because the text puts them there as they are.
Of the numbers only the factor can be lost: a factor of the script that is finite and too great to
be rounded to hundredths is stored as infinite, and no factor is read from the text of that.

Main statement: `Pattern.readsBack_iff`.
-/

namespace ImageScript

open Recognition Synthesis

/-! ### The values of a recognized chain -/

/-- Whether the values of a pattern literal are among those that its suffixes take. -/
structure PatternLiteral.IsInRange (l : PatternLiteral) : Prop where
  similarity : ∀ x, l.similarity = some x → 0 ≤ x ∧ x ≤ 1
  targetOffset : ∀ d, l.targetOffset = some d → IsArgument d.1 ∧ IsArgument d.2

namespace Grammar

theorem WholeNumber.isArgument {us : List Token} {i : Int32} (h : WholeNumber us i) :
    IsArgument i := by
  obtain ⟨negative, digits, n, -, -, hn, hi⟩ := h
  unfold IsArgument
  rw [hi]
  split <;> omega

theorem SuffixCalls.exists_groups {us : List Token} {as : List Attribute} (h : SuffixCalls us as) :
    ∀ a ∈ as, ∃ groups, Arguments a groups := by
  induction h with
  | nil => exact fun a ha => absurd ha List.not_mem_nil
  | cons call later ih =>
    intro a ha
    rcases List.mem_cons.1 ha with rfl | ha
    · obtain ⟨-, -, -, -, arguments, -⟩ := call
      exact ⟨_, arguments⟩
    · exact ih a ha

/-- Each value of a chain is the argument of one of its calls. -/
theorem SuffixCalls.inRange {us : List Token} {as : List Attribute} (h : SuffixCalls us as)
    (image : Text) : (pattern image as).IsInRange where
  similarity x hx := by
    have hmem := List.mem_of_getLast? (Option.join_eq_some_iff.1 hx)
    obtain ⟨a, ha, heq⟩ := List.mem_filterMap.1 hmem
    obtain ⟨groups, harguments⟩ := h.exists_groups a ha
    cases harguments with
    | similar number low high =>
      obtain rfl := Option.some.inj (Option.some.inj heq)
      exact ⟨low, high⟩
    | exact => cases heq
    | targetOffset => cases heq
    | resize => cases heq
    | transparent => cases heq
    | image => cases heq
  targetOffset d hd := by
    obtain ⟨a, ha, heq⟩ := List.mem_filterMap.1 (List.mem_of_getLast? hd)
    obtain ⟨groups, harguments⟩ := h.exists_groups a ha
    cases harguments with
    | targetOffset dx_number dy_number =>
      obtain rfl := Option.some.inj heq
      exact ⟨dx_number.isArgument, dy_number.isArgument⟩
    | exact => cases heq
    | similar => cases heq
    | resize => cases heq
    | transparent => cases heq
    | image => cases heq

end Grammar

/-- The pattern that a literal with an image asks for. -/
def Literal.pattern? : Literal → Option PatternLiteral
  | .chain l => some l
  | .fileName name => some (.bare name)
  | .marker | .region _ => none

theorem Literal.image?_of_pattern? {l : Literal} {q : PatternLiteral} (h : l.pattern? = some q) :
    l.image? = some q.image := by
  cases l with
  | chain l => exact congrArg (Option.map PatternLiteral.image) h
  | fileName name => exact congrArg (Option.map PatternLiteral.image) h
  | marker => cases h
  | region r => cases h

theorem inRange_of_mem_literals {p : Cursor} {m : Match} {q : PatternLiteral}
    (hm : m ∈ literals p.tokens) (hq : m.literal.pattern? = some q) : q.IsInRange := by
  obtain ⟨us, s, hus, hs, hfinding⟩ := exists_here?_of_mem_literals hm
  have hread : ∀ t ∈ us, t.IsRead := fun t ht => Cursor.isRead_of_mem_tokens p t (hus.subset ht)
  obtain ⟨finding, rest⟩ := s
  obtain rfl : finding = .literal m := hfinding
  obtain ⟨vs, -, hderives, -⟩ := Grammar.derives_of_here? hread hs
  generalize m.literal = l at hderives hq
  cases hderives with
  | chain call suffixes maximal =>
    obtain rfl := Option.some.inj hq
    exact suffixes.inRange _
  | fileName =>
    obtain rfl := Option.some.inj hq
    exact ⟨nofun, nofun⟩
  | marker => cases hq
  | region => cases hq
  | offset => cases hq

/-! ### Widgets of files -/

variable {σ : Type} [FileSystem σ] {b : Bundle} {fs : σ} {path : Path} {p : Pattern}

/-- Whether a pattern is the widget of a file, and has attributes that its text can say. -/
structure IsFileWidget (b : Bundle) (fs : σ) (path : Path) (p : Pattern) : Prop extends
    p.IsSpellable where
  own : IsOwnName b p.imageName
  resolve_eq : b.resolve fs p.imageName = .ok path
  eq_new : p = { Pattern.new p.id p.imageName with
    resolvedPath := some path
    similarity := p.similarity
    targetOffset := p.targetOffset
    resizeFactor := p.resizeFactor
    mask := p.mask }
  factor_pos : ∀ f, p.resizeFactor = some f → 0 < f

/-- A literal becomes the widget of a file, or one that waits for a capture. -/
theorem Synthesis.cases_of_widget? {l : Literal} {ids : IdSource}
    (h : (widget? b fs l ids).1 = some (.pattern p)) :
    (∃ id, p = .pendingCapture id) ∨ ∃ q id name path, l.pattern? = some q
      ∧ widgetName? b q.image = some name ∧ b.resolve fs name = .ok path
      ∧ p = { Pattern.ofLiteral id name q with resolvedPath := some path } := by
  cases l with
  | marker => exact Or.inl ⟨_, (Segment.pattern.inj (Option.some.inj h)).symm⟩
  | region r => cases h
  | chain q =>
    obtain ⟨name, path, hname, hresolve, heq⟩ := exists_of_pattern? h
    exact Or.inr ⟨q, _, name, path, rfl, hname, hresolve, Segment.pattern.inj heq⟩
  | fileName image =>
    obtain ⟨name, path, hname, hresolve, heq⟩ := exists_of_pattern? h
    exact Or.inr ⟨.bare image, _, name, path, rfl, hname, hresolve, Segment.pattern.inj heq⟩

theorem PatternLiteral.IsInRange.settled {q : PatternLiteral} (hq : q.IsInRange) (id name : Text) :
    Pattern.IsSettledSimilarity (Pattern.ofLiteral id name q).similarity := by
  unfold Pattern.ofLiteral
  dsimp only
  split
  · exact Pattern.exactSimilarity_settled
  · split
    · next x hx =>
      obtain ⟨hlow, hhigh⟩ := hq.similarity x hx
      exact Pattern.clampSimilarity_settled hlow hhigh
    · exact Pattern.defaultSimilarity_settled

theorem PatternLiteral.IsInRange.isArgument {q : PatternLiteral} (hq : q.IsInRange)
    (id name : Text) : IsArgument (Pattern.ofLiteral id name q).targetOffset.1
      ∧ IsArgument (Pattern.ofLiteral id name q).targetOffset.2 := by
  unfold Pattern.ofLiteral
  dsimp only
  cases hoffset : q.targetOffset with
  | none =>
    unfold IsArgument
    decide
  | some d => exact hq.targetOffset d hoffset

theorem Pattern.validFactor?_eq_some_iff {x f : Float} :
    validFactor? x = some f ↔ Decimal.roundToHundredths x = f ∧ 0 < f := by
  unfold validFactor?
  simp only [Option.ite_none_right_eq_some, Option.some.injEq]
  constructor
  · rintro ⟨hpos, rfl⟩
    exact ⟨rfl, hpos⟩
  · rintro ⟨rfl, hpos⟩
    exact ⟨hpos, rfl⟩

namespace IsFileWidget

/-- The widget that a literal makes where its names can be put in quotes. -/
theorem of_literal {q : PatternLiteral} {id name : Text} (hq : q.IsInRange)
    (hname : widgetName? b q.image = some name) (hresolve : b.resolve fs name = .ok path)
    (hquotable : IsQuotable name) (hmask : ∀ n, q.mask = some (.image n) → IsQuotable n) :
    IsFileWidget b fs path { Pattern.ofLiteral id name q with resolvedPath := some path } where
  name := hquotable
  isImage := (isOwnName_of_resolve hname hresolve).isImage
  similarity := hq.settled id name
  dx := (hq.isArgument id name).1
  dy := (hq.isArgument id name).2
  mask := hmask
  own := isOwnName_of_resolve hname hresolve
  resolve_eq := hresolve
  eq_new := rfl
  factor_pos f hf := by
    obtain ⟨x, -, hx⟩ := Option.bind_eq_some_iff.1 hf
    exact (Pattern.validFactor?_eq_some_iff.1 hx).2

/-- The literal in the text of a file widget becomes the same widget with an id of its own, and with
the factor that the literal has. -/
theorem pattern?_spelled (h : IsFileWidget b fs path p) (factor : Option Float) (ids : IdSource) :
    (pattern? b fs (p.spelled factor) ids).1 = some (.pattern { p with
      id := (ids.next .pattern).1
      resizeFactor := factor.bind Pattern.validFactor? }) := by
  have hname : widgetName? b (p.spelled factor).image = some p.imageName := h.own.widgetName?_eq
  have hpattern := congrArg (fun p : Pattern => { p with
    id := (ids.next .pattern).1
    resizeFactor := factor.bind Pattern.validFactor? }) h.eq_new
  unfold pattern?
  simp only [hname, h.resolve_eq, Pattern.ofLiteral_spelled h.similarity]
  exact congrArg (fun p => some (Segment.pattern p)) hpattern.symm

/-- The text of a file widget is one literal, where it says no factor or one that is read. -/
theorem exists_here? (h : IsFileWidget b fs path p) {factor : Option Float}
    (hfactor : Pattern.ReadsFactor p.resizeFactor factor) :
    ∃ l, here? (tokenize p.toText) = some ⟨.literal ⟨0, Text.byteLen p.toText, l⟩, []⟩
      ∧ ∀ ids, widget? b fs l ids = pattern? b fs (p.spelled factor) ids := by
  by_cases hdefault : p.isDefault = true
  · rw [toText_of_isDefault h.own.ne_nil hdefault]
    refine ⟨_, h.own.here?_quoted h.name, fun ids => ?_⟩
    obtain rfl : factor = none := by
      generalize hf : p.resizeFactor = stored at hfactor
      cases hfactor with
      | none => rfl
      | some => simp [Pattern.isDefault, hf] at hdefault
    rw [Pattern.spelled_of_isDefault h.similarity hdefault]
    rfl
  · exact ⟨_, Pattern.here?_toText h.toIsSpellable (Bool.eq_false_iff.2 hdefault) hfactor,
      fun ids => rfl⟩

end IsFileWidget

/-! ### Texts without a literal at their start -/

/-- Where a chain at the start of a text is given up, no literal begins at the start. -/
theorem start_ne_zero_of_rejected {x : Text} {e : LiteralError} {rest : List Token}
    (h : here? (tokenize x) = some ⟨.rejected e, rest⟩) : ∀ m ∈ recognizeAll x, m.start ≠ 0 := by
  intro m hm
  have hpairwise := pairwise_tokenize x
  have hnonempty := fun t => @offset_lt_stop_of_mem_tokenize x t
  obtain ⟨t, ts, htokens, hrest⟩ := exists_of_here? h
  rw [recognizeAll_eq_literals, htokens] at hm
  rw [htokens] at h hpairwise hnonempty
  rw [literals_of_some h] at hm
  obtain ⟨u, hu, hstart⟩ := exists_token_of_mem_literals hm
  have hbehind := (List.pairwise_cons.1 hpairwise).1 u (hrest.subset hu)
  have hhead := hnonempty t (List.mem_cons_self ..)
  omega

/-! ### Reading back -/

/-- Whether two patterns show the same image with the same attributes. -/
structure Pattern.AgreesWith (p q : Pattern) : Prop where
  imageName : q.imageName = p.imageName
  isExact : q.isExact = p.isExact
  similarity : q.similarity = p.similarity
  targetOffset : q.targetOffset = p.targetOffset
  resizeFactor : q.resizeFactor = p.resizeFactor
  mask : q.mask = p.mask
  state : q.state = p.state

/-- Whether the text of a pattern is one literal, of which the bundle makes the same pattern. -/
def Pattern.ReadsBack (b : Bundle) (fs : σ) (p : Pattern) : Prop :=
  ∃ l, recognizeAll p.toText = [⟨0, Text.byteLen p.toText, l⟩] ∧ ∀ ids, ∃ q,
    (widget? b fs l ids).1 = some (.pattern q) ∧ p.AgreesWith q

theorem Pattern.readsBack_pendingCapture (id : Text) :
    (Pattern.pendingCapture id).ReadsBack b fs :=
  ⟨.marker, by rw [recognizeAll_eq_literals]; exact literals_of_here? here?_marker,
    fun ids => ⟨_, rfl, ⟨rfl, rfl, rfl, rfl, rfl, rfl, rfl⟩⟩⟩

namespace IsFileWidget

theorem readsBack (h : IsFileWidget b fs path p) {factor : Option Float}
    (hfactor : Pattern.ReadsFactor p.resizeFactor factor) :
    p.ReadsBack b fs ↔ factor.bind Pattern.validFactor? = p.resizeFactor := by
  obtain ⟨l, hhere, hwidget⟩ := h.exists_here? hfactor
  have hliterals : recognizeAll p.toText = [⟨0, Text.byteLen p.toText, l⟩] := by
    rw [recognizeAll_eq_literals]
    exact literals_of_here? hhere
  constructor
  · rintro ⟨l', hliterals', hback⟩
    rw [hliterals, List.singleton_inj, Match.mk.injEq] at hliterals'
    obtain ⟨-, -, rfl⟩ := hliterals'
    obtain ⟨q, hq, hagrees⟩ := hback ⟨[], 0⟩
    rw [hwidget, h.pattern?_spelled] at hq
    obtain rfl := Segment.pattern.inj (Option.some.inj hq)
    exact hagrees.resizeFactor
  · intro hsame
    refine ⟨l, hliterals, fun ids => ⟨_, by rw [hwidget, h.pattern?_spelled], ?_⟩⟩
    exact ⟨rfl, rfl, rfl, rfl, hsame, rfl, rfl⟩

/-- The text of a file widget whose factor is not read is no literal. -/
theorem not_readsBack (h : IsFileWidget b fs path p) {f : Float} (hf : p.resizeFactor = some f)
    (hread : ∀ v, Decimal.reread? f = some v → v ≤ 0) : ¬ p.ReadsBack b fs := by
  rintro ⟨l, hliterals, -⟩
  have hnumber : Decimal.read f ≠ .nan := by
    rcases Decimal.read_of_pos (h.factor_pos f hf) with ⟨m, e, heq⟩ | heq
    · rw [heq]
      exact nofun
    · rw [heq]
      exact nofun
  obtain ⟨e, rest, hrejected⟩ := Pattern.rejected_toText h.toIsSpellable hf hnumber hread
  refine start_ne_zero_of_rejected hrejected ⟨0, Text.byteLen p.toText, l⟩ ?_ rfl
  rw [hliterals]
  exact List.mem_cons_self ..

/-- A file widget is read back exactly if its factor is. -/
theorem readsBack_iff_factor (h : IsFileWidget b fs path p) :
    p.ReadsBack b fs ↔ ∀ f, p.resizeFactor = some f → Decimal.read f ≠ .infinite false
      ∧ (Decimal.number? (Decimal.format f)).map Decimal.roundToHundredths = some f := by
  cases hf : p.resizeFactor with
  | none =>
    have hfactor : Pattern.ReadsFactor p.resizeFactor none := hf.symm ▸ .none
    refine iff_of_true ((h.readsBack hfactor).2 hf.symm) fun f hf' => ?_
    cases hf'
  | some f =>
    have hpos := h.factor_pos f hf
    have hreread := Decimal.reread?_of_pos hpos
    have hfactor : ∀ v, Decimal.reread? f = some v → ¬ v ≤ 0 →
        Pattern.ReadsFactor p.resizeFactor (some v) :=
      fun v hv hpositive => hf.symm ▸ .some hv hpositive
    constructor
    · rintro hback f' hf'
      obtain rfl := Option.some.inj hf'
      -- A factor that is not read gives up the chain, and one that is read may round to another.
      by_cases hread : ∀ v, Decimal.reread? f = some v → v ≤ 0
      · exact absurd hback (h.not_readsBack hf hread)
      · push Not at hread
        obtain ⟨v, hv, hpositive⟩ := hread
        have hsame := (h.readsBack (hfactor v hv hpositive)).1 hback
        rw [hv] at hreread
        split at hreread
        · cases hreread
        · next hfinite =>
          refine ⟨hfinite, ?_⟩
          rw [hf, Option.bind_some, Pattern.validFactor?_eq_some_iff] at hsame
          rw [← hreread, Option.map_some, hsame.1]
    · intro hback
      obtain ⟨hfinite, hround⟩ := hback f rfl
      obtain ⟨v, hv, hrounded⟩ := Option.map_eq_some_iff.1 hround
      rw [if_neg hfinite, hv] at hreread
      have hpositive := Decimal.not_le_zero_of_reread? hpos hreread (hrounded ▸ hpos)
      refine (h.readsBack (hfactor v hreread hpositive)).2 ?_
      rw [hf, Option.bind_some, Pattern.validFactor?_eq_some_iff]
      exact ⟨hrounded, hpos⟩

end IsFileWidget

/-! ### Recognized literals -/

/-- The tokens in the bytes `lo` to `hi` of a text; none where these are no boundaries. -/
def tokensIn (s : Text) (lo hi : Nat) : List Token :=
  match Text.slice? lo hi s with
  | some part => Cursor.tokens ⟨lo, part⟩
  | none => []

theorem exists_cursor_of_recognize {s : Text} {lo hi : Nat} {m : Match}
    (h : m ∈ recognize s lo hi) : ∃ c : Cursor, tokensIn s lo hi = c.tokens ∧ m ∈ literals c.tokens := by
  unfold recognize findings at h
  unfold tokensIn
  cases hpart : Text.slice? lo hi s with
  | none =>
    rw [hpart] at h
    exact absurd h List.not_mem_nil
  | some part =>
    rw [hpart] at h
    exact ⟨⟨lo, part⟩, rfl, h⟩

/-- Whether the names in a literal, of its image and of its mask, stand there in double quotes. -/
def Match.NamesQuoted (s : Text) (lo hi : Nat) (m : Match) : Prop :=
  ∀ name, m.literal.image? = some name ∨ m.literal.maskImage? = some name →
    ∃ t ∈ tokensIn s lo hi, t.isDoubleQuoted = true ∧ t.content? = some name
      ∧ m.start ≤ t.offset ∧ t.stop ≤ m.stop

/-- The pattern of a literal with its names in double quotes is read back from its text exactly if
its factor, where it has one, is finite and comes back from its decimal text when it is rounded. -/
theorem Pattern.readsBack_iff {s : Text} {lo hi : Nat} {m : Match} {ids : IdSource} {p : Pattern}
    (hm : m ∈ recognize s lo hi) (hquoted : m.NamesQuoted s lo hi)
    (hp : (widget? b fs m.literal ids).1 = some (.pattern p)) :
    p.ReadsBack b fs ↔ ∀ f, p.resizeFactor = some f → Decimal.read f ≠ .infinite false
      ∧ (Decimal.number? (Decimal.format f)).map Decimal.roundToHundredths = some f := by
  obtain ⟨c, htokens, hliteral⟩ := exists_cursor_of_recognize hm
  have hnames : ∀ name, m.literal.image? = some name ∨ m.literal.maskImage? = some name →
      ∃ t ∈ c.tokens, t.isDoubleQuoted = true ∧ t.content? = some name := by
    intro name hname
    obtain ⟨t, ht, hdouble, hcontent, -⟩ := hquoted name hname
    exact ⟨t, htokens ▸ ht, hdouble, hcontent⟩
  rcases cases_of_widget? hp with ⟨id, rfl⟩ | ⟨q, id, name, path, hq, hname, hresolve, rfl⟩
  · exact iff_of_true (readsBack_pendingCapture id) nofun
  · have hrange := inRange_of_mem_literals hliteral hq
    refine (IsFileWidget.of_literal hrange hname hresolve ?_ ?_).readsBack_iff_factor
    · have himage := Literal.image?_of_pattern? hq
      obtain ⟨t, ht, hdouble, hcontent⟩ := hnames q.image (Or.inl himage)
      exact isQuotable_of_widgetName? ht hdouble hcontent hname
        (isOwnName_of_resolve hname hresolve)
    · intro n hn
      obtain ⟨t, ht, hdouble, hcontent⟩ := hnames n (Or.inr (maskImage?_of_widget? hp hn))
      exact isQuotable_of_content? ht hdouble hcontent

theorem Pattern.readsBack_iff_resized :
    let s := "Pattern(\"a.png\").resize(2).mask(\"m.png\")".toList
    let fs := Store.empty.addFile (.ofString "/w/a.png") [1]
    let b := Bundle.ofScript (.ofString "/w/s.py")
    ∃ m p, recognize s 0 40 = [m] ∧ m.NamesQuoted s 0 40
      ∧ (widget? b fs m.literal (.ofSeed [])).1 = some (.pattern p) ∧ p.resizeFactor = some 2
      ∧ p.ReadsBack b fs := by
  intro s fs b
  let q : PatternLiteral :=
    ⟨"a.png".toList, none, false, none, some 2, some (.image "m.png".toList)⟩
  let p : Pattern := { Pattern.ofLiteral "-p1".toList "a.png".toList q with
    resolvedPath := some (.ofString "/w/a.png") }
  have hrecognized : recognize s 0 40 = [⟨0, 40, .chain q⟩] := by decide +kernel
  have hwidget : (widget? b fs (.chain q) (.ofSeed [])).1 = some (.pattern p) := by decide +kernel
  have hquoted : Match.NamesQuoted s 0 40 ⟨0, 40, .chain q⟩ := by
    have himage : ⟨.string, "\"a.png\"".toList, 8⟩ ∈ tokensIn s 0 40 := by decide +kernel
    have hmask : ⟨.string, "\"m.png\"".toList, 32⟩ ∈ tokensIn s 0 40 := by decide +kernel
    rintro name (hname | hname) <;> obtain rfl := Option.some.inj hname
    · exact ⟨_, himage, by decide, by decide, by decide, by decide⟩
    · exact ⟨_, hmask, by decide, by decide, by decide, by decide⟩
  have hfactor : p.resizeFactor = some 2 := by decide +kernel
  have hround : Decimal.read 2 ≠ .infinite false
      ∧ (Decimal.number? (Decimal.format 2)).map Decimal.roundToHundredths = some 2 := by
    decide +kernel
  have hmem : ⟨0, 40, .chain q⟩ ∈ recognize s 0 40 := hrecognized ▸ List.mem_singleton_self _
  refine ⟨_, p, hrecognized, hquoted, hwidget, hfactor, ?_⟩
  refine (Pattern.readsBack_iff hmem hquoted hwidget).2 fun f hf => ?_
  rw [hfactor] at hf
  exact Option.some.inj hf ▸ hround

/-- A factor that is finite, and too great for its hundredths to be a number, is stored as infinite. -/
example : (Pattern.validFactor? 1e308).map Decimal.read = some (.infinite false) := by
  decide +kernel

end ImageScript
