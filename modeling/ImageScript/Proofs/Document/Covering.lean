import ImageScript.Proofs.Document.FlatSequence
import ImageScript.Proofs.Script.Acceptance

/-!
# Segments that cover a text

The literals that a scan reports stand one behind the other, each on whole tokens none of which is a
comment, a doc string or a string without its closing quote. The segments of a range are the widgets
of those literals that have one, with the text between them as it stands; a literal that has none
becomes part of that text.

Main statements: `Grammar.laid_literals`, `Synthesis.exists_weave_build`,
`Synthesis.segments_cover`.
-/

namespace ImageScript

namespace Text

variable {s : Text} {i j k : Nat}

theorem Boundary.append (h : s.Boundary i) (t : Text) : Boundary (s ++ t) i := by
  obtain ⟨a, b, rfl, rfl⟩ := h
  exact ⟨a, b ++ t, List.append_assoc .., rfl⟩

/-- Two boundaries of a text divide it in three. -/
theorem Boundary.exists_between (hi : s.Boundary i) (hj : s.Boundary j) (h : i ≤ j) :
    ∃ a p b, s = a ++ p ++ b ∧ byteLen a = i ∧ byteLen (a ++ p) = j := by
  obtain ⟨a, r, rfl, rfl⟩ := hi
  rcases hj.of_append with ⟨hlt, -⟩ | ⟨-, p, b, rfl, hp⟩
  · omega
  · refine ⟨a, p, b, by simp, rfl, ?_⟩
    rw [byteLen_append]
    omega

/-- Slices that follow each other make one slice. -/
theorem slice_append_slice (hi : s.Boundary i) (hj : s.Boundary j) (hk : s.Boundary k)
    (hij : i ≤ j) (hjk : j ≤ k) : slice i j s ++ slice j k s = slice i k s := by
  obtain ⟨a, p, r, rfl, rfl, rfl⟩ := hi.exists_between hj hij
  rcases hk.of_append with ⟨hlt, -⟩ | ⟨-, q, b, rfl, hq⟩
  · omega
  · obtain rfl : k = byteLen (a ++ p ++ q) := by
      rw [byteLen_append (a ++ p) q]
      omega
    have hfirst := slice_append a p (q ++ b)
    have hsecond := slice_append (a ++ p) q b
    have hboth := slice_append a (p ++ q) b
    simp only [← List.append_assoc] at hfirst hsecond hboth ⊢
    rw [hfirst, hsecond, hboth]

end Text

/-! ### The tokens of literals -/

/-- Whether a token is no comment, no doc string and no string without its closing quote. -/
def Token.IsCode (t : Token) : Prop :=
  t.kind ≠ .comment ∧ t.kind ≠ .docString ∧ t.kind ≠ .unterminated

namespace Token

variable {t : Token}

theorem isCode_of_other (h : t.kind = .other) : t.IsCode := by simp [IsCode, h]

theorem isCode_of_string (h : t.kind = .string) : t.IsCode := by simp [IsCode, h]

theorem isCode_of_is {word : String} (h : t.is word = true) : t.IsCode :=
  isCode_of_other (kind_of_is h)

theorem isCode_of_content? {content : Text} (h : t.content? = some content) : t.IsCode := by
  unfold content? at h
  split at h
  · next hclosed => exact isCode_of_string hclosed.1
  · cases h

end Token

namespace Grammar

open Token

variable {us vs args : List Token} {groups : List (List Token)}

theorem Signed.isCode {negative : Bool} {digits : Text} (h : Signed us negative digits) :
    ∀ t ∈ us, t.IsCode := by
  cases h with
  | plain number => simpa using isCode_of_other number
  | plus sign number => simpa using ⟨isCode_of_is sign, isCode_of_other number⟩
  | minus sign number => simpa using ⟨isCode_of_is sign, isCode_of_other number⟩

theorem WholeNumber.isCode {i : Int32} (h : WholeNumber us i) : ∀ t ∈ us, t.IsCode := by
  obtain ⟨negative, digits, n, hsigned, -⟩ := h
  exact hsigned.isCode

theorem DecimalNumber.isCode {x : Float} (h : DecimalNumber us x) : ∀ t ∈ us, t.IsCode := by
  obtain ⟨negative, c, ds, y, hsigned, -⟩ := h
  exact hsigned.isCode

theorem Joined.isCode (h : Joined groups args) (hgroups : ∀ g ∈ groups, ∀ t ∈ g, t.IsCode) :
    ∀ t ∈ args, t.IsCode := by
  induction h with
  | none => simp
  | last us => exact hgroups us (List.mem_singleton_self us)
  | more first sign later ih =>
    intro t ht
    rcases List.mem_append.1 ht with ht | ht
    · exact hgroups first (List.mem_cons_self ..) t ht
    · rcases List.mem_cons.1 ht with rfl | ht
      · exact isCode_of_is sign
      · exact ih (fun g hg => hgroups g (List.mem_cons_of_mem _ hg)) t ht

theorem Arguments.isCode {a : Attribute} (h : Arguments a groups) :
    ∀ g ∈ groups, ∀ t ∈ g, t.IsCode := by
  cases h with
  | exact => simp
  | similar number => simpa using number.isCode
  | targetOffset dx dy => simpa using ⟨dx.isCode, dy.isCode⟩
  | resize number => simpa using number.isCode
  | transparent => simp
  | image content => simpa using isCode_of_content? content

theorem SuffixCall.isCode {a : Attribute} (h : SuffixCall us a) : ∀ t ∈ us, t.IsCode := by
  cases h with
  | call dot_sign name_word opening_sign joined arguments close_sign =>
    intro t ht
    simp only [List.mem_cons, List.mem_append, List.not_mem_nil, or_false] at ht
    obtain rfl | rfl | rfl | ht | rfl := ht
    · exact isCode_of_is dot_sign
    · exact isCode_of_is name_word
    · exact isCode_of_is opening_sign
    · exact joined.isCode arguments.isCode t ht
    · exact isCode_of_is close_sign

theorem SuffixCalls.isCode {as : List Attribute} (h : SuffixCalls us as) :
    ∀ t ∈ us, t.IsCode := by
  induction h with
  | nil => simp
  | cons call later ih =>
    intro t ht
    rcases List.mem_append.1 ht with ht | ht
    · exact call.isCode t ht
    · exact ih t ht

theorem PatternCall.isCode {image : Text} (h : PatternCall us image) : ∀ t ∈ us, t.IsCode := by
  cases h with
  | call head_word opening_sign content isImage close_sign =>
    simpa using ⟨isCode_of_is head_word, isCode_of_is opening_sign, isCode_of_content? content,
      isCode_of_is close_sign⟩

theorem RegionCall.isCode {x y w h : Int32} (hc : RegionCall us x y w h) :
    ∀ t ∈ us, t.IsCode := by
  cases hc with
  | call head_word opening_sign joined x_number y_number w_number h_number close_sign =>
    intro t ht
    simp only [List.mem_cons, List.mem_append, List.not_mem_nil, or_false] at ht
    obtain rfl | rfl | ht | rfl := ht
    · exact isCode_of_is head_word
    · exact isCode_of_is opening_sign
    · refine joined.isCode ?_ t ht
      simpa using ⟨x_number.isCode, y_number.isCode, w_number.isCode, h_number.isCode⟩
    · exact isCode_of_is close_sign

theorem OffsetCall.isCode (h : OffsetCall us) : ∀ t ∈ us, t.IsCode := by
  cases h with
  | call dot_sign name_word opening_sign close_sign =>
    simpa using ⟨isCode_of_is dot_sign, isCode_of_is name_word, isCode_of_is opening_sign,
      isCode_of_is close_sign⟩

/-- No token of a literal is a comment, a doc string or a string without its closing quote. -/
theorem Derives.isCode {GoesOn : List Token → Prop} {l : Literal} {rest : List Token}
    (h : Derives GoesOn us l rest) : ∀ t ∈ us, t.IsCode := by
  cases h with
  | marker quoted content => simpa using isCode_of_content? content
  | chain call suffixes maximal =>
    exact List.forall_mem_append.2 ⟨call.isCode, suffixes.isCode⟩
  | region call plain => exact call.isCode
  | offset call offset => exact List.forall_mem_append.2 ⟨call.isCode, offset.isCode⟩
  | fileName quoted content isImage => simpa using isCode_of_content? content

/-- Literals that stand in a row of tokens one behind the other, each on some tokens in a row. -/
inductive Laid : List Token → List Match → Prop where
  | none (ts : List Token) : Laid ts []
  | literal {us ts : List Token} {m : Match} {ms : List Match} (spans : Spans us m)
      (code : ∀ t ∈ us, t.IsCode) (later : Laid ts ms) : Laid (us ++ ts) (m :: ms)
  | skip {ts : List Token} {ms : List Match} (t : Token) (later : Laid ts ms) : Laid (t :: ts) ms

theorem Laid.skip_all {ts : List Token} {ms : List Match} (us : List Token) (h : Laid ts ms) :
    Laid (us ++ ts) ms := by
  induction us with
  | nil => exact h
  | cons u us ih => exact .skip u ih

open Recognition in
/-- The literals of a scan stand so in its tokens. -/
theorem laid_literals (ts : List Token) (hread : ∀ t ∈ ts, t.IsRead) : Laid ts (literals ts) := by
  fun_induction scan ts with
  | case1 =>
    have hnil : literals [] = [] := by simp [literals, scan]
    rw [hnil]
    exact .none []
  | case2 t ts step hstep ih =>
    obtain ⟨finding, rest⟩ := step
    rw [literals_of_some hstep]
    cases finding with
    | literal m =>
      obtain ⟨us, hus, hderives, hspans⟩ := derives_of_here? hread hstep
      rw [hus] at hread ⊢
      exact .literal hspans hderives.isCode
        (ih fun t ht => hread t (List.mem_append_right _ ht))
    | rejected e =>
      obtain ⟨us, hus, -⟩ := exists_taken hstep
      rw [hus] at hread ⊢
      exact (ih fun t ht => hread t (List.mem_append_right _ ht)).skip_all us
  | case3 t ts hnone ih =>
    rw [literals_of_none hnone]
    exact .skip t (ih fun u hu => hread u (List.mem_cons_of_mem _ hu))

/-- A literal begins with one token and ends with the same one or a later one. -/
theorem Spans.exists_ends {m : Match} (h : Spans us m) : ∃ first last, first ∈ us ∧ last ∈ us
    ∧ first.offset = m.start ∧ last.stop = m.stop ∧ (us = [first] ∧ last = first
      ∨ ∃ vs, us = first :: vs ∧ last ∈ vs) := by
  obtain ⟨first, hfirst, hstart⟩ := Option.map_eq_some_iff.1 h.start
  obtain ⟨last, hlast, hstop⟩ := Option.map_eq_some_iff.1 h.stop
  obtain ⟨vs, rfl⟩ := List.head?_eq_some_iff.1 hfirst
  refine ⟨first, last, List.mem_cons_self .., List.mem_of_getLast? hlast, hstart, hstop, ?_⟩
  cases vs with
  | nil => exact Or.inl ⟨rfl, (Option.some.inj hlast).symm⟩
  | cons v vs =>
    rw [List.getLast?_cons_cons] at hlast
    exact Or.inr ⟨v :: vs, rfl, List.mem_of_getLast? hlast⟩

/-- What the places of tokens tell of literals that stand on them. -/
structure Placed (lo hi : Nat) (s : Text) (ms : List Match) : Prop where
  inside : ∀ m ∈ ms, lo ≤ m.start ∧ m.start < m.stop ∧ m.stop ≤ hi
  boundaries : ∀ m ∈ ms, m.Within s
  ordered : ms.Pairwise fun m n => m.stop ≤ n.start

theorem Laid.placed {lo hi : Nat} {s : Text} {ts : List Token} {ms : List Match} (h : Laid ts ms)
    (hlo : ∀ t ∈ ts, lo ≤ t.offset ∧ t.offset < t.stop) (hhi : ∀ t ∈ ts, t.stop ≤ hi)
    (hwithin : ∀ t ∈ ts, t.Within s) (horder : ts.Pairwise fun t u => t.stop ≤ u.offset) :
    Placed lo hi s ms := by
  induction h generalizing lo with
  | none ts => exact ⟨by simp, by simp, .nil⟩
  | skip t later ih =>
    exact ih (fun u hu => hlo u (List.mem_cons_of_mem _ hu))
      (fun u hu => hhi u (List.mem_cons_of_mem _ hu))
      (fun u hu => hwithin u (List.mem_cons_of_mem _ hu)) (List.pairwise_cons.1 horder).2
  | @literal us ts m ms spans code later ih =>
    obtain ⟨first, last, hfirst, hlast, hstart, hstop, hends⟩ := spans.exists_ends
    obtain ⟨hus, hts, hacross⟩ := List.pairwise_append.1 horder
    have hfirst' := hlo first (List.mem_append_left _ hfirst)
    have hlast' := hlo last (List.mem_append_left _ hlast)
    have hlt : m.start < m.stop := by
      rcases hends with ⟨-, rfl⟩ | ⟨vs, rfl, hmem⟩
      · omega
      · have hle := (List.pairwise_cons.1 hus).1 last hmem
        omega
    -- the literals that follow stand behind the last token of this one
    have hrest : Placed m.stop hi s ms := ih
      (fun u hu => ⟨hstop ▸ hacross last hlast u hu, (hlo u (List.mem_append_right _ hu)).2⟩)
      (fun u hu => hhi u (List.mem_append_right _ hu))
      (fun u hu => hwithin u (List.mem_append_right _ hu)) hts
    refine ⟨?_, ?_, .cons (fun n hn => (hrest.inside n hn).1) hrest.ordered⟩
    · intro n hn
      rcases List.mem_cons.1 hn with rfl | hn
      · have hle := hhi last (List.mem_append_left _ hlast)
        omega
      · have hn' := hrest.inside n hn
        omega
    · intro n hn
      rcases List.mem_cons.1 hn with rfl | hn
      · exact ⟨hstart ▸ (hwithin first (List.mem_append_left _ hfirst)).start,
          hstop ▸ (hwithin last (List.mem_append_left _ hlast)).stop⟩
      · exact hrest.boundaries n hn

end Grammar

open Recognition in
/-- The literals of a range stand within it. -/
theorem laid_recognize {s : Text} {lo hi : Nat} (hlo : s.Boundary lo) (hhi : s.Boundary hi)
    (hle : lo ≤ hi) : Grammar.Laid (Cursor.tokens ⟨lo, Text.slice lo hi s⟩) (recognize s lo hi)
      ∧ Grammar.Placed lo hi s (recognize s lo hi) := by
  obtain ⟨a, part, b, rfl, rfl, rfl⟩ := hlo.exists_between hhi hle
  have hrecognize : recognize (a ++ part ++ b) (Text.byteLen a) (Text.byteLen (a ++ part)) =
      literals (Cursor.tokens ⟨Text.byteLen a, part⟩) := by
    unfold recognize findings
    rw [Text.slice?_append]
    rfl
  have hlaid := Grammar.laid_literals (Cursor.tokens ⟨Text.byteLen a, part⟩)
    (Cursor.isRead_of_mem_tokens _)
  have hwithin := Cursor.within_of_mem_tokens a ⟨Text.byteLen a, part⟩ rfl
  rw [hrecognize, Text.slice_append]
  refine ⟨hlaid, hlaid.placed (Cursor.offset_lt_stop_of_mem_tokens _)
    (fun t ht => (hwithin t ht).stop.le) (fun t ht => ?_) (Cursor.pairwise_tokens _)⟩
  exact ⟨Text.Boundary.append (hwithin t ht).start b, Text.Boundary.append (hwithin t ht).stop b⟩

/-! ### Widgets and the text between them -/

namespace Synthesis

open Segment

variable {σ : Type} [FileSystem σ] (b : Bundle) (fs : σ)

/-- Whether an image literal stands for a file of the bundle. -/
def hasImage (image : Text) : Bool :=
  match widgetName? b image with
  | none => false
  | some name => (b.resolve fs name).isOk

/-- Whether a literal becomes a widget: one of an image does where the bundle has the image. -/
def becomesWidget (l : Literal) : Bool := l.image?.all (hasImage b fs)

/-- The widgets that a literal may become. -/
inductive Depicts : Literal → Segment → Prop where
  | marker (id : Text) : Depicts .marker (.pattern (.pendingCapture id))
  | region (id : Text) (r : RegionLiteral) : Depicts (.region r) (.region (.ofLiteral id r))
  | chain {name : Text} {path : Path} (id : Text) (p : PatternLiteral)
      (named : widgetName? b p.image = some name) (resolved : b.resolve fs name = .ok path) :
      Depicts (.chain p) (.pattern { Pattern.ofLiteral id name p with resolvedPath := some path })
  | fileName {image name : Text} {path : Path} (id : Text)
      (named : widgetName? b image = some name) (resolved : b.resolve fs name = .ok path) :
      Depicts (.fileName image)
        (.pattern { Pattern.ofLiteral id name (.bare image) with resolvedPath := some path })

/-- The literals and their widgets, and the text between them as it stands. -/
def weave (s : Text) (hi : Nat) : Nat → List (Match × Segment) → List Segment
  | cursor, [] => run (Text.slice cursor hi s)
  | cursor, (m, w) :: placed => run (Text.slice cursor m.start s) ++ w :: weave s hi m.stop placed

/-- The text of a row of segments where each widget is written as the source it was read from. -/
def restore : List Segment → List Text → Text
  | .text t :: row, sources => t ++ restore row sources
  | _ :: row, source :: sources => source ++ restore row sources
  | _, _ => []

/-- How the segments of a range cover its text. -/
structure Covers (s : Text) (lo hi : Nat) (row : List Segment) : Prop where
  placed : Grammar.Placed lo hi s (recognize s lo hi)
  laid : Grammar.Laid (Cursor.tokens ⟨lo, Text.slice lo hi s⟩) (recognize s lo hi)
  widgets : ∃ placed : List (Match × Segment),
    placed.map Prod.fst = (recognize s lo hi).filter (becomesWidget b fs ·.literal)
      ∧ (∀ p ∈ placed, Depicts b fs p.1.literal p.2) ∧ row = weave s hi lo placed
      ∧ restore row (placed.map fun p => Text.slice p.1.start p.1.stop s) = Text.slice lo hi s
  separated : Separated row

variable {b fs} {l : Literal} {ids : IdSource}

theorem Depicts.isWidget {w : Segment} (h : Depicts b fs l w) : w.isWidget = true := by
  cases h <;> rfl

theorem hasImage_eq_false {p : PatternLiteral} (h : (pattern? b fs p ids).1 = none) :
    hasImage b fs p.image = false := by
  unfold hasImage
  unfold pattern? at h
  cases hname : widgetName? b p.image with
  | none => rfl
  | some name =>
    simp only [hname] at h
    cases hresolve : b.resolve fs name with
    | error e => simp only [hresolve]; rfl
    | ok path => simp [hresolve] at h

theorem hasImage_of {image name : Text} {path : Path} (hname : widgetName? b image = some name)
    (hresolve : b.resolve fs name = .ok path) : hasImage b fs image = true := by
  unfold hasImage
  rw [hname]
  simp only [hresolve]
  rfl

/-- Where a literal becomes no widget, its image is not there. -/
theorem becomesWidget_eq_false (h : (widget? b fs l ids).1 = none) :
    becomesWidget b fs l = false := by
  cases l with
  | marker => cases h
  | region r => cases h
  | chain p => exact hasImage_eq_false h
  | fileName name => exact hasImage_eq_false h

theorem depicts_of_widget? {w : Segment} (h : (widget? b fs l ids).1 = some w) :
    becomesWidget b fs l = true ∧ Depicts b fs l w := by
  cases l with
  | marker =>
    obtain rfl := Option.some.inj h
    exact ⟨rfl, .marker _⟩
  | region r =>
    obtain rfl := Option.some.inj h
    exact ⟨rfl, .region _ r⟩
  | chain p =>
    obtain ⟨name, path, hname, hresolve, rfl⟩ := exists_of_pattern? h
    exact ⟨hasImage_of hname hresolve, .chain _ p hname hresolve⟩
  | fileName image =>
    obtain ⟨name, path, hname, hresolve, rfl⟩ := exists_of_pattern? h
    exact ⟨hasImage_of hname hresolve, .fileName _ hname hresolve⟩

/-- The segments between two bytes hold the widgets of exactly the literals that become one. -/
theorem exists_weave_build (b : Bundle) (fs : σ) (s : Text) (hi cursor : Nat) (ms : List Match)
    (ids : IdSource) :
    ∃ placed : List (Match × Segment),
      placed.map Prod.fst = ms.filter (becomesWidget b fs ·.literal)
        ∧ (∀ p ∈ placed, Depicts b fs p.1.literal p.2)
        ∧ (build b fs s hi cursor ms ids).1 = weave s hi cursor placed := by
  induction ms generalizing cursor ids with
  | nil => exact ⟨[], rfl, by simp, rfl⟩
  | cons m ms ih =>
    unfold build
    cases hw : widget? b fs m.literal ids with
    | mk w ids' =>
      cases w with
      | none =>
        obtain ⟨placed, hms, hdepicts, hrow⟩ := ih cursor ids'
        refine ⟨placed, ?_, hdepicts, hrow⟩
        rw [List.filter_cons, becomesWidget_eq_false (congrArg Prod.fst hw)]
        exact hms
      | some w =>
        obtain ⟨hbecomes, hdepicted⟩ := depicts_of_widget? (congrArg Prod.fst hw)
        obtain ⟨placed, hms, hdepicts, hrow⟩ := ih m.stop ids'
        refine ⟨(m, w) :: placed, ?_, List.forall_mem_cons.2 ⟨hdepicted, hdepicts⟩, ?_⟩
        · rw [List.filter_cons, hbecomes, List.map_cons, hms]
          rfl
        · rw [weave, ← hrow]

theorem restore_run (t : Text) (row : List Segment) (sources : List Text) :
    restore (run t ++ row) sources = t ++ restore row sources := by
  unfold run
  split
  · next h => simp [h]
  · rfl

theorem restore_widget {w : Segment} (hw : w.isWidget = true) (row : List Segment) (source : Text)
    (sources : List Text) : restore (w :: row) (source :: sources) = source ++ restore row sources := by
  cases w with
  | text t => cases hw
  | pattern p => rfl
  | region r => rfl

theorem restore_weave {s : Text} {hi cursor : Nat} {placed : List (Match × Segment)}
    (hplaced : Grammar.Placed cursor hi s (placed.map Prod.fst))
    (hwidgets : ∀ p ∈ placed, p.2.isWidget = true) (hcursor : s.Boundary cursor)
    (hhi : s.Boundary hi) (hle : cursor ≤ hi) :
    restore (weave s hi cursor placed) (placed.map fun p => Text.slice p.1.start p.1.stop s)
      = Text.slice cursor hi s := by
  induction placed generalizing cursor with
  | nil =>
    have hrun := restore_run (Text.slice cursor hi s) [] []
    simpa only [restore, weave, List.map_nil, List.append_nil] using hrun
  | cons p placed ih =>
    obtain ⟨m, w⟩ := p
    obtain ⟨hfirst, hlater⟩ := List.pairwise_cons.1 hplaced.ordered
    obtain ⟨hbegin, hlt, hend⟩ := hplaced.inside m (List.mem_cons_self ..)
    obtain ⟨hstart, hstop⟩ := hplaced.boundaries m (List.mem_cons_self ..)
    have hrest : Grammar.Placed m.stop hi s (placed.map Prod.fst) :=
      ⟨fun n hn => ⟨hfirst n hn, (hplaced.inside n (List.mem_cons_of_mem _ hn)).2⟩,
        fun n hn => hplaced.boundaries n (List.mem_cons_of_mem _ hn), hlater⟩
    rw [weave, restore_run, List.map_cons, restore_widget (hwidgets _ (List.mem_cons_self ..)),
      ih hrest (fun q hq => hwidgets q (List.mem_cons_of_mem _ hq)) hstop hend,
      Text.slice_append_slice hstart hstop hhi (by omega) hend,
      Text.slice_append_slice hcursor hstart hhi hbegin (by omega)]

/-- The segments of a range that begins and ends at a boundary cover its text. -/
theorem segments_cover (b : Bundle) (fs : σ) (ids : IdSource) {s : Text} {lo hi : Nat}
    (hlo : s.Boundary lo) (hhi : s.Boundary hi) (hle : lo ≤ hi) :
    Covers b fs s lo hi (segments b fs s lo hi ids).1 := by
  obtain ⟨hlaid, hplaced⟩ := laid_recognize hlo hhi hle
  obtain ⟨placed, hms, hdepicts, hrow⟩ :=
    exists_weave_build b fs s hi lo (recognize s lo hi) ids
  refine ⟨hplaced, hlaid, ⟨placed, hms, hdepicts, hrow, ?_⟩,
    isNormal_iff_separated.1 (isNormal_build ..)⟩
  have hsub : (placed.map Prod.fst).Sublist (recognize s lo hi) := by
    rw [hms]
    exact List.filter_sublist
  have hsome : Grammar.Placed lo hi s (placed.map Prod.fst) :=
    ⟨fun m hm => hplaced.inside m (hsub.subset hm),
      fun m hm => hplaced.boundaries m (hsub.subset hm), hplaced.ordered.sublist hsub⟩
  rw [segments, hrow]
  exact restore_weave hsome (fun p hp => (hdepicts p hp).isWidget) hlo hhi hle

/-- A range behind a character of two bytes, with an image that is not there, a chain that is given
up and an image that is there. -/
theorem segments_cover_missingImage :
    let fs := Store.empty.addFile (.ofString "/w/a.png") [65]
    let b := Bundle.ofScript (.ofString "/w/s.py")
    let s : Text := "é \"b.png\" Pattern(\"c.png\").similar(2) \"a.png\"\n".toList
    let row := (segments b fs s 2 (Text.byteLen s) (.ofScript "/w/s.py".toList)).1
    s.Boundary 2 ∧ s.Boundary (Text.byteLen s) ∧ 2 ≤ Text.byteLen s
      ∧ row.map Segment.isWidget = [false, true, false]
      ∧ Covers b fs s 2 (Text.byteLen s) row := by
  intro fs b s row
  have hlo : s.Boundary 2 := ⟨"é".toList, s.drop 1, by decide, by decide⟩
  have hhi : s.Boundary (Text.byteLen s) := ⟨s, [], (List.append_nil s).symm, rfl⟩
  have hle : 2 ≤ Text.byteLen s := hlo.le
  exact ⟨hlo, hhi, hle, by decide +kernel, segments_cover b fs _ hlo hhi hle⟩

end Synthesis

end ImageScript
