import ImageScript.Document.Reparse
import ImageScript.Proofs.Document.Edits

/-!
# Identity of widgets

Every id in a document was handed out by its source, so that a new one is in no row the document has
ever had. Reading a text again keeps it so.

Main statements: `IdSource.not_owns_next`, `Synthesis.build_owned`, `Document.reread_reparse`,
`Document.Sound.reparse`.
-/

namespace ImageScript

namespace IdSource

/-- Whether an id was handed out. -/
def Owns (ids : IdSource) (id : Text) : Prop := ∃ kind n, n ≤ ids.issued ∧ id = ids.idAt kind n

/-- Whether every id of a row was handed out. -/
def OwnsAll (ids : IdSource) (row : List Segment) : Prop :=
  ∀ id ∈ Segment.idsOf row, ids.Owns id

/-- Whether a source became another one by handing out ids. -/
structure Grows (ids ids' : IdSource) : Prop where
  seed_eq : ids'.seed = ids.seed
  issued_le : ids.issued ≤ ids'.issued

variable {ids ids' ids'' : IdSource} {kind : WidgetKind} {id : Text} {row : List Segment}

theorem Grows.refl (ids : IdSource) : ids.Grows ids := ⟨rfl, Nat.le_refl _⟩

theorem Grows.trans (h : ids.Grows ids') (h' : ids'.Grows ids'') : ids.Grows ids'' :=
  ⟨h'.seed_eq.trans h.seed_eq, Nat.le_trans h.issued_le h'.issued_le⟩

theorem grows_next (ids : IdSource) (kind : WidgetKind) : ids.Grows (ids.next kind).2 :=
  ⟨rfl, Nat.le_succ _⟩

theorem Owns.grow (h : ids.Owns id) (hg : ids.Grows ids') : ids'.Owns id := by
  obtain ⟨kind, n, hn, rfl⟩ := h
  refine ⟨kind, n, Nat.le_trans hn hg.issued_le, ?_⟩
  unfold idAt
  rw [hg.seed_eq]

theorem OwnsAll.grow (h : ids.OwnsAll row) (hg : ids.Grows ids') : ids'.OwnsAll row :=
  fun id hid => (h id hid).grow hg

theorem owns_next (ids : IdSource) (kind : WidgetKind) :
    (ids.next kind).2.Owns (ids.next kind).1 :=
  ⟨kind, ids.issued + 1, Nat.le_refl _, rfl⟩

theorem idAt_inj {kind' : WidgetKind} {n n' : Nat} (h : ids.idAt kind n = ids.idAt kind' n') :
    n = n' := by
  have htail := List.append_cancel_left h
  simp only [List.cons.injEq, true_and] at htail
  have hdigits : Nat.toDigits 10 n = Nat.toDigits 10 n' := htail.2
  rw [← Nat.ofDigitChars_ten_toDigits (n := n), hdigits, Nat.ofDigitChars_ten_toDigits]

/-- A new id was not handed out before. -/
theorem not_owns_next (ids : IdSource) (kind : WidgetKind) : ¬ ids.Owns (ids.next kind).1 := by
  rintro ⟨kind', n, hn, h⟩
  have heq : ids.issued + 1 = n := idAt_inj h
  omega

/-- The id that a counter of 32 bits hands out, which starts again at zero behind its greatest
number. -/
def narrowNext (ids : IdSource) (kind : WidgetKind) : Text :=
  ids.idAt kind (UInt32.ofNat ids.issued + 1).toNat

/-- Up to its greatest number a counter of 32 bits hands out the same ids. -/
theorem narrowNext_eq (kind : WidgetKind) (h : ids.issued + 1 < UInt32.size) :
    ids.narrowNext kind = (ids.next kind).1 := by
  have hnumber : (UInt32.ofNat ids.issued + 1).toNat = ids.issued + 1 := by
    have hsize : UInt32.size = 4294967296 := rfl
    rw [UInt32.toNat_add, UInt32.toNat_ofNat_of_lt' (by omega), UInt32.toNat_one]
    omega
  rw [narrowNext, hnumber]
  rfl

end IdSource

namespace Synthesis

variable {σ : Type} [FileSystem σ]

open IdSource Segment

/-- The widget of an image literal shows a file of the bundle with what the literal says. -/
theorem exists_of_pattern? {b : Bundle} {fs : σ} {l : PatternLiteral} {ids : IdSource} {w : Segment}
    (h : (pattern? b fs l ids).1 = some w) : ∃ name path, widgetName? b l.image = some name
      ∧ b.resolve fs name = .ok path ∧ w = .pattern { Pattern.ofLiteral (ids.next .pattern).1 name l
        with resolvedPath := some path } := by
  unfold pattern? at h
  split at h
  · cases h
  · next name hname =>
    split at h
    · cases h
    · next path hresolve => exact ⟨name, path, hname, hresolve, (Option.some.inj h).symm⟩

theorem pattern?_owned (b : Bundle) (fs : σ) (l : PatternLiteral) (ids : IdSource) :
    ids.Grows (pattern? b fs l ids).2
      ∧ ∀ s ∈ (pattern? b fs l ids).1, (pattern? b fs l ids).2.OwnsAll [s] := by
  unfold pattern?
  split
  · exact ⟨Grows.refl ids, by simp⟩
  · split
    · exact ⟨Grows.refl ids, by simp⟩
    · refine ⟨grows_next ids .pattern, ?_⟩
      intro s hs id hid
      simp only [Option.mem_def, Option.some.injEq] at hs
      subst hs
      obtain rfl : id = (ids.next .pattern).1 := List.mem_singleton.1 hid
      exact owns_next ids .pattern

theorem widget?_owned (b : Bundle) (fs : σ) (l : Literal) (ids : IdSource) :
    ids.Grows (widget? b fs l ids).2
      ∧ ∀ s ∈ (widget? b fs l ids).1, (widget? b fs l ids).2.OwnsAll [s] := by
  cases l with
  | marker =>
    refine ⟨grows_next ids .pattern, ?_⟩
    intro s hs id hid
    simp only [widget?, placeholder, Option.mem_def, Option.some.injEq] at hs
    subst hs
    obtain rfl : id = (ids.next .pattern).1 := List.mem_singleton.1 hid
    exact owns_next ids .pattern
  | region r =>
    refine ⟨grows_next ids .region, ?_⟩
    intro s hs id hid
    simp only [widget?, Option.mem_def, Option.some.injEq] at hs
    subst hs
    obtain rfl : id = (ids.next .region).1 := List.mem_singleton.1 hid
    exact owns_next ids .region
  | chain p => exact pattern?_owned b fs p ids
  | fileName name => exact pattern?_owned b fs (.bare name) ids

theorem idsOf_run (s : Text) : idsOf (run s) = [] := by
  unfold run
  split <;> rfl

theorem build_owned (b : Bundle) (fs : σ) (s : Text) (hi cursor : Nat) (ms : List Match)
    (ids : IdSource) :
    ids.Grows (build b fs s hi cursor ms ids).2
      ∧ (build b fs s hi cursor ms ids).2.OwnsAll (build b fs s hi cursor ms ids).1 := by
  induction ms generalizing cursor ids with
  | nil =>
    refine ⟨Grows.refl ids, ?_⟩
    intro id hid
    rw [build, idsOf_run] at hid
    exact absurd hid List.not_mem_nil
  | cons m ms ih =>
    obtain ⟨hgrows, hwidget⟩ := widget?_owned b fs m.literal ids
    unfold build
    cases hw : widget? b fs m.literal ids with
    | mk w ids' =>
      rw [hw] at hgrows hwidget
      cases w with
      | none =>
        obtain ⟨hg, ho⟩ := ih cursor ids'
        exact ⟨hgrows.trans hg, ho⟩
      | some w =>
        obtain ⟨hg, ho⟩ := ih m.stop ids'
        refine ⟨hgrows.trans hg, ?_⟩
        intro id hid
        simp only [idsOf_append, List.mem_append] at hid
        rcases hid with hid | hid
        · rw [idsOf_run] at hid
          exact absurd hid List.not_mem_nil
        · rw [idsOf_cons, List.mem_append] at hid
          rcases hid with hid | hid
          · exact ((hwidget w rfl) id hid).grow hg
          · exact ho id hid

theorem isNormal_run (s : Text) : IsNormal (run s) := by
  unfold IsNormal
  rw [← normalize_eq_toRow]
  unfold run
  split
  · rfl
  · next hs => simp [Segment.normalize, Segment.attach, hs]

/-- A run before a widget stays as it is. -/
theorem isNormal_run_append {s : Text} {w : Segment} {rest : List Segment}
    (hw : w.isWidget = true) (hrest : IsNormal rest) : IsNormal (run s ++ w :: rest) := by
  unfold IsNormal at *
  rw [← normalize_eq_toRow] at *
  have hwidget : Segment.normalize (w :: rest) = w :: rest := by
    show Segment.attach w (Segment.normalize rest) = w :: rest
    rw [hrest]
    cases w with
    | text t => simp [isWidget] at hw
    | pattern p => rfl
    | region r => rfl
  unfold run
  split
  · exact hwidget
  · next hs =>
    show Segment.attach (.text s) (Segment.normalize (w :: rest)) = .text s :: w :: rest
    rw [hwidget]
    cases w with
    | text t => simp [isWidget] at hw
    | pattern p => simp [Segment.attach, hs]
    | region r => simp [Segment.attach, hs]

theorem isWidget_of_widget? {b : Bundle} {fs : σ} {l : Literal} {ids : IdSource} {w : Segment}
    (h : (widget? b fs l ids).1 = some w) : w.isWidget = true := by
  have hpattern : ∀ l, (pattern? b fs l ids).1 = some w → w.isWidget = true := by
    intro l h
    obtain ⟨name, path, -, -, rfl⟩ := exists_of_pattern? h
    rfl
  cases l with
  | marker =>
    obtain rfl := Option.some.inj h
    rfl
  | region r =>
    obtain rfl := Option.some.inj h
    rfl
  | chain p => exact hpattern p h
  | fileName name => exact hpattern (.bare name) h

theorem isNormal_build (b : Bundle) (fs : σ) (s : Text) (hi cursor : Nat) (ms : List Match)
    (ids : IdSource) : IsNormal (build b fs s hi cursor ms ids).1 := by
  induction ms generalizing cursor ids with
  | nil => exact isNormal_run _
  | cons m ms ih =>
    unfold build
    cases hw : widget? b fs m.literal ids with
    | mk w ids' =>
      cases w with
      | none => exact ih cursor ids'
      | some w =>
        have hwidget := isWidget_of_widget? (congrArg Prod.fst hw)
        exact isNormal_run_append hwidget (ih m.stop ids')

/-- Every widget of a row is the widget of a literal. -/
theorem exists_widget?_of_mem_build {fs : σ} {s : Text} {hi cursor : Nat} {ms : List Match}
    {ids : IdSource} {w : Segment} (h : w ∈ (build b fs s hi cursor ms ids).1)
    (hw : w.isWidget = true) :
    ∃ m ∈ ms, ∃ ids', (widget? b fs m.literal ids').1 = some w := by
  have hrun : ∀ t, w ∉ run t := by
    intro t ht
    unfold run at ht
    split at ht
    · exact absurd ht List.not_mem_nil
    · obtain rfl := List.mem_singleton.1 ht
      simp [Segment.isWidget] at hw
  induction ms generalizing cursor ids with
  | nil => exact absurd h (hrun _)
  | cons m ms ih =>
    have hlater : ∀ {cursor ids}, w ∈ (build b fs s hi cursor ms ids).1 →
        ∃ m' ∈ m :: ms, ∃ ids', (widget? b fs m'.literal ids').1 = some w := by
      intro cursor ids h
      obtain ⟨m', hm', hfound⟩ := ih h
      exact ⟨m', List.mem_cons_of_mem _ hm', hfound⟩
    unfold build at h
    cases hfirst : widget? b fs m.literal ids with
    | mk v ids' =>
      rw [hfirst] at h
      cases v with
      | none => exact hlater h
      | some v =>
        rcases List.mem_append.1 h with h | h
        · exact absurd h (hrun _)
        · rcases List.mem_cons.1 h with rfl | h
          · exact ⟨m, List.mem_cons_self .., ids, congrArg Prod.fst hfirst⟩
          · exact hlater h

end Synthesis

namespace Document

open IdSource Segment

/-- Kept widgets are old ones. -/
theorem idsOf_keepIdentity (old : List (Nat × Segment)) (offset : Nat) (row : List Segment) :
    ∀ id ∈ idsOf (keepIdentity old offset row),
      id ∈ idsOf (old.map Prod.snd) ∨ id ∈ idsOf row := by
  induction row generalizing offset with
  | nil => exact fun id hid => absurd hid List.not_mem_nil
  | cons s rest ih =>
    intro id hid
    obtain ⟨t, ht, htid⟩ := List.mem_filterMap.1 hid
    rcases List.mem_cons.1 ht with rfl | ht
    · split at htid
      · split at htid
        · next w hw =>
          have hmem := List.mem_of_find?_eq_some hw
          exact Or.inl (List.mem_filterMap.2 ⟨w.2, List.mem_map_of_mem hmem, htid⟩)
        · exact Or.inr (List.mem_filterMap.2 ⟨s, List.mem_cons_self .., htid⟩)
      · exact Or.inr (List.mem_filterMap.2 ⟨s, List.mem_cons_self .., htid⟩)
    · rcases ih _ id (List.mem_filterMap.2 ⟨t, ht, htid⟩) with hold | hrest
      · exact Or.inl hold
      · obtain ⟨u, hu, huid⟩ := List.mem_filterMap.1 hrest
        exact Or.inr (List.mem_filterMap.2 ⟨u, List.mem_cons_of_mem _ hu, huid⟩)

/-- What is placed is a widget of the row, and stands at the start of the row or behind it. -/
theorem of_mem_placedWidgets {offset : Nat} {row : List Segment} {w : Nat × Segment}
    (h : w ∈ placedWidgets offset row) : w.2 ∈ row ∧ w.2.isWidget = true ∧ offset ≤ w.1 := by
  induction row generalizing offset with
  | nil => exact absurd h List.not_mem_nil
  | cons s rest ih =>
    have hlater : w ∈ placedWidgets (offset + s.textLen) rest →
        w.2 ∈ s :: rest ∧ w.2.isWidget = true ∧ offset ≤ w.1 := by
      intro hw
      obtain ⟨hmem, hwidget, hle⟩ := ih hw
      exact ⟨List.mem_cons_of_mem _ hmem, hwidget, by omega⟩
    simp only [placedWidgets] at h
    split at h
    · next hs =>
      rcases List.mem_cons.1 h with rfl | hw
      · exact ⟨List.mem_cons_self .., hs, Nat.le_refl _⟩
      · exact hlater hw
    · exact hlater h

theorem placedWidgets_subset (offset : Nat) (row : List Segment) :
    ∀ w ∈ placedWidgets offset row, w.2 ∈ row := fun _ hw => (of_mem_placedWidgets hw).1

theorem isWidget_of_placed (offset : Nat) (row : List Segment) :
    ∀ w ∈ placedWidgets offset row, w.2.isWidget = true := fun _ hw => (of_mem_placedWidgets hw).2.1

theorem le_of_placed (offset : Nat) (row : List Segment) :
    ∀ w ∈ placedWidgets offset row, offset ≤ w.1 := fun _ hw => (of_mem_placedWidgets hw).2.2

variable {σ : Type} [FileSystem σ]

/-- All that reading again can do: nothing to the row, or a range of it built anew. -/
structure Reread (d : Document) (result : Option Rebuilt × Document) : Prop where
  clean : result.2.freshness = .clean
  grows : d.ids.Grows result.2.ids
  kept : result.1 = none → result.2.segments = d.segments
  rebuilt : ∀ r, result.1 = some r → ∃ x z,
    Cut d.segments r.pos (r.pos + totalLen r.removed) x (atoms r.removed) z
      ∧ result.2.segments = Atom.toRow (x ++ atoms r.inserted ++ z)
      ∧ (d.ids.OwnsAll d.segments → result.2.ids.OwnsAll r.inserted)

theorem idsOf_subset_of_cut {row parts : List Segment} {lo hi : Nat} {x z : List Atom}
    (h : Cut row lo hi x (atoms parts) z) : ∀ id ∈ idsOf parts, id ∈ idsOf row := by
  intro id hid
  rw [idsOf_eq_filterMap] at hid ⊢
  rw [h.atoms_eq, List.filterMap_append, List.filterMap_append]
  exact List.mem_append_left _ (List.mem_append_right _ hid)

theorem reread_reparse (d : Document) (b : Bundle) (fs : σ) : d.Reread (d.reparse b fs) := by
  unfold reparse
  cases hf : d.freshness with
  | clean => exact ⟨hf, Grows.refl _, fun _ => rfl, by simp⟩
  | dirty lo hi =>
    dsimp only
    cases hold : d.segmentsIn (d.rereadRange lo hi).1 (d.rereadRange lo hi).2 with
    | error e => exact ⟨rfl, Grows.refl _, fun _ => rfl, by simp⟩
    | ok old =>
      dsimp only
      generalize hstart : (d.rereadRange lo hi).1 = start at *
      generalize hstop : (d.rereadRange lo hi).2 = stop at *
      generalize hfresh : Synthesis.segments b fs d.text (offsetOf d.segments start)
        (offsetOf d.segments stop) d.ids = fresh
      have hfresh' := Synthesis.build_owned b fs d.text (offsetOf d.segments stop)
        (offsetOf d.segments start) (recognize d.text (offsetOf d.segments start)
          (offsetOf d.segments stop)) d.ids
      change d.ids.Grows (Synthesis.segments ..).2 ∧ (Synthesis.segments ..).2.OwnsAll
        (Synthesis.segments ..).1 at hfresh'
      rw [hfresh] at hfresh'
      obtain ⟨hgrows, howns⟩ := hfresh'
      split
      · exact ⟨rfl, hgrows, fun _ => rfl, by simp⟩
      · cases hsplice : d.splice? start stop (keepIdentity (placedWidgets
          (offsetOf d.segments start) old) (offsetOf d.segments start) fresh.1) with
        | none => exact ⟨rfl, hgrows, fun _ => rfl, by simp⟩
        | some p =>
          refine ⟨rfl, hgrows, by simp, ?_⟩
          intro r hr
          simp only [Option.some.injEq] at hr
          subst hr
          obtain ⟨x, z, hcut⟩ := cut_of_segmentsIn hold
          have hle := hcut.le
          have hlen : start + totalLen old = stop := by
            have h₁ := hcut.start_eq
            have h₂ := hcut.stop_eq
            rw [Atom.totalLen_append, totalLen_atoms] at h₂
            omega
          obtain ⟨x', z', hcut', hrow⟩ := cut_of_splice? hle hsplice
          obtain ⟨rfl, -, rfl⟩ := hcut.unique hcut'
          refine ⟨x, z, by rwa [hlen], hrow, ?_⟩
          intro hown id hid
          rcases idsOf_keepIdentity _ _ _ id hid with hid | hid
          · obtain ⟨w, hw, hwid⟩ := List.mem_filterMap.1 hid
            obtain ⟨v, hv, rfl⟩ := List.mem_map.1 hw
            have hmem := placedWidgets_subset _ _ v hv
            have hrow := idsOf_subset_of_cut hcut id (List.mem_filterMap.2 ⟨v.2, hmem, hwid⟩)
            exact (hown id hrow).grow hgrows
          · exact howns id hid

/-- Whether the row of a document is normal and its ids come from its own source. -/
structure Sound (d : Document) : Prop where
  normal : IsNormal d.segments
  owned : d.ids.OwnsAll d.segments

theorem Sound.ofText (s : Text) (b : Bundle) (fs : σ) : (Document.ofText s b fs).Sound :=
  ⟨Synthesis.isNormal_build .., (Synthesis.build_owned ..).2⟩

theorem Sound.reparse {d : Document} (h : d.Sound) (b : Bundle) (fs : σ) :
    (d.reparse b fs).2.Sound := by
  have hreread := reread_reparse d b fs
  cases hr : (d.reparse b fs).1 with
  | none =>
    have hkept := hreread.kept hr
    constructor
    · rw [hkept]
      exact h.normal
    · rw [hkept]
      exact h.owned.grow hreread.grows
  | some r =>
    obtain ⟨x, z, hcut, hrow, howned⟩ := hreread.rebuilt r hr
    constructor
    · rw [hrow]
      exact isNormal_toRow _
    · intro id hid
      rw [hrow, idsOf_toRow, List.filterMap_append, List.filterMap_append] at hid
      have hold : id ∈ x.filterMap Atom.id? ∨ id ∈ z.filterMap Atom.id? →
          (d.reparse b fs).2.ids.Owns id := by
        intro hmem
        refine (h.owned id ?_).grow hreread.grows
        rw [idsOf_eq_filterMap, hcut.atoms_eq, List.filterMap_append, List.filterMap_append]
        rcases hmem with hmem | hmem
        · exact List.mem_append_left _ (List.mem_append_left _ hmem)
        · exact List.mem_append_right _ hmem
      rcases List.mem_append.1 hid with hid | hid
      · rcases List.mem_append.1 hid with hid | hid
        · exact hold (Or.inl hid)
        · rw [← idsOf_eq_filterMap] at hid
          exact howned h.owned id hid
      · exact hold (Or.inr hid)

end Document

end ImageScript
