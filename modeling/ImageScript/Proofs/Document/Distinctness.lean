import ImageScript.Proofs.Document.Changes

/-!
# Distinct ids

No two widgets of a document have one id. New widgets take new ids one after another, and of two
widgets that are kept when their lines are read again each stood at an offset of its own before.

Main statements: `Synthesis.nodup_build`, `Document.nodup_keepIdentity`, `Document.Distinct.reparse`.
-/

namespace ImageScript

namespace Segment

theorem mem_idsOf {id : Text} {row : List Segment} :
    id ∈ idsOf row ↔ ∃ s ∈ row, s.id? = some id := List.mem_filterMap

theorem nodup_idsOf_cons {s : Segment} {rest : List Segment} :
    (idsOf (s :: rest)).Nodup ↔
      (∀ id, s.id? = some id → id ∉ idsOf rest) ∧ (idsOf rest).Nodup := by
  cases hs : s.id? with
  | none => simp [idsOf, hs]
  | some id => simp [idsOf, hs]

/-- A part of a row with distinct ids may be replaced by another one whose ids are among those of
the part, or are in neither of the others. -/
theorem nodup_replace_middle {x old new z : List Text} (h : (x ++ old ++ z).Nodup)
    (hnew : new.Nodup) (hids : ∀ id ∈ new, id ∈ old ∨ id ∉ x ++ old ++ z) :
    (x ++ new ++ z).Nodup := by
  have houter : (x ++ z).Nodup := h.sublist
    (List.Sublist.append (List.sublist_append_left x old) (List.Sublist.refl z))
  have hmiddle : (new ++ (x ++ z)).Nodup := by
    refine List.nodup_append.2 ⟨hnew, houter, ?_⟩
    rintro id hid _ hout rfl
    rcases hids id hid with hold | hnone
    · obtain ⟨hxo, -, hdisjoint⟩ := List.nodup_append.1 h
      obtain ⟨-, -, hdisjoint'⟩ := List.nodup_append.1 hxo
      rcases List.mem_append.1 hout with hx | hz
      · exact hdisjoint' id hx id hold rfl
      · exact hdisjoint id (List.mem_append_right _ hold) id hz rfl
    · refine hnone ?_
      rcases List.mem_append.1 hout with hx | hz
      · exact List.mem_append_left _ (List.mem_append_left _ hx)
      · exact List.mem_append_right _ hz
  have hperm : (x ++ new ++ z).Perm (new ++ (x ++ z)) := by
    rw [← List.append_assoc new]
    exact List.perm_append_comm.append_right z
  exact hperm.nodup_iff.2 hmiddle

end Segment

namespace Synthesis

variable {σ : Type} [FileSystem σ] (b : Bundle) (fs : σ)

open Segment

theorem nodup_build (s : Text) (hi cursor : Nat) (ms : List Match) (ids : IdSource) :
    (idsOf (build b fs s hi cursor ms ids).1).Nodup := by
  induction ms generalizing cursor ids with
  | nil =>
    rw [build, idsOf_run]
    exact List.nodup_nil
  | cons m ms ih =>
    obtain ⟨-, hwidget⟩ := widget?_owned b fs m.literal ids
    unfold build
    cases hw : widget? b fs m.literal ids with
    | mk w ids' =>
      rw [hw] at hwidget
      cases w with
      | none => exact ih cursor ids'
      | some w =>
        simp only [idsOf_append, idsOf_run, List.nil_append]
        refine nodup_idsOf_cons.2 ⟨?_, ih m.stop ids'⟩
        -- the ids of later widgets were not handed out yet when this one took its id
        intro id hid hlater
        have howns := hwidget w rfl id (mem_idsOf.2 ⟨w, List.mem_singleton_self w, hid⟩)
        exact build_not_owned b fs s hi m.stop ms ids' id hlater howns

end Synthesis

namespace Document

open Segment

/-- A kept widget stood at the offset of a new one with the same text. -/
theorem mem_keepIdentity {old : List (Nat × Segment)} {offset : Nat} {row : List Segment}
    {t : Segment} (h : t ∈ keepIdentity old offset row) :
    t ∈ row ∨ ∃ o v, (o, t) ∈ old ∧ (o, v) ∈ placedWidgets offset row ∧ t.toText = v.toText := by
  induction row generalizing offset with
  | nil => exact absurd h List.not_mem_nil
  | cons s rest ih =>
    obtain ⟨kept, heq, hkept⟩ := keepIdentity_cons old offset s rest
    rw [heq] at h
    rcases List.mem_cons.1 h with rfl | h
    · rcases hkept with rfl | ⟨hs, hmem, htext⟩
      · exact Or.inl (List.mem_cons_self ..)
      · refine Or.inr ⟨offset, s, hmem, ?_, htext⟩
        rw [placedWidgets, if_pos hs]
        exact List.mem_cons_self ..
    · rcases ih h with hrest | ⟨o, v, hmem, hplaced, htext⟩
      · exact Or.inl (List.mem_cons_of_mem _ hrest)
      · refine Or.inr ⟨o, v, hmem, ?_, htext⟩
        rw [placedWidgets]
        split
        · exact List.mem_cons_of_mem _ hplaced
        · exact hplaced

/-- In a row with distinct ids, a widget stands at one offset only. -/
theorem placed_unique_of_id {row : List Segment} (h : (idsOf row).Nodup) (offset : Nat) :
    ∀ v ∈ placedWidgets offset row, ∀ w ∈ placedWidgets offset row, v.2.id? = w.2.id? → v = w := by
  induction row generalizing offset with
  | nil => exact fun v hv => absurd hv List.not_mem_nil
  | cons s rest ih =>
    obtain ⟨hfirst, hrest⟩ := nodup_idsOf_cons.1 h
    have hlater : ∀ w ∈ placedWidgets (offset + s.textLen) rest, s.isWidget = true →
        s.id? ≠ w.2.id? := by
      intro w hw hs heq
      obtain ⟨id, hid⟩ := exists_id hs
      exact hfirst id hid (mem_idsOf.2 ⟨w.2, placedWidgets_subset _ _ w hw, heq ▸ hid⟩)
    intro v hv w hw heq
    rw [placedWidgets] at hv hw
    split at hv
    · next hs =>
      rw [if_pos hs] at hw
      rcases List.mem_cons.1 hv with rfl | hv
      · rcases List.mem_cons.1 hw with rfl | hw
        · rfl
        · exact absurd heq (hlater w hw hs)
      · rcases List.mem_cons.1 hw with rfl | hw
        · exact absurd heq.symm (hlater v hv hs)
        · exact ih hrest _ v hv w hw heq
    · next hs =>
      rw [if_neg hs] at hw
      exact ih hrest _ v hv w hw heq

theorem nodup_keepIdentity {old : List (Nat × Segment)}
    (hunique : ∀ v ∈ old, ∀ w ∈ old, v.2.id? = w.2.id? → v = w) (offset : Nat)
    {row : List Segment} (hrow : (idsOf row).Nodup)
    (hnew : ∀ id ∈ idsOf row, id ∉ idsOf (old.map Prod.snd)) :
    (idsOf (keepIdentity old offset row)).Nodup := by
  have hold : ∀ {o t id}, (o, t) ∈ old → t.id? = some id → id ∈ idsOf (old.map Prod.snd) :=
    fun hmem hid => mem_idsOf.2 ⟨_, List.mem_map_of_mem hmem, hid⟩
  induction row generalizing offset with
  | nil => exact List.nodup_nil
  | cons s rest ih =>
    obtain ⟨hfirst, hrest⟩ := nodup_idsOf_cons.1 hrow
    have hnew' : ∀ {t id}, t ∈ s :: rest → t.id? = some id → id ∉ idsOf (old.map Prod.snd) :=
      fun ht hid => hnew _ (mem_idsOf.2 ⟨_, ht, hid⟩)
    obtain ⟨kept, heq, hkept⟩ := keepIdentity_cons old offset s rest
    rw [heq]
    refine nodup_idsOf_cons.2 ⟨?_, ih _ hrest fun id hid => ?_⟩
    · intro id hid hlater
      obtain ⟨t, ht, htid⟩ := mem_idsOf.1 hlater
      rcases hkept with rfl | ⟨hs, hmem, -⟩
      · rcases mem_keepIdentity ht with ht | ⟨o, v, hmem, -⟩
        · exact hfirst id hid (mem_idsOf.2 ⟨t, ht, htid⟩)
        · exact hnew' (List.mem_cons_self ..) hid (hold hmem htid)
      · rcases mem_keepIdentity ht with ht | ⟨o, v, hmem', hplaced, -⟩
        · exact hnew' (List.mem_cons_of_mem _ ht) htid (hold hmem hid)
        · -- two kept widgets with one id are one, but they stood at different offsets
          have hsame := hunique _ hmem _ hmem' (hid.trans htid.symm)
          have hle := le_of_placed _ _ _ hplaced
          have hpos := textLen_pos hs
          simp only [Prod.mk.injEq] at hsame
          dsimp only at hle
          omega
    · obtain ⟨t, ht, htid⟩ := mem_idsOf.1 hid
      exact hnew' (List.mem_cons_of_mem _ ht) htid

/-- Whether a document is sound and no two of its widgets have one id. -/
structure Distinct (d : Document) : Prop extends Sound d where
  nodup : (idsOf d.segments).Nodup

namespace Distinct

variable {σ : Type} [FileSystem σ] {d e : Document} {x y y' z : List Atom}

theorem ofText (s : Text) (b : Bundle) (fs : σ) : (Document.ofText s b fs).Distinct :=
  ⟨Sound.ofText s b fs, Synthesis.nodup_build ..⟩

theorem replace (h : d.Distinct) (hr : Replaced d e x y y' z) : e.Distinct := by
  refine ⟨hr.sound h.toSound, ?_⟩
  have hplain : y'.filterMap Atom.id? = [] := List.filterMap_eq_nil_iff.2 hr.plain
  have hnodup := h.nodup
  rw [idsOf_eq_filterMap, hr.atoms_eq, List.filterMap_append, List.filterMap_append] at hnodup
  rw [hr.row_eq, idsOf_toRow, List.filterMap_append, List.filterMap_append, hplain]
  exact nodup_replace_middle hnodup List.nodup_nil fun _ h => absurd h List.not_mem_nil

theorem reparse (h : d.Distinct) (b : Bundle) (fs : σ) : (d.reparse b fs).2.Distinct := by
  refine ⟨h.toSound.reparse b fs, ?_⟩
  cases hf : d.freshness with
  | clean =>
    unfold Document.reparse
    rw [hf]
    exact h.nodup
  | dirty lo hi =>
    obtain ⟨x, y, z, hcut, -⟩ := exists_cut_rereadRange d lo hi
    obtain ⟨old, rfl, -, hrow⟩ := reparse_of_cut b fs hf hcut
    rcases hrow with ⟨-, hrow⟩ | hrow
    · rw [hrow]
      exact h.nodup
    · have hnodup := h.nodup
      rw [idsOf_eq_filterMap, hcut.atoms_eq, List.filterMap_append, List.filterMap_append,
        ← idsOf_eq_filterMap old] at hnodup
      have hold : (idsOf old).Nodup :=
        hnodup.sublist ((List.sublist_append_right _ _).trans (List.sublist_append_left _ _))
      -- new ids were not handed out, and all those of the document were
      have hnew : ∀ id ∈ idsOf (Synthesis.segments b fs d.text (Text.byteLen (Atom.joinText x))
          (Text.byteLen (Atom.joinText x) + Text.byteLen (Atom.joinText (atoms old))) d.ids).1,
          id ∉ idsOf d.segments :=
        fun id hid hmem => Synthesis.build_not_owned b fs _ _ _ _ _ id hid (h.owned id hmem)
      have hsub := idsOf_subset_of_cut hcut
      have hplaced : ∀ id ∈ idsOf ((placedWidgets (Text.byteLen (Atom.joinText x)) old).map
          Prod.snd), id ∈ idsOf old := by
        intro id hid
        obtain ⟨w, hw, hwid⟩ := mem_idsOf.1 hid
        obtain ⟨v, hv, rfl⟩ := List.mem_map.1 hw
        exact mem_idsOf.2 ⟨v.2, placedWidgets_subset _ _ v hv, hwid⟩
      rw [hrow, idsOf_toRow, List.filterMap_append, List.filterMap_append, ← idsOf_eq_filterMap]
      refine nodup_replace_middle hnodup ?_ ?_
      · refine nodup_keepIdentity (placed_unique_of_id hold _) _ (Synthesis.nodup_build ..) ?_
        exact fun id hid hmem => hnew id hid (hsub id (hplaced id hmem))
      · intro id hid
        rcases idsOf_keepIdentity _ _ _ id hid with hid | hid
        · exact Or.inl (hplaced id hid)
        · right
          have hnone := hnew id hid
          rwa [idsOf_eq_filterMap, hcut.atoms_eq, List.filterMap_append, List.filterMap_append,
            ← idsOf_eq_filterMap old] at hnone

end Distinct

end Document

end ImageScript
