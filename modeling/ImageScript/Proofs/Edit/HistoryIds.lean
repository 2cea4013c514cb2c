import ImageScript.Proofs.Document.Distinctness
import ImageScript.Proofs.Edit.Steps

/-!
# Ids in the history

The history of a draft holds ids of its own: those that its mutations look for, and those of the
widgets that they bring along or take back. Where every id of a mutation was handed out, so was every
id of its inverse, and a draft that holds no foreign id holds none behind a change, an edit, an undo
or a redo.

Main statements: `Mutation.ids_of_inverse`, `Draft.Owned.edit`, `Draft.Owned.undo`,
`Draft.Owned.redo`, `Draft.edit_distinct`.
-/

namespace ImageScript

open Segment

namespace Mutation

/-- The ids that a mutation looks for or brings along. -/
def ids : Mutation → List Text
  | insertText .. | removeRange .. => []
  | insertSegments _ inserted => idsOf inserted
  | updatePattern id p | replacePattern id p => [id, p.id]
  | updateRegion id r => [id, r.id]

variable {m inv : Mutation} {ms : List Mutation} {d d' : Document} {id : Text}

theorem newIds_subset_ids : ∀ id ∈ m.newIds, id ∈ m.ids := by
  intro id hid
  cases m with
  | insertText pos s => exact hid
  | removeRange lo hi => exact hid
  | insertSegments pos inserted => exact hid
  | updatePattern i p => exact absurd hid List.not_mem_nil
  | replacePattern i p => exact List.mem_cons_of_mem _ hid
  | updateRegion i r => exact absurd hid List.not_mem_nil

theorem id_mem_of_findPattern {p : Pattern} (h : d.findPattern id = .ok p) :
    p.id = id ∧ id ∈ idsOf d.segments := by
  have hfind := Document.findPattern_eq_ok.1 h
  have hid : (Segment.pattern p).id? = some id := by simpa using List.find?_some hfind
  exact ⟨Option.some.inj hid, mem_idsOf.2 ⟨_, List.mem_of_find?_eq_some hfind, hid⟩⟩

theorem id_mem_of_findRegion {r : Region} (h : d.findRegion id = .ok r) :
    r.id = id ∧ id ∈ idsOf d.segments := by
  have hfind := Document.findRegion_eq_ok.1 h
  have hid : (Segment.region r).id? = some id := by simpa using List.find?_some hfind
  exact ⟨Option.some.inj hid, mem_idsOf.2 ⟨_, List.mem_of_find?_eq_some hfind, hid⟩⟩

/-- An inverse holds no ids but those of the document and of the mutation. -/
theorem ids_of_inverse (h : m.inverse d = .ok inv) :
    ∀ id ∈ inv.ids, id ∈ idsOf d.segments ∨ id ∈ m.ids := by
  obtain ⟨-, -, h⟩ := ok_of_bind h
  have hnone : ∀ {lo hi}, inv = removeRange lo hi →
      ∀ id ∈ inv.ids, id ∈ idsOf d.segments ∨ id ∈ m.ids := by
    rintro lo hi rfl id hid
    exact absurd hid List.not_mem_nil
  have hfound : ∀ {i j : Text}, inv.ids = [i, j] → i ∈ m.ids →
      j ∈ idsOf d.segments → ∀ id ∈ inv.ids, id ∈ idsOf d.segments ∨ id ∈ m.ids := by
    intro i j hids hi hj id hid
    rw [hids] at hid
    rcases List.mem_cons.1 hid with rfl | hid
    · exact Or.inr hi
    · rw [List.mem_singleton.1 hid]
      exact Or.inl hj
  cases m with
  | insertText pos s => exact hnone (Except.ok.inj h).symm
  | insertSegments pos inserted => exact hnone (Except.ok.inj h).symm
  | removeRange lo hi =>
    obtain ⟨parts, hparts, h⟩ := ok_of_bind h
    obtain rfl := Except.ok.inj h
    obtain ⟨x, z, hcut⟩ := Document.cut_of_segmentsIn hparts
    exact fun id hid => Or.inl (Document.idsOf_subset_of_cut hcut id hid)
  | updatePattern i q =>
    obtain ⟨p, hp, h⟩ := ok_of_bind h
    obtain rfl := Except.ok.inj h
    obtain ⟨hid, hmem⟩ := id_mem_of_findPattern hp
    exact hfound rfl (List.mem_cons_self ..) (hid ▸ hmem)
  | replacePattern i q =>
    obtain ⟨p, hp, h⟩ := ok_of_bind h
    obtain rfl := Except.ok.inj h
    obtain ⟨hid, hmem⟩ := id_mem_of_findPattern hp
    exact hfound rfl (List.mem_cons_of_mem _ (List.mem_cons_self ..)) (hid ▸ hmem)
  | updateRegion i q =>
    obtain ⟨r, hr, h⟩ := ok_of_bind h
    obtain rfl := Except.ok.inj h
    obtain ⟨hid, hmem⟩ := id_mem_of_findRegion hr
    exact hfound rfl (List.mem_cons_self ..) (hid ▸ hmem)

/-- A mutation hands out no ids. -/
theorem source_of_apply (h : m.apply d = .ok d') : d'.ids = d.ids := by
  obtain ⟨_, -, h⟩ := ok_of_bind h
  cases m with
  | insertText pos s =>
    simp only [Document.insertText] at h
    split at h
    · rw [← Except.ok.inj h]
    · split at h
      · cases h
      · rw [← Except.ok.inj h]
  | insertSegments pos inserted =>
    simp only [Document.insertSegments] at h
    split at h
    · rw [← Except.ok.inj h]
    · split at h
      · cases h
      · rw [← Except.ok.inj h]
  | removeRange lo hi =>
    obtain ⟨v, hv, rfl⟩ := ok_of_map h
    simp only [Document.removeRange] at hv
    split at hv
    · cases hv
    · split at hv
      · rw [← Except.ok.inj hv]
      · split at hv
        · cases hv
        · cases hv
        · rw [← Except.ok.inj hv]
  | updatePattern i q =>
    obtain ⟨v, hv, rfl⟩ := ok_of_map h
    obtain ⟨p, -, hv⟩ := ok_of_bind hv
    rw [← Except.ok.inj hv]
  | replacePattern i q =>
    obtain ⟨v, hv, rfl⟩ := ok_of_map h
    obtain ⟨p, -, hv⟩ := ok_of_bind hv
    rw [← Except.ok.inj hv]
  | updateRegion i q =>
    obtain ⟨v, hv, rfl⟩ := ok_of_map h
    obtain ⟨r, -, hv⟩ := ok_of_bind hv
    rw [← Except.ok.inj hv]

theorem source_of_applyAll : (applyAll ms d).1.ids = d.ids := by
  induction ms generalizing d with
  | nil => rfl
  | cons m ms ih =>
    rw [applyAll]
    cases happly : m.apply d with
    | error e => rfl
    | ok d' => exact ih.trans (source_of_apply happly)

theorem sound_of_apply (hd : d.Sound) (hm : ∀ id ∈ m.ids, d.ids.Owns id) (h : m.apply d = .ok d') :
    d'.Sound ∧ d'.ids = d.ids := by
  have hleaves := leaves_of_apply hd.normal h
  refine ⟨⟨hleaves.normal, ?_⟩, hleaves.ids_eq⟩
  intro id hid
  rw [hleaves.ids_eq]
  rcases hleaves.idsOf_subset id hid with hid | hid
  · exact hd.owned id hid
  · exact hm id (newIds_subset_ids id hid)

theorem sound_of_applyAll (hd : d.Sound) (hms : ∀ m ∈ ms, ∀ id ∈ m.ids, d.ids.Owns id) :
    (applyAll ms d).1.Sound ∧ (applyAll ms d).1.ids = d.ids := by
  induction ms generalizing d with
  | nil => exact ⟨hd, rfl⟩
  | cons m ms ih =>
    rw [applyAll]
    cases happly : m.apply d with
    | error e => exact ⟨hd, rfl⟩
    | ok d' =>
      obtain ⟨hsound, hids⟩ := sound_of_apply hd (hms m (List.mem_cons_self ..)) happly
      obtain ⟨hsound', hids'⟩ := ih hsound fun n hn => by
        rw [hids]
        exact hms n (List.mem_cons_of_mem _ hn)
      exact ⟨hsound', hids'.trans hids⟩

end Mutation

def Change.ids (c : Change) : List Text := c.mutation.ids ++ c.inverse.ids

def Batch.ids (b : Batch) : List Text := b.changes.flatMap Change.ids

namespace History

/-- The steps of a history, with that which is being built. -/
def batches (h : History) : List Batch := h.building.toList ++ h.undoable ++ h.redoable

/-- The ids in the steps of a history. -/
def ids (h : History) : List Text := h.batches.flatMap Batch.ids

variable {h h' : History} {id : Text}

theorem mem_ids : id ∈ h.ids ↔ ∃ b ∈ h.batches, id ∈ b.ids := List.mem_flatMap

theorem ids_subset (hb : ∀ b ∈ h'.batches, b ∈ h.batches) : ∀ id ∈ h'.ids, id ∈ h.ids := by
  intro id hid
  obtain ⟨b, hmem, hid⟩ := mem_ids.1 hid
  exact mem_ids.2 ⟨b, hb b hmem, hid⟩

theorem mem_batches_push {b b' : Batch} (hb : b' ∈ (h.push b).batches) :
    b' = b ∨ b' ∈ h.batches := by
  have hundoable : b' ∈ (h.push b).undoable → b' = b ∨ b' ∈ h.undoable := by
    intro hb
    unfold push at hb
    dsimp only at hb
    split at hb
    · exact List.mem_cons.1 (List.dropLast_subset _ hb)
    · exact List.mem_cons.1 hb
  have hredoable : (h.push b).redoable = [] := by
    unfold push
    dsimp only
    split <;> rfl
  simp only [batches, building_push, hredoable, List.append_nil, List.mem_append] at hb ⊢
  rcases hb with hbuilding | hb
  · exact Or.inr (Or.inl (Or.inl hbuilding))
  · rcases hundoable hb with rfl | hb
    · exact Or.inl rfl
    · exact Or.inr (Or.inl (Or.inr hb))

theorem mem_ids_push {b : Batch} (hid : id ∈ (h.push b).ids) : id ∈ h.ids ∨ id ∈ b.ids := by
  obtain ⟨b', hmem, hid'⟩ := mem_ids.1 hid
  rcases mem_batches_push hmem with heq | hmem
  · exact Or.inr (heq ▸ hid')
  · exact Or.inl (mem_ids.2 ⟨b', hmem, hid'⟩)

theorem ids_building (b : Batch) :
    ({ h with building := some b } : History).ids
      = b.ids ++ (h.undoable ++ h.redoable).flatMap Batch.ids := by
  simp [ids, batches]

theorem mem_ids_record {c : Change} (hid : id ∈ (h.record c).ids) : id ∈ h.ids ∨ id ∈ c.ids := by
  unfold record at hid
  cases hbuilding : h.building with
  | none =>
    rw [hbuilding] at hid
    simpa [Batch.ids] using mem_ids_push hid
  | some b =>
    have hadd : (b.add c).ids = b.ids ++ c.ids := by
      simp only [Batch.ids, Batch.add, List.flatMap_append, List.flatMap_singleton]
    have hself : ({ h with building := some b } : History) = h := by rw [← hbuilding]
    have hids := ids_building (h := h) b
    rw [hself] at hids
    rw [hbuilding] at hid
    dsimp only at hid
    rw [ids_building, hadd, List.append_assoc, List.mem_append, List.mem_append] at hid
    rw [hids, List.mem_append]
    tauto

theorem ids_beginBatch (description : Text) :
    ∀ id ∈ (h.beginBatch description).ids, id ∈ h.ids := by
  intro id hid
  rw [beginBatch, ids_building] at hid
  have hrest : id ∈ (h.undoable ++ h.redoable).flatMap Batch.ids := hid
  rw [ids, batches, List.append_assoc, List.flatMap_append]
  exact List.mem_append_right _ hrest

theorem ids_endBatch : ∀ id ∈ h.endBatch.ids, id ∈ h.ids := by
  have hidle : ∀ b ∈ ({ h with building := none } : History).batches, b ∈ h.batches := by
    intro b hb
    simp only [batches, Option.toList_none, List.nil_append, List.append_assoc] at hb ⊢
    exact List.mem_append_right _ hb
  unfold endBatch
  cases hbuilding : h.building with
  | none => exact fun id hid => hid
  | some b =>
    dsimp only
    split
    · exact ids_subset hidle
    · refine ids_subset fun b' hb' => ?_
      rcases mem_batches_push hb' with rfl | hb'
      · simp [batches, hbuilding]
      · exact hidle b' hb'

end History

namespace Draft

/-- Whether every id in the document and in the history of a draft was handed out by the document. -/
structure Owned (d : Draft) : Prop where
  sound : d.document.Sound
  history : ∀ id ∈ d.history.ids, d.document.ids.Owns id

variable {d d' : Draft} {m : Mutation} {ms : List Mutation}

/-- An undo hands out no ids. -/
theorem ids_undo (d : Draft) : d.undo.1.document.ids = d.document.ids := by
  unfold undo
  cases d.history.undoable with
  | nil => rfl
  | cons b rest =>
    have hids : (b.revert d.document).1.ids = d.document.ids := Mutation.source_of_applyAll
    dsimp only
    cases hall : b.revert d.document with
    | mk document error =>
      rw [hall] at hids
      cases error with
      | none => exact hids
      | some e => exact hids

/-- A redo hands out no ids. -/
theorem ids_redo (d : Draft) : d.redo.1.document.ids = d.document.ids := by
  unfold redo
  cases d.history.redoable with
  | nil => rfl
  | cons b rest =>
    have hids : (b.replay d.document).1.ids = d.document.ids := Mutation.source_of_applyAll
    dsimp only
    cases hall : b.replay d.document with
    | mk document error =>
      rw [hall] at hids
      cases error with
      | none => exact hids
      | some e => exact hids

namespace Owned

theorem of_history (h : d.Owned) {history : History}
    (hids : ∀ id ∈ history.ids, id ∈ d.history.ids) : ({ d with history } : Draft).Owned :=
  ⟨h.sound, fun id hid => h.history id (hids id hid)⟩

theorem grow {ids : IdSource} (h : d.Owned) (hg : d.document.ids.Grows ids) :
    ({ d with document := { d.document with ids } } : Draft).Owned :=
  ⟨⟨h.sound.normal, h.sound.owned.grow hg⟩, fun id hid => (h.history id hid).grow hg⟩

theorem apply (h : d.Owned) (hm : ∀ id ∈ m.ids, d.document.ids.Owns id) (ha : d.apply m = .ok d') :
    d'.Owned ∧ d'.document.ids = d.document.ids := by
  obtain ⟨inverse, hinverse, hdocument, hhistory⟩ := of_apply ha
  obtain ⟨hsound, hids⟩ := Mutation.sound_of_apply h.sound hm hdocument
  refine ⟨⟨hsound, ?_⟩, hids⟩
  intro id hid
  rw [hids]
  rw [hhistory] at hid
  rcases History.mem_ids_record hid with hid | hid
  · exact h.history id hid
  · rcases List.mem_append.1 hid with hid | hid
    · exact hm id hid
    · rcases Mutation.ids_of_inverse hinverse id hid with hid | hid
      · exact h.sound.owned id hid
      · exact hm id hid

theorem applyAll (h : d.Owned) (hms : ∀ m ∈ ms, ∀ id ∈ m.ids, d.document.ids.Owns id) :
    (Draft.applyAll ms d).1.Owned := by
  induction ms generalizing d with
  | nil => exact h
  | cons m ms ih =>
    rw [Draft.applyAll]
    cases happly : d.apply m with
    | error e => exact h
    | ok d' =>
      obtain ⟨howned, hids⟩ := h.apply (hms m (List.mem_cons_self ..)) happly
      refine ih howned fun n hn => ?_
      rw [hids]
      exact hms n (List.mem_cons_of_mem _ hn)

/-- Undone and redone steps bring back no foreign ids. -/
theorem replay (h : d.Owned) (hms : ∀ m ∈ ms, ∀ id ∈ m.ids, id ∈ d.history.ids)
    (history : History) (hids : ∀ id ∈ history.ids, id ∈ d.history.ids) :
    (⟨(Mutation.applyAll ms d.document).1, history⟩ : Draft).Owned := by
  obtain ⟨hsound, heq⟩ := Mutation.sound_of_applyAll h.sound
    fun m hm id hid => h.history id (hms m hm id hid)
  refine ⟨hsound, fun id hid => ?_⟩
  rw [heq]
  exact h.history id (hids id hid)

theorem undo (h : d.Owned) : d.undo.1.Owned := by
  unfold Draft.undo
  cases hundoable : d.history.undoable with
  | nil => exact h
  | cons b rest =>
    have hchanges : ∀ m ∈ b.changes.reverse.map Change.inverse, ∀ id ∈ m.ids,
        id ∈ d.history.ids := by
      intro m hm id hid
      obtain ⟨c, hc, rfl⟩ := List.mem_map.1 hm
      refine History.mem_ids.2 ⟨b, by simp [History.batches, hundoable], ?_⟩
      exact List.mem_flatMap.2 ⟨c, List.mem_reverse.1 hc, List.mem_append_right _ hid⟩
    have hdone := h.replay hchanges { d.history with
      undoable := rest, redoable := b :: d.history.redoable } (History.ids_subset (by
        simp only [History.batches, hundoable]
        grind))
    have hgivenUp := h.replay hchanges { d.history with undoable := rest }
      (History.ids_subset (by
        simp only [History.batches, hundoable]
        grind))
    dsimp only [Batch.revert]
    cases hall : Mutation.applyAll (b.changes.reverse.map Change.inverse) d.document with
    | mk document error =>
      rw [hall] at hdone hgivenUp
      cases error with
      | none => exact hdone
      | some e => exact hgivenUp

theorem redo (h : d.Owned) : d.redo.1.Owned := by
  unfold Draft.redo
  cases hredoable : d.history.redoable with
  | nil => exact h
  | cons b rest =>
    have hchanges : ∀ m ∈ b.changes.map Change.mutation, ∀ id ∈ m.ids, id ∈ d.history.ids := by
      intro m hm id hid
      obtain ⟨c, hc, rfl⟩ := List.mem_map.1 hm
      refine History.mem_ids.2 ⟨b, by simp [History.batches, hredoable], ?_⟩
      exact List.mem_flatMap.2 ⟨c, hc, List.mem_append_left _ hid⟩
    have hdone := h.replay hchanges { d.history with
      undoable := b :: d.history.undoable, redoable := rest } (History.ids_subset (by
        simp only [History.batches, hredoable]
        grind))
    have hgivenUp := h.replay hchanges { d.history with redoable := rest }
      (History.ids_subset (by
        simp only [History.batches, hredoable]
        grind))
    dsimp only [Batch.replay]
    cases hall : Mutation.applyAll (b.changes.map Change.mutation) d.document with
    | mk document error =>
      rw [hall] at hdone hgivenUp
      cases error with
      | none => exact hdone
      | some e => exact hgivenUp

variable {σ : Type} [FileSystem σ]

theorem reparse (h : d.Owned) (b : Bundle) (fs : σ) :
    (d.reparse b fs).Owned ∧ d.document.ids.Grows (d.reparse b fs).document.ids := by
  have hreread := Document.reread_reparse d.document b fs
  have hsound := h.sound.reparse b fs
  unfold Draft.reparse
  dsimp only
  cases hr : d.document.reparse b fs with
  | mk rebuilt d' =>
    rw [hr] at hreread hsound
    refine ⟨⟨hsound, ?_⟩, hreread.grows⟩
    have hkept : ∀ id ∈ d.history.ids, d'.ids.Owns id :=
      fun id hid => (h.history id hid).grow hreread.grows
    cases rebuilt with
    | none => exact hkept
    | some r =>
      obtain ⟨x, z, hcut, -, hinserted⟩ := hreread.rebuilt r rfl
      have hremoved : ∀ id ∈ idsOf r.removed, d'.ids.Owns id := fun id hid =>
        (h.sound.owned id (Document.idsOf_subset_of_cut hcut id hid)).grow hreread.grows
      intro id hid
      rcases History.mem_ids_record hid with hid | hid
      · rcases History.mem_ids_record hid with hid | hid
        · exact hkept id hid
        · exact hremoved id hid
      · rcases List.mem_append.1 hid with hid | hid
        · exact hinserted h.sound.owned id hid
        · exact absurd hid List.not_mem_nil

/-- An edit that succeeds brings in new ids only. -/
theorem edit (h : d.Owned) {description : Text}
    (hms : ∀ m ∈ ms, ∀ id ∈ m.ids, d.document.ids.Owns id) {b : Bundle} {fs : σ}
    (he : d.edit description ms b fs = (d', none)) : d'.Owned := by
  have hbegun : ({ d with history := d.history.beginBatch description } : Draft).Owned :=
    h.of_history (History.ids_beginBatch description)
  have hmade := hbegun.applyAll hms
  unfold Draft.edit at he
  cases hall : Draft.applyAll ms { d with history := d.history.beginBatch description } with
  | mk made error =>
    rw [hall] at he hmade
    cases error with
    | some e =>
      dsimp only at he
      split at he <;> simp at he
    | none =>
      obtain ⟨rfl, -⟩ := Prod.mk.inj he
      exact (hmade.reparse b fs).1.of_history History.ids_endBatch

end Owned

/-! ### Distinct ids -/

/-- Mutations leave the widgets of a document distinct, where the ids that they bring along are new
and no two of them are the same. -/
theorem applyAll_distinct (hd : d.document.Distinct)
    (hnew : (idsOf d.document.segments ++ ms.flatMap Mutation.newIds).Nodup)
    (hms : ∀ m ∈ ms, ∀ id ∈ m.ids, d.document.ids.Owns id) {error : Option EditError}
    (h : applyAll ms d = (d', error)) : d'.document.Distinct := by
  induction ms generalizing d with
  | nil =>
    obtain ⟨rfl, -⟩ := Prod.mk.inj h
    exact hd
  | cons m ms ih =>
    rw [applyAll] at h
    cases happly : d.apply m with
    | error e =>
      rw [happly] at h
      obtain ⟨rfl, -⟩ := Prod.mk.inj h
      exact hd
    | ok made =>
      rw [happly] at h
      obtain ⟨-, -, hdocument, -⟩ := of_apply happly
      obtain ⟨hsound, hids⟩ :=
        Mutation.sound_of_apply hd.toSound (hms m (List.mem_cons_self ..)) hdocument
      have hrest := (Mutation.leaves_of_apply hd.normal hdocument).nodup hnew
      refine ih ⟨hsound, (List.nodup_append.1 hrest).1⟩ hrest (fun n hn => ?_) h
      rw [hids]
      exact hms n (List.mem_cons_of_mem _ hn)

variable {σ : Type} [FileSystem σ]

theorem edit_distinct {description : Text} {b : Bundle} {fs : σ} (hd : d.document.Distinct)
    (hnew : (idsOf d.document.segments ++ ms.flatMap Mutation.newIds).Nodup)
    (hms : ∀ m ∈ ms, ∀ id ∈ m.ids, d.document.ids.Owns id)
    (he : d.edit description ms b fs = (d', none)) : d'.document.Distinct := by
  unfold edit at he
  cases hall : applyAll ms { d with history := d.history.beginBatch description } with
  | mk made error =>
    have hmade : made.document.Distinct :=
      applyAll_distinct (d := { d with history := d.history.beginBatch description }) hd hnew hms hall
    rw [hall] at he
    cases error with
    | some e =>
      dsimp only at he
      split at he <;> simp at he
    | none =>
      obtain ⟨rfl, -⟩ := Prod.mk.inj he
      exact hmade.reparse b fs

end Draft

end ImageScript
