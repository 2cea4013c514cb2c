import ImageScript.Proofs.Edit.HistoryIds
import ImageScript.Proofs.Edit.Timeline

/-!
# Ids of widgets in a session

Through every run of a session the widgets of its document have distinct ids, and an id that stands
in the document or in a step of the history is never handed out again. An operation that adds a step
makes mutations with new ids; undo and redo lead to rows that the session has been through.

Main statements: `Operation.entered_of_run`, `Numbered.run`, `widget_ids_distinct`.
-/

namespace ImageScript

open Segment

/-! ### Setters -/

/-- Whether a change of a pattern leaves its id. -/
def Pattern.KeepsId (f : Pattern → Bool × Pattern) : Prop := ∀ p, (f p).2.id = p.id

/-- Whether a change of a region leaves its id. -/
def Region.KeepsId (f : Region → Bool × Region) : Prop := ∀ r, (f r).2.id = r.id

namespace Pattern

theorem keepsId_setSimilarity (x : Float) : KeepsId (setSimilarity x) := by
  intro p
  unfold setSimilarity
  dsimp only
  split <;> rfl

theorem keepsId_setExact (exact : Bool) : KeepsId (setExact exact) := by
  intro p
  unfold setExact
  split <;> rfl

theorem keepsId_setTargetOffset (offset : Int32 × Int32) : KeepsId (setTargetOffset offset) := by
  intro p
  unfold setTargetOffset
  split <;> rfl

theorem keepsId_setResizeFactor (factor : Option Float) : KeepsId (setResizeFactor factor) := by
  intro p
  unfold setResizeFactor
  dsimp only
  split
  · rfl
  · split <;> rfl

theorem keepsId_setMask (mask : Option Mask) : KeepsId (setMask mask) := by
  intro p
  unfold setMask
  split <;> rfl

theorem keepsId_setMatchLimit (limit : UInt64) : KeepsId (setMatchLimit limit) := by
  intro p
  unfold setMatchLimit
  split <;> rfl

theorem keepsId_setImage (name : Text) (path : Option Path) : KeepsId (setImage name path) := by
  intro p
  unfold setImage
  split <;> rfl

theorem keepsId_setState (state : PatternState) : KeepsId (setState state) := by
  intro p
  unfold setState
  split <;> rfl

theorem keepsId_assign (q : Pattern) : KeepsId (assign q) := fun p => id_assign p q

end Pattern

namespace Region

theorem keepsId_setRect (x y w h : Int32) : KeepsId (setRect x y w h) := by
  intro r
  unfold setRect
  split <;> rfl

theorem keepsId_setAsOffset (asOffset : Bool) : KeepsId (setAsOffset asOffset) := by
  intro r
  unfold setAsOffset
  split <;> rfl

theorem keepsId_assign (q : Region) : KeepsId (assign q) := fun _ => rfl

end Region

/-- Whether an operation leaves the id of the widget that it changes. -/
def Operation.KeepsIds : Operation → Prop
  | .updatePattern _ f => Pattern.KeepsId f
  | .updateRegion _ f => Region.KeepsId f
  | _ => True

/-! ### Steps that are added -/

namespace Draft

variable {σ : Type} [FileSystem σ]

/-- A draft with ids taken in advance. -/
def withIds (d : Draft) (ids : IdSource) : Draft := { d with document := { d.document with ids } }

/-- Whether mutations look for no widgets but those of a document, and bring along distinct ids that
were handed out after those of the document. -/
structure AreNew (d : Document) (ids : IdSource) (ms : List Mutation) : Prop where
  grows : d.ids.Grows ids
  owned : ∀ m ∈ ms, ∀ id ∈ m.ids, ids.Owns id
  nodup : (ms.flatMap Mutation.newIds).Nodup
  fresh : ∀ id ∈ ms.flatMap Mutation.newIds, ¬ d.ids.Owns id

/-- All that an operation other than a travel can do where it adds a step: it takes some ids, and
makes mutations in an edit or one mutation by itself. -/
inductive Entered (σ : Type) [FileSystem σ] (d d' : Draft) : Prop where
  | edited {ids : IdSource} {ms : List Mutation} {description : Text} {b : Bundle} {fs : σ}
      (new : AreNew d.document ids ms)
      (done : (d.withIds ids).edit description ms b fs = (d', none))
  | applied {ids : IdSource} {m : Mutation} (new : AreNew d.document ids [m])
      (done : (d.withIds ids).apply m = .ok d')

namespace AreNew

variable {d : Document} {ids : IdSource} {ms : List Mutation}

/-- Text edits bring along no ids. -/
theorem plain (hms : ∀ m ∈ ms, m.ids = []) : AreNew d d.ids ms := by
  have hnone : ms.flatMap Mutation.newIds = [] := by
    rw [List.flatMap_eq_nil_iff]
    intro m hm
    refine List.eq_nil_iff_forall_not_mem.2 fun id hid => ?_
    have hmem := Mutation.newIds_subset_ids id hid
    rw [hms m hm] at hmem
    exact absurd hmem List.not_mem_nil
  refine ⟨.refl _, ?_, ?_, ?_⟩
  · intro m hm id hid
    rw [hms m hm] at hid
    exact absurd hid List.not_mem_nil
  · rw [hnone]
    exact List.nodup_nil
  · rw [hnone]
    exact fun _ h => absurd h List.not_mem_nil

/-- An update brings along no ids where it looks for those of the document. -/
theorem update {m : Mutation} (hd : d.Sound) (hnew : m.newIds = [])
    (hids : ∀ id ∈ m.ids, id ∈ idsOf d.segments) : AreNew d d.ids [m] := by
  have hnone : [m].flatMap Mutation.newIds = [] := by simp [hnew]
  refine ⟨.refl _, ?_, ?_, ?_⟩
  · intro n hn id hid
    rw [List.mem_singleton.1 hn] at hid
    exact hd.owned id (hids id hid)
  · rw [hnone]
    exact List.nodup_nil
  · rw [hnone]
    exact fun _ h => absurd h List.not_mem_nil

/-- A mutation may bring along the id that is handed out next. -/
theorem next {m : Mutation} (kind : WidgetKind) (hd : d.Sound)
    (hnew : m.newIds = [(d.ids.next kind).1])
    (hids : ∀ id ∈ m.ids, id ∈ idsOf d.segments ∨ id ∈ m.newIds) :
    AreNew d (d.ids.next kind).2 [m] := by
  have hone : [m].flatMap Mutation.newIds = [(d.ids.next kind).1] := by simp [hnew]
  have hgrows := IdSource.grows_next d.ids kind
  refine ⟨hgrows, ?_, ?_, ?_⟩
  · intro n hn id hid
    rw [List.mem_singleton.1 hn] at hid
    rcases hids id hid with hid | hid
    · exact (hd.owned id hid).grow hgrows
    · rw [hnew, List.mem_singleton] at hid
      rw [hid]
      exact IdSource.owns_next d.ids kind
  · rw [hone]
    exact List.pairwise_singleton _ _
  · rw [hone]
    intro id hid
    rw [List.mem_singleton.1 hid]
    exact IdSource.not_owns_next d.ids kind

theorem nodup_append (h : AreNew d ids ms) (hd : d.Distinct) :
    (idsOf d.segments ++ ms.flatMap Mutation.newIds).Nodup := by
  refine List.nodup_append.2 ⟨hd.nodup, h.nodup, ?_⟩
  rintro id hid _ hnew rfl
  exact h.fresh id hnew (hd.owned id hid)

end AreNew

namespace Entered

variable {d d' : Draft}

theorem owned (h : Entered σ d d') (hd : d.Owned) : d'.Owned := by
  cases h with
  | edited new done => exact (hd.grow new.grows).edit new.owned done
  | applied new done =>
    exact ((hd.grow new.grows).apply (new.owned _ (List.mem_singleton_self _)) done).1

theorem distinct (h : Entered σ d d') (hd : d.document.Distinct) : d'.document.Distinct := by
  have hgrown : ∀ {ids : IdSource}, d.document.ids.Grows ids →
      (d.withIds ids).document.Distinct :=
    fun hg => ⟨⟨hd.normal, hd.owned.grow hg⟩, hd.nodup⟩
  cases h with
  | edited new done => exact edit_distinct (hgrown new.grows) (new.nodup_append hd) new.owned done
  | @applied ids m new done =>
    have hall : applyAll [m] (d.withIds ids) = (d', none) := by
      rw [applyAll, done]
      rfl
    exact applyAll_distinct (hgrown new.grows) (new.nodup_append hd) new.owned hall

end Entered

end Draft

/-! ### What a successful operation does -/

namespace Document

variable {d : Document} {id : Text}

theorem findPattern_of_pattern? {p : Pattern} (h : d.pattern? id = some p) :
    d.findPattern id = .ok p := by
  unfold pattern? at h
  unfold findPattern
  split at h
  · next q hq => rw [hq, Option.some.inj h]
  · simp at h

theorem findRegion_of_region? {r : Region} (h : d.region? id = some r) :
    d.findRegion id = .ok r := by
  unfold region? at h
  unfold findRegion
  split at h
  · next q hq => rw [hq, Option.some.inj h]
  · simp at h

end Document

namespace Session

variable {σ : Type} [FileSystem σ] {desk desk' : Desk σ}

omit [FileSystem σ] in
theorem ok_of_bind {α β : Type} {x : EStateM EditError (Desk σ) α}
    {f : α → EStateM EditError (Desk σ) β} {b : β} (h : (x >>= f) desk = .ok b desk') :
    ∃ a middle, x desk = .ok a middle ∧ f a middle = .ok b desk' := by
  simp only [bind, EStateM.bind] at h
  cases hx : x desk with
  | ok a middle =>
    rw [hx] at h
    exact ⟨a, middle, rfl, h⟩
  | error e middle => simp [hx] at h

theorem draft_of_edit {description : String} {ms : List Mutation}
    (h : edit description ms desk = .ok () desk') :
    desk.session.draft.edit description.toList ms desk.session.bundle desk.files
      = (desk'.session.draft, none) := by
  unfold edit at h
  dsimp only at h
  split at h
  · next draft hdraft =>
    obtain ⟨-, rfl⟩ := EStateM.Result.ok.inj h
    exact hdraft
  · simp at h

omit [FileSystem σ] in
theorem draft_of_onDraft {α : Type} {f : Draft → Draft × Except EditError α} {a : α}
    (h : onDraft f desk = .ok a desk') :
    f desk.session.draft = (desk'.session.draft, .ok a) := by
  unfold onDraft at h
  split at h
  · next draft b hdraft =>
    obtain ⟨rfl, rfl⟩ := EStateM.Result.ok.inj h
    exact hdraft
  · simp at h

omit [FileSystem σ] in
/-- Of an action that is followed by a result alone. -/
theorem ok_of_map {α β : Type} {x : EStateM EditError (Desk σ) α} {f : α → β} {c : β}
    (h : (do let a ← x; return f a : EStateM EditError (Desk σ) β) desk = .ok c desk') :
    ∃ a, x desk = .ok a desk' := by
  obtain ⟨a, middle, hx, h⟩ := ok_of_bind h
  obtain ⟨-, rfl⟩ := EStateM.Result.ok.inj h
  exact ⟨a, hx⟩

/-! ### Each operation -/

open Draft

theorem edit_entered {description : String} {ms : List Mutation} (hms : ∀ m ∈ ms, m.ids = [])
    (h : edit description ms desk = .ok () desk') :
    Entered σ desk.session.draft desk'.session.draft :=
  .edited (.plain hms) (draft_of_edit h)

theorem insertCapture_entered (hd : desk.session.document.Sound) {pos : Nat} {id : Text}
    (h : insertCapture pos desk = .ok id desk') :
    Entered σ desk.session.draft desk'.session.draft := by
  rw [insertCapture_eq] at h
  obtain ⟨_, hedit⟩ := ok_of_map h
  exact .edited (.next .pattern hd rfl fun _ => Or.inr) (draft_of_edit hedit)

theorem of_applyUpdate {id : Text} {update : Document → Option (Bool × Mutation)} {d d' : Draft}
    (h : applyUpdate id update d = (d', .ok true)) :
    ∃ m, update d.document = some (true, m) ∧ d.apply m = .ok d' := by
  unfold applyUpdate at h
  split at h
  · simp at h
  · simp at h
  · next m hm =>
    split at h
    · next d'' happly =>
      obtain ⟨rfl, -⟩ := Prod.mk.inj h
      exact ⟨m, hm, happly⟩
    · simp at h

theorem updatePattern_entered (hd : desk.session.document.Sound) {id : Text}
    {f : Pattern → Bool × Pattern} (hf : Pattern.KeepsId f)
    (h : updatePattern id f desk = .ok true desk') :
    Entered σ desk.session.draft desk'.session.draft := by
  obtain ⟨m, hm, happly⟩ := of_applyUpdate (draft_of_onDraft h)
  obtain ⟨p, hp, hm⟩ := Option.map_eq_some_iff.1 hm
  obtain ⟨-, rfl⟩ := Prod.mk.inj hm
  obtain ⟨hid, hmem⟩ :=
    Mutation.id_mem_of_findPattern (Document.findPattern_of_pattern? hp)
  refine .applied (.update hd rfl ?_) happly
  intro i hi
  rcases List.mem_cons.1 hi with rfl | hi
  · exact hmem
  · rw [List.mem_singleton.1 hi, hf p, hid]
    exact hmem

theorem updateRegion_entered (hd : desk.session.document.Sound) {id : Text}
    {f : Region → Bool × Region} (hf : Region.KeepsId f)
    (h : updateRegion id f desk = .ok true desk') :
    Entered σ desk.session.draft desk'.session.draft := by
  obtain ⟨m, hm, happly⟩ := of_applyUpdate (draft_of_onDraft h)
  obtain ⟨r, hr, hm⟩ := Option.map_eq_some_iff.1 hm
  obtain ⟨-, rfl⟩ := Prod.mk.inj hm
  obtain ⟨hid, hmem⟩ :=
    Mutation.id_mem_of_findRegion (Document.findRegion_of_region? hr)
  refine .applied (.update hd rfl ?_) happly
  intro i hi
  rcases List.mem_cons.1 hi with rfl | hi
  · exact hmem
  · rw [List.mem_singleton.1 hi, hf r, hid]
    exact hmem

theorem replacePattern_entered (hd : desk.session.document.Sound) {id newId : Text} {p : Pattern}
    (h : replacePattern id p desk = .ok newId desk') :
    Entered σ desk.session.draft desk'.session.draft := by
  have hdraft := draft_of_onDraft h
  simp only [Document.newId] at hdraft
  split at hdraft
  · next d happly =>
    obtain ⟨rfl, -⟩ := Prod.mk.inj hdraft
    refine .applied (.next .pattern hd rfl ?_) happly
    obtain ⟨inverse, hinverse, hdocument, -⟩ := of_apply happly
    obtain ⟨_, hvalid, -⟩ := Mutation.ok_of_bind hdocument
    obtain ⟨q, hq, -⟩ := Mutation.ok_of_map hvalid
    obtain ⟨-, hmem⟩ := Mutation.id_mem_of_findPattern hq
    intro i hi
    rcases List.mem_cons.1 hi with rfl | hi
    · exact Or.inl hmem
    · exact Or.inr hi
  · simp at hdraft

theorem cut_entered {lo hi : Nat} {payload : ClipboardPayload}
    (h : cut lo hi desk = .ok payload desk') :
    Entered σ desk.session.draft desk'.session.draft := by
  obtain ⟨p, middle, hcopy, hrest⟩ := ok_of_bind h
  have hmiddle : middle = desk := by
    unfold copy at hcopy
    split at hcopy
    · exact (EStateM.Result.ok.inj hcopy).2.symm
    · simp at hcopy
  rw [hmiddle] at hrest
  obtain ⟨_, hedit⟩ := ok_of_map hrest
  exact edit_entered (by simp [Mutation.ids]) hedit

theorem paste_entered {pos : Nat} {payload : ClipboardPayload} {range : Nat × Nat}
    (h : paste pos payload desk = .ok range desk') :
    Entered σ desk.session.draft desk'.session.draft := by
  have hends := paste_ends pos payload desk
  rw [h] at hends
  cases hends with
  | @made p files _ prepared edited =>
    have hentered := edit_entered (by simp [Mutation.ids]) edited
    exact hentered

theorem receive_entered (hd : desk.session.document.Sound) {event : WorkerEvent}
    (h : receive event desk = .ok true desk') :
    Entered σ desk.session.draft desk'.session.draft := by
  unfold receive at h
  simp only [bind, EStateM.bind, get, getThe, MonadStateOf.get, EStateM.get] at h
  cases event with
  | captureDone id path =>
    dsimp only at h
    cases hname : path.fileName?.filter fun _ => desk.session.bundle.contains path with
    | none =>
      rw [hname] at h
      exact updatePattern_entered hd (Pattern.keepsId_setState .notFound) h
    | some name =>
      rw [hname] at h
      refine updatePattern_entered hd (fun p => ?_) h
      dsimp only
      rw [Pattern.keepsId_setState, Pattern.keepsId_setImage]
  | captureFailed id cause => exact updatePattern_entered hd (Pattern.keepsId_setState .notFound) h
  | _ => simp [pure, EStateM.pure] at h

end Session

namespace Operation

variable {σ : Type} [FileSystem σ] {desk desk' : Desk σ}

open Session in
/-- An operation that adds a step makes mutations with new ids. -/
theorem entered_of_run (hd : desk.session.document.Sound) {op : Operation} (hop : op.KeepsIds)
    (hu : op ≠ undo) (hr : op ≠ redo) (h : op.run desk = .ok true desk') :
    Draft.Entered σ desk.session.draft desk'.session.draft := by
  cases op with
  | insertText pos s =>
    obtain ⟨_, h⟩ := ok_of_map h
    exact edit_entered (by simp [Mutation.ids]) h
  | removeRange lo hi =>
    obtain ⟨_, h⟩ := ok_of_map h
    exact edit_entered (by simp [Mutation.ids]) h
  | replaceRange lo hi s =>
    obtain ⟨_, h⟩ := ok_of_map h
    exact edit_entered (by simp [Mutation.ids]) h
  | insertCapture pos =>
    obtain ⟨_, h⟩ := ok_of_map h
    exact insertCapture_entered hd h
  | updatePattern id f => exact updatePattern_entered hd hop h
  | replacePattern id p =>
    obtain ⟨_, h⟩ := ok_of_map h
    exact replacePattern_entered hd h
  | updateRegion id f => exact updateRegion_entered hd hop h
  | cut lo hi =>
    obtain ⟨_, h⟩ := ok_of_map h
    exact cut_entered h
  | paste pos payload =>
    obtain ⟨_, h⟩ := ok_of_map h
    exact paste_entered h
  | receive event => exact receive_entered hd h
  | undo => exact absurd rfl hu
  | redo => exact absurd rfl hr
  | save =>
    obtain ⟨_, _, -, h⟩ := ok_of_bind h
    simp [pure, EStateM.pure] at h

open Session in
/-- A change of a widget leaves all ids, also one that changes the id that it is given. -/
theorem nodup_of_update (hd : desk.session.document.Distinct) {op : Operation}
    (hop : ¬ op.KeepsIds) (h : op.run desk = .ok true desk') :
    (idsOf desk'.session.document.segments).Nodup := by
  have hupdate : ∀ {id update}, onDraft (applyUpdate id update) desk = .ok true desk' →
      (∀ d m, update d = some (true, m) → m.newIds = []) →
      (idsOf desk'.session.document.segments).Nodup := by
    intro id update hrun hnew
    obtain ⟨m, hm, happly⟩ := of_applyUpdate (draft_of_onDraft hrun)
    obtain ⟨inverse, -, hdocument, -⟩ := Draft.of_apply happly
    have hleaves := Mutation.leaves_of_apply hd.normal hdocument
    have hnodup := hleaves.nodup (by
      rw [hnew _ m hm, List.append_nil, List.append_nil]
      exact hd.nodup)
    rwa [List.append_nil] at hnodup
  cases op with
  | updatePattern id f =>
    refine hupdate h ?_
    intro d m hm
    obtain ⟨p, -, hp⟩ := Option.map_eq_some_iff.1 hm
    obtain ⟨-, rfl⟩ := Prod.mk.inj hp
    rfl
  | updateRegion id f =>
    refine hupdate h ?_
    intro d m hm
    obtain ⟨r, -, hr⟩ := Option.map_eq_some_iff.1 hm
    obtain ⟨-, rfl⟩ := Prod.mk.inj hr
    rfl
  | _ => exact absurd trivial hop

end Operation

/-! ### Runs -/

namespace Timeline

/-- All rows of a timeline. -/
def rows (t : Timeline) : List (List Segment) := t.past ++ t.present :: t.future

section

variable {t : Timeline} {row : List Segment}

theorem mem_rows_of_back (h : row ∈ t.back.rows) : row ∈ t.rows := by
  obtain ⟨_ | ⟨row', past⟩, present, future⟩ := t
  · exact h
  · simp only [back, rows, List.mem_append, List.mem_cons] at h ⊢
    tauto

theorem mem_rows_of_forth (h : row ∈ t.forth.rows) : row ∈ t.rows := by
  obtain ⟨past, present, _ | ⟨row', future⟩⟩ := t
  · exact h
  · simp only [forth, rows, List.mem_append, List.mem_cons] at h ⊢
    tauto

theorem mem_rows_of_giveUp (h : row ∈ t.giveUp.rows) : row ∈ t.rows := by
  simp only [giveUp, rows, List.mem_append] at h ⊢
  exact h.imp List.mem_of_mem_tail id

theorem mem_rows_of_extend {new : List Segment} (h : row ∈ (t.extend new).rows) :
    row ∈ t.rows ∨ row = new := by
  rcases List.mem_append.1 h with h | h
  · left
    rcases List.mem_cons.1 (List.mem_of_mem_take h) with rfl | h
    · exact List.mem_append_right _ (List.mem_cons_self ..)
    · exact List.mem_append_left _ h
  · exact Or.inr (List.mem_singleton.1 h)

end

/-- Undo and redo lead to no new row, and any other operation to one at most. -/
theorem mem_rows_after {σ : Type} {t : Timeline} {op : Operation}
    {r : EStateM.Result EditError (Desk σ) Bool} {row : List Segment}
    (h : row ∈ (t.after op r).rows) :
    row ∈ t.rows ∨ op ≠ .undo ∧ op ≠ .redo ∧ ∃ desk, r = .ok true desk
      ∧ row = desk.session.document.segments := by
  cases r with
  | error e desk =>
    left
    cases op with
    | undo => exact mem_rows_of_giveUp h
    | _ => exact h
  | ok done desk =>
    cases done with
    | false => exact Or.inl h
    | true =>
      cases op with
      | undo => exact Or.inl (mem_rows_of_back h)
      | redo => exact Or.inl (mem_rows_of_forth h)
      | _ =>
        rcases mem_rows_of_extend h with h | rfl
        · exact Or.inl h
        · exact Or.inr ⟨nofun, nofun, desk, rfl, rfl⟩

end Timeline

/-- A session all of whose ids were handed out, with a timeline of rows with distinct ids. -/
structure Numbered {σ : Type} (desk : Desk σ) (t : Timeline) : Prop where
  tracks : Tracks desk t
  owned : desk.session.draft.Owned
  nodup : ∀ row ∈ t.rows, (idsOf row).Nodup

section

variable {σ : Type} [FileSystem σ] {desk desk' : Desk σ} {t : Timeline}

namespace Session

omit [FileSystem σ] in
theorem ids_travel {f : Draft → Draft × Except EditError Bool}
    (h : (f desk.session.draft).1.document.ids = desk.session.document.ids) :
    (stateOf (travel f desk)).session.document.ids = desk.session.document.ids := by
  unfold travel onDraft
  dsimp only
  cases hf : f desk.session.draft with
  | mk d r =>
    rw [hf] at h
    cases r with
    | ok done => exact h
    | error e => exact h

omit [FileSystem σ] in
theorem travel_owned {f : Draft → Draft × Except EditError Bool}
    (h : (f desk.session.draft).1.Owned) : (stateOf (travel f desk)).session.draft.Owned := by
  unfold travel onDraft
  dsimp only
  cases hf : f desk.session.draft with
  | mk d r =>
    rw [hf] at h
    cases r with
    | ok done => exact ⟨⟨h.sound.normal, h.sound.owned⟩, h.history⟩
    | error e => exact h

end Session

/-- Every operation keeps the ids apart in all rows that the session can travel to. -/
theorem Tracks.nodup_run (h : Tracks desk t) (hrows : ∀ row ∈ t.rows, (idsOf row).Nodup)
    (op : Operation) : ∀ row ∈ (t.after op (op.run desk)).rows, (idsOf row).Nodup := by
  have hsound : desk.session.document.Sound := ⟨h.ready.normal, h.ready.owned⟩
  have hdistinct : desk.session.document.Distinct := by
    refine ⟨hsound, ?_⟩
    rw [h.present_eq]
    exact hrows _ (List.mem_append_right _ (List.mem_cons_self ..))
  intro row hrow
  rcases Timeline.mem_rows_after hrow with hrow | ⟨hu, hr, desk', hrun, rfl⟩
  · exact hrows row hrow
  · by_cases hop : op.KeepsIds
    · exact ((Operation.entered_of_run hsound hop hu hr hrun).distinct hdistinct).nodup
    · exact Operation.nodup_of_update hdistinct hop hrun

/-- Every operation hands out ids or leaves their source as it is. -/
theorem Tracks.grows_run (h : Tracks desk t) (op : Operation) :
    desk.session.document.ids.Grows (stateOf (op.run desk)).session.document.ids := by
  by_cases hu : op = .undo
  · subst hu
    rw [show (stateOf (Operation.undo.run desk)).session.document.ids = _ from
      Session.ids_travel (Draft.ids_undo _)]
    exact .refl _
  · by_cases hr : op = .redo
    · subst hr
      rw [show (stateOf (Operation.redo.run desk)).session.document.ids = _ from
        Session.ids_travel (Draft.ids_redo _)]
      exact .refl _
    · have hevolved := Operation.run_evolved h.ready op hu hr
      cases hrun : op.run desk with
      | error e desk' =>
        rw [hrun] at hevolved
        exact hevolved.grows
      | ok changed desk' =>
        rw [hrun] at hevolved
        cases changed with
        | false => exact hevolved.grows
        | true => exact hevolved.grows

theorem Draft.Stays.owned {d d' : Draft} (h : d.Stays d') (hd : d.Owned) (hidle : d.Ready) :
    d'.Owned := by
  refine ⟨⟨h.ready.normal, h.ready.owned⟩, fun id hid => (hd.history id ?_).grow h.grows⟩
  refine History.ids_subset (fun b hb => ?_) id hid
  rwa [History.batches, h.ready.idle, h.undoable_eq, h.redoable_eq, ← hidle.idle,
    ← History.batches] at hb

namespace Numbered

theorem opened {b : Bundle} {options : EditorOptions} {files : σ} {session : Session}
    (h : Session.load b options files = .ok session) :
    Numbered (⟨session, files⟩ : Desk σ) (.start session.document.segments) := by
  have htracks := Tracks.opened h
  obtain ⟨text, -, h⟩ := Mutation.ok_of_bind h
  cases h
  have hdistinct := Document.Distinct.ofText text b files
  refine ⟨htracks, ⟨hdistinct.toSound, fun id hid => absurd hid List.not_mem_nil⟩, ?_⟩
  intro row hrow
  rw [List.mem_singleton.1 hrow]
  exact hdistinct.nodup

/-- One operation keeps the ids of a session in order. -/
theorem run (h : Numbered desk t) {op : Operation} (hop : op.KeepsIds) :
    Numbered (stateOf (op.run desk)) (t.after op (op.run desk)) := by
  refine ⟨h.tracks.run op, ?_, h.tracks.nodup_run h.nodup op⟩
  by_cases hu : op = .undo
  · subst hu
    exact Session.travel_owned h.owned.undo
  · by_cases hr : op = .redo
    · subst hr
      exact Session.travel_owned h.owned.redo
    · have hevolved := Operation.run_evolved h.tracks.ready op hu hr
      cases hrun : op.run desk with
      | error e desk' =>
        rw [hrun] at hevolved
        exact hevolved.owned h.owned h.tracks.ready
      | ok changed desk' =>
        rw [hrun] at hevolved
        cases changed with
        | false => exact hevolved.owned h.owned h.tracks.ready
        | true =>
          exact (Operation.entered_of_run h.owned.sound hop hu hr hrun).owned h.owned

end Numbered

/-- The desks to which operations lead from a desk, while others may change the files. -/
inductive Proceeds : Desk σ → Desk σ → Prop where
  | refl (desk : Desk σ) : Proceeds desk desk
  | operated {desk desk' : Desk σ} (h : Proceeds desk desk') {op : Operation} (hop : op.KeepsIds) :
      Proceeds desk (stateOf (op.run desk'))
  | disturbed {desk desk' : Desk σ} (h : Proceeds desk desk') (files : σ) :
      Proceeds desk { desk' with files }

theorem Numbered.proceed (h : Numbered desk t) (hp : Proceeds desk desk') :
    (∃ t', Numbered desk' t')
      ∧ desk.session.document.ids.Grows desk'.session.document.ids := by
  induction hp with
  | refl => exact ⟨⟨t, h⟩, .refl _⟩
  | operated _ hop ih =>
    obtain ⟨⟨t', hnumbered⟩, hgrows⟩ := ih
    exact ⟨⟨_, hnumbered.run hop⟩, hgrows.trans (hnumbered.tracks.grows_run _)⟩
  | disturbed _ files ih =>
    obtain ⟨⟨t', hnumbered⟩, hgrows⟩ := ih
    refine ⟨⟨t', ?_, hnumbered.owned, hnumbered.nodup⟩, hgrows⟩
    exact hnumbered.tracks.stays (Draft.Stays.refl hnumbered.tracks.ready)

/-- Whether the widgets of a document have distinct ids, and no id of the document or of its history
is handed out again: not by any source that the document can come to from here on. -/
structure HasLastingIds (desk : Desk σ) : Prop where
  distinct : (idsOf desk.session.document.segments).Nodup
  never_again : ∀ desk', Proceeds desk desk' → ∀ ids, desk'.session.document.ids.Grows ids →
    ∀ kind, (ids.next kind).1 ∉ idsOf desk.session.document.segments
      ∧ (ids.next kind).1 ∉ desk.session.draft.history.ids
  /-- Up to its greatest number, a counter of 32 bits hands none of them out again either. -/
  narrow : ∀ desk', Proceeds desk desk' → ∀ ids, desk'.session.document.ids.Grows ids →
    ids.issued + 1 < UInt32.size →
    ∀ kind, ids.narrowNext kind ∉ idsOf desk.session.document.segments
      ∧ ids.narrowNext kind ∉ desk.session.draft.history.ids

/-- At every point of every run the ids of a session are distinct and used once. -/
theorem widget_ids_distinct {b : Bundle} {options : EditorOptions} {files : σ} {session : Session}
    (h : Session.load b options files = .ok session) {desk : Desk σ}
    (hp : Proceeds ⟨session, files⟩ desk) : HasLastingIds desk := by
  obtain ⟨⟨t, hnumbered⟩, -⟩ := (Numbered.opened h).proceed hp
  have hnever : ∀ desk', Proceeds desk desk' → ∀ ids, desk'.session.document.ids.Grows ids →
      ∀ kind, (ids.next kind).1 ∉ idsOf desk.session.document.segments
        ∧ (ids.next kind).1 ∉ desk.session.draft.history.ids := by
    intro desk' hp' ids hgrows kind
    obtain ⟨-, hgrows'⟩ := hnumbered.proceed hp'
    have hnew := ids.not_owns_next kind
    constructor
    · exact fun hmem => hnew ((hnumbered.owned.sound.owned _ hmem).grow (hgrows'.trans hgrows))
    · exact fun hmem => hnew ((hnumbered.owned.history _ hmem).grow (hgrows'.trans hgrows))
  refine ⟨?_, hnever, ?_⟩
  · rw [hnumbered.tracks.present_eq]
    exact hnumbered.nodup _ (List.mem_append_right _ (List.mem_cons_self ..))
  · intro desk' hp' ids hgrows hbound kind
    rw [ids.narrowNext_eq kind hbound]
    exact hnever desk' hp' ids hgrows kind

/-- The ids of a script after one of its widgets was cut and put back. -/
theorem widget_ids_distinct_undone :
    let files := (Store.empty.addFile (.ofString "/w/a.png") [65]).addFile (.ofString "/w/s.py")
      (Text.encode "\"a.png\" \"a.png\"".toList)
    ∃ session, Session.load (Bundle.ofScript (.ofString "/w/s.py")) .default files = .ok session
      ∧ (idsOf session.document.segments).length = 2
      ∧ HasLastingIds (stateOf (Operation.undo.run (stateOf ((Operation.cut 0 1).run
          (⟨session, files⟩ : Desk Store))))) := by
  intro files
  obtain ⟨session, hload, hlength⟩ : ∃ session,
      Session.load (Bundle.ofScript (.ofString "/w/s.py")) .default files = .ok session
        ∧ (idsOf session.document.segments).length = 2 := ⟨_, rfl, by decide +kernel⟩
  have hcut : (Operation.cut 0 1).KeepsIds := trivial
  have hundo : Operation.undo.KeepsIds := trivial
  exact ⟨session, hload, hlength,
    widget_ids_distinct hload (((Proceeds.refl _).operated hcut).operated hundo)⟩

end

end ImageScript
