import ImageScript.Proofs.Edit.Steps

/-!
# Operations of a session

Every operation other than undo and redo either adds one step to the history, which leads from the
old segments to the new ones, or leaves the segments and the steps as they were. Which of the two is
the case is what its result says.

Main statements: `Operation.run_evolved`.
-/

namespace ImageScript

/-- The state behind a result. -/
def stateOf {ε σ α : Type} : EStateM.Result ε σ α → σ
  | .ok _ s | .error _ s => s

/-- Whether a step leads from one row to another, or is the one that changes nothing and cannot be
taken back. -/
def Batch.Joins (b : Batch) (row row' : List Segment) : Prop :=
  Leads row b.changes row' ∨ b.IsBlind row ∧ row' = row

namespace Draft

/-- Whether a draft has the same segments and steps as before. -/
structure Stays (d d' : Draft) : Prop where
  ready : d'.Ready
  grows : d.document.ids.Grows d'.document.ids
  row_eq : d'.document.segments = d.document.segments
  undoable_eq : d'.history.undoable = d.history.undoable
  redoable_eq : d'.history.redoable = d.history.redoable
  levels_eq : d'.history.maxLevels = d.history.maxLevels

/-- Whether a draft has one more step than before. -/
structure Advances (d d' : Draft) : Prop where
  ready : d'.Ready
  grows : d.document.ids.Grows d'.document.ids
  stepped : ∃ batch, d'.history = d.history.push batch
    ∧ batch.Joins d.document.segments d'.document.segments

variable {d d' d'' : Draft}

theorem Stays.refl (hd : d.Ready) : d.Stays d := ⟨hd, IdSource.Grows.refl _, rfl, rfl, rfl, rfl⟩

theorem Edited.advances (h : Edited d d' none) : d.Advances d' := by
  obtain ⟨batch, hhistory, hleads⟩ := h.stepped rfl
  exact ⟨h.ready, h.grows, batch, hhistory, Or.inl hleads⟩

theorem Edited.stays {e : EditError} (h : Edited d d' (some e)) : d.Stays d' := by
  obtain ⟨hhistory, hrow⟩ := h.kept (by simp)
  exact ⟨h.ready, h.grows, hrow, by rw [hhistory], by rw [hhistory], by rw [hhistory]⟩

/-- Ids taken in advance make no difference. -/
theorem ready_of_ids {ids : IdSource} (hd : d.Ready) (hg : d.document.ids.Grows ids) :
    ({ d with document := { d.document with ids } } : Draft).Ready :=
  ⟨hd.normal, hd.clean, hd.owned.grow hg, hd.idle⟩

/-- A change made outside of a batch is a step of its own. -/
theorem apply_advances {m : Mutation} (hd : d.Ready) (hi : m.IsInvertible d.document.segments)
    (hnew : ∀ id ∈ m.newIds, d.document.ids.Owns id)
    (hfresh : ∀ e, m.apply d.document = .ok e → e.freshness = d.document.freshness)
    (h : d.apply m = .ok d') : d.Advances d' := by
  obtain ⟨inverse, hinverse, hdoc, hhistory⟩ := of_apply h
  have hexact := Mutation.exact_of_apply hd.normal hi hdoc hinverse
  have hleaves := Mutation.leaves_of_apply hd.normal hdoc
  have hpush : d'.history = d.history.push ⟨[⟨m, inverse⟩], none⟩ := by
    rw [hhistory]
    unfold History.record
    rw [hd.idle]
  refine ⟨⟨hleaves.normal, ?_, ?_, ?_⟩, ?_, _, hpush, Or.inl (.cons hexact (.nil _))⟩
  · rw [hfresh _ hdoc, hd.clean]
  · intro id hid
    rw [hleaves.ids_eq]
    rcases hleaves.idsOf_subset id hid with hid | hid
    · exact hd.owned id hid
    · exact hnew id hid
  · rw [hpush, History.building_push, hd.idle]
  · rw [hleaves.ids_eq]
    exact IdSource.Grows.refl _

end Draft

namespace Mutation

/-- Whether a mutation changes a widget and nothing else. -/
def IsUpdate : Mutation → Prop
  | updatePattern .. | replacePattern .. | updateRegion .. => True
  | _ => False

/-- An update leaves nothing to recognize that was not to be recognized before. -/
theorem freshness_of_apply {m : Mutation} {d e : Document} (hm : m.IsUpdate)
    (h : m.apply d = .ok e) : e.freshness = d.freshness := by
  obtain ⟨_, hvalid, h⟩ := ok_of_bind h
  cases m with
  | insertText pos s => exact hm.elim
  | removeRange lo hi => exact hm.elim
  | insertSegments pos inserted => exact hm.elim
  | updatePattern id q =>
    obtain ⟨p, hp, -⟩ := ok_of_map hvalid
    obtain ⟨v, hv, rfl⟩ := ok_of_map h
    simp only [Document.updatePattern, hp, bind, Except.bind, pure, Except.pure,
      Except.ok.injEq] at hv
    rw [← hv]
  | replacePattern id q =>
    obtain ⟨p, hp, -⟩ := ok_of_map hvalid
    obtain ⟨v, hv, rfl⟩ := ok_of_map h
    simp only [Document.replacePattern, hp, bind, Except.bind, pure, Except.pure,
      Except.ok.injEq] at hv
    rw [← hv]
  | updateRegion id q =>
    obtain ⟨r, hr, -⟩ := ok_of_map hvalid
    obtain ⟨v, hv, rfl⟩ := ok_of_map h
    simp only [Document.updateRegion, hr, bind, Except.bind, pure, Except.pure,
      Except.ok.injEq] at hv
    rw [← hv]

end Mutation

/-- What a user can do in a session. -/
inductive Operation where
  | insertText (pos : Nat) (text : Text)
  | removeRange (lo hi : Nat)
  | replaceRange (lo hi : Nat) (text : Text)
  | insertCapture (pos : Nat)
  | updatePattern (id : Text) (f : Pattern → Bool × Pattern)
  | replacePattern (id : Text) (p : Pattern)
  | updateRegion (id : Text) (f : Region → Bool × Region)
  | cut (lo hi : Nat)
  | paste (pos : Nat) (payload : ClipboardPayload)
  | receive (event : WorkerEvent)
  | undo
  | redo
  | save

namespace Operation

variable {σ : Type} [FileSystem σ]

/-- Carries out an operation and says whether it changed the document or travelled in its
history. -/
def run : Operation → EStateM EditError (Desk σ) Bool
  | insertText pos s => do Session.insertText pos s; return true
  | removeRange lo hi => do Session.removeRange lo hi; return true
  | replaceRange lo hi s => do Session.replaceRange lo hi s; return true
  | insertCapture pos => do let _ ← Session.insertCapture pos; return true
  | updatePattern id f => Session.updatePattern id f
  | replacePattern id p => do let _ ← Session.replacePattern id p; return true
  | updateRegion id f => Session.updateRegion id f
  | cut lo hi => do let _ ← Session.cut lo hi; return true
  | paste pos payload => do let _ ← Session.paste pos payload; return true
  | receive event => Session.receive event
  | undo => Session.undo
  | redo => Session.redo
  | save => do let _ ← Session.save; return false

/-- Whether a result is one of a further step where it says so, and of none otherwise. -/
def Evolved {α : Type} (changed : α → Bool) (d : Draft) : EStateM.Result EditError (Desk σ) α → Prop
  | .ok a desk => if changed a then d.Advances desk.session.draft else d.Stays desk.session.draft
  | .error _ desk => d.Stays desk.session.draft

omit [FileSystem σ] in
theorem evolved_map {α β : Type} {changed : β → Bool} {f : α → β} {d : Draft}
    {x : EStateM EditError (Desk σ) α} {desk : Desk σ}
    (h : Evolved (fun a => changed (f a)) d (x desk)) :
    Evolved changed d ((do let a ← x; return f a : EStateM EditError (Desk σ) β) desk) := by
  simp only [bind, EStateM.bind, pure, EStateM.pure]
  cases hx : x desk with
  | ok a desk' =>
    rw [hx] at h
    exact h
  | error e desk' =>
    rw [hx] at h
    exact h

end Operation

namespace Session

open Operation

variable {σ : Type} [FileSystem σ] {desk : Desk σ}

theorem edit_evolved (hd : desk.session.draft.Ready) (description : String) {ms : List Mutation}
    (hne : ms ≠ []) (hi : Mutation.AreInvertible ms desk.session.document)
    (hnew : ∀ m ∈ ms, ∀ id ∈ m.newIds, desk.session.document.ids.Owns id) :
    Evolved (fun _ => true) desk.session.draft (edit description ms desk) := by
  have hedit := Draft.edit_edited hd description.toList hne hi hnew desk.session.bundle desk.files
  unfold edit
  dsimp only
  cases hr : desk.session.draft.edit description.toList ms desk.session.bundle desk.files with
  | mk draft error =>
    rw [hr] at hedit
    cases error with
    | none => exact hedit.advances
    | some e => exact hedit.stays

/-- No text is inserted in a step that changes nothing, and any other text in one that can be taken
back. -/
theorem edit_insertText_evolved (hd : desk.session.draft.Ready) (description : String) (pos : Nat)
    (s : Text) :
    Evolved (fun _ => true) desk.session.draft (edit description [.insertText pos s] desk) := by
  by_cases hblind : s = [] ∧ pos ≤ Segment.totalLen desk.session.document.segments
      ∧ ¬ ∃ x z, Segment.Cut desk.session.document.segments pos pos x [] z
  · obtain ⟨rfl, hpos, huncut⟩ := hblind
    unfold edit
    dsimp only
    rw [Draft.edit_blind hd description.toList hpos]
    refine ⟨⟨hd.normal, hd.clean, hd.owned, ?_⟩, IdSource.Grows.refl _, _, rfl,
      Or.inr ⟨⟨pos, rfl, hpos, huncut⟩, rfl⟩⟩
    rw [History.building_push, hd.idle]
  · refine edit_evolved hd description (by simp)
      (Mutation.areInvertible_insertText ?_) (by simp [Mutation.newIds])
    by_cases hs : s = []
    · by_cases hpos : pos ≤ Segment.totalLen desk.session.document.segments
      · by_cases hcut : ∃ x z, Segment.Cut desk.session.document.segments pos pos x [] z
        · exact Or.inr (Or.inr hcut)
        · exact absurd ⟨hs, hpos, hcut⟩ hblind
      · exact Or.inr (Or.inl (Nat.lt_of_not_le hpos))
    · exact Or.inl hs

theorem removeRange_evolved (hd : desk.session.draft.Ready) (description : String) (lo hi : Nat) :
    Evolved (fun _ => true) desk.session.draft (edit description [.removeRange lo hi] desk) :=
  edit_evolved hd description (by simp) (Mutation.areInvertible_removeRange lo hi _)
    (by simp [Mutation.newIds])

theorem replaceRange_evolved (hd : desk.session.draft.Ready) (lo hi : Nat) (s : Text) :
    Evolved (fun _ => true) desk.session.draft (replaceRange lo hi s desk) :=
  edit_evolved hd "Replace" (by simp) (Mutation.areInvertible_replaceRange hd.normal)
    (by simp [Mutation.newIds])

omit [FileSystem σ] in
/-- What holds of a draft whose ids were taken in advance holds of the draft itself. -/
theorem evolved_of_ids {α : Type} {changed : α → Bool} {d : Draft} {ids : IdSource}
    {r : EStateM.Result EditError (Desk σ) α} (hg : d.document.ids.Grows ids)
    (h : Evolved changed { d with document := { d.document with ids } } r) :
    Evolved changed d r := by
  have hstays : ∀ d' : Draft, Draft.Stays { d with document := { d.document with ids } } d'
      → d.Stays d' := fun d' h =>
    ⟨h.ready, hg.trans h.grows, h.row_eq, h.undoable_eq, h.redoable_eq, h.levels_eq⟩
  cases r with
  | error e desk => exact hstays _ h
  | ok a desk =>
    simp only [Evolved] at h ⊢
    by_cases hc : changed a = true
    · rw [if_pos hc] at h ⊢
      exact ⟨h.ready, hg.trans h.grows, h.stepped⟩
    · rw [if_neg hc] at h ⊢
      exact hstays _ h

/-- The id of the widget is taken first, and then the widget is inserted. -/
theorem insertCapture_eq (pos : Nat) (desk : Desk σ) :
    let next := desk.session.document.ids.next .pattern
    insertCapture pos desk = ((do
      edit "Insert capture" [.insertSegments pos [.pattern (.pendingCapture next.1)]]
      return next.1 : EStateM EditError (Desk σ) Text)
      { desk with session := { desk.session with draft := { desk.session.draft with
          document := { desk.session.document with ids := next.2 } } } }) :=
  rfl

theorem owned_of_insertCapture (pos : Nat) (ids : IdSource) :
    ∀ m ∈ [Mutation.insertSegments pos [.pattern (.pendingCapture (ids.next .pattern).1)]],
      ∀ id ∈ m.newIds, (ids.next .pattern).2.Owns id := by
  intro m hm id hid
  rw [List.mem_singleton.1 hm] at hid
  obtain rfl : id = (ids.next .pattern).1 := List.mem_singleton.1 hid
  exact IdSource.owns_next ids .pattern

theorem insertCapture_evolved (hd : desk.session.draft.Ready) (pos : Nat) :
    Evolved (fun _ => true) desk.session.draft (insertCapture pos desk) := by
  have hg := IdSource.grows_next desk.session.document.ids .pattern
  have hready := Draft.ready_of_ids hd hg
  rw [insertCapture_eq]
  refine evolved_of_ids hg (evolved_map (edit_evolved hready "Insert capture" (by simp)
    (Mutation.areInvertible_insertSegments _ (by simp)) ?_))
  exact owned_of_insertCapture pos _

omit [FileSystem σ] in
theorem onDraft_evolved {α : Type} {changed : α → Bool} {d : Draft}
    {f : Draft → Draft × Except EditError α}
    (hok : ∀ d' a, f desk.session.draft = (d', .ok a) →
      if changed a then d.Advances d' else d.Stays d')
    (herror : ∀ d' e, f desk.session.draft = (d', .error e) → d.Stays d') :
    Evolved changed d (onDraft f desk) := by
  unfold onDraft
  cases hf : f desk.session.draft with
  | mk d' r =>
    cases r with
    | ok a => exact hok d' a hf
    | error e => exact herror d' e hf

omit [FileSystem σ] in
/-- A change of a widget is one step. -/
theorem applyUpdate_evolved (hd : desk.session.draft.Ready) (id : Text)
    {update : Document → Option (Bool × Mutation)}
    (hupdate : ∀ m, update desk.session.document = some (true, m) →
      m.IsUpdate ∧ m.IsInvertible desk.session.document.segments ∧ m.newIds = []) :
    Evolved (fun changed => changed) desk.session.draft (onDraft (applyUpdate id update) desk) := by
  have hstays := Draft.Stays.refl hd
  unfold document at hupdate
  refine onDraft_evolved ?_ ?_
  · intro d changed hr
    unfold applyUpdate at hr
    cases hu : update desk.session.draft.document with
    | none => simp [hu] at hr
    | some p =>
      obtain ⟨changes, m⟩ := p
      rw [hu] at hr
      cases changes with
      | false =>
        simp only [Prod.mk.injEq, Except.ok.injEq] at hr
        obtain ⟨rfl, rfl⟩ := hr
        exact hstays
      | true =>
        obtain ⟨hkind, hinv, hnew⟩ := hupdate m hu
        cases ha : desk.session.draft.apply m with
        | error e => simp [ha] at hr
        | ok d' =>
          simp only [ha, Prod.mk.injEq, Except.ok.injEq] at hr
          obtain ⟨rfl, rfl⟩ := hr
          exact Draft.apply_advances hd hinv (by simp [hnew])
            (fun e => Mutation.freshness_of_apply hkind) ha
  · intro d e hr
    unfold applyUpdate at hr
    cases hu : update desk.session.draft.document with
    | none =>
      simp only [hu, Prod.mk.injEq] at hr
      rw [← hr.1]
      exact hstays
    | some p =>
      obtain ⟨changes, m⟩ := p
      rw [hu] at hr
      cases changes with
      | false => simp at hr
      | true =>
        cases ha : desk.session.draft.apply m with
        | ok d' => simp [ha] at hr
        | error e =>
          simp only [ha, Prod.mk.injEq] at hr
          rw [← hr.1]
          exact hstays

omit [FileSystem σ] in
theorem updatePattern_evolved (hd : desk.session.draft.Ready) (id : Text)
    (f : Pattern → Bool × Pattern) :
    Evolved (fun changed => changed) desk.session.draft (updatePattern id f desk) := by
  refine applyUpdate_evolved hd id ?_
  intro m hm
  obtain ⟨p, -, hp⟩ := Option.map_eq_some_iff.1 hm
  simp only [Prod.mk.injEq] at hp
  rw [← hp.2]
  exact ⟨trivial, trivial, rfl⟩

omit [FileSystem σ] in
theorem updateRegion_evolved (hd : desk.session.draft.Ready) (id : Text)
    (f : Region → Bool × Region) :
    Evolved (fun changed => changed) desk.session.draft (updateRegion id f desk) := by
  refine applyUpdate_evolved hd id ?_
  intro m hm
  obtain ⟨r, -, hr⟩ := Option.map_eq_some_iff.1 hm
  simp only [Prod.mk.injEq] at hr
  rw [← hr.2]
  exact ⟨trivial, trivial, rfl⟩

omit [FileSystem σ] in
/-- The id of the new widget is in no row, so that the old widget can be put back in its place. -/
theorem replacePattern_evolved (hd : desk.session.draft.Ready) (id : Text) (p : Pattern) :
    Evolved (fun _ => true) desk.session.draft (replacePattern id p desk) := by
  have hg := IdSource.grows_next desk.session.document.ids .pattern
  have howned := IdSource.owns_next desk.session.document.ids .pattern
  have hfresh := IdSource.not_owns_next desk.session.document.ids .pattern
  have hready := Draft.ready_of_ids hd hg
  unfold document at hg howned hfresh hready
  have hunused : (desk.session.draft.document.ids.next .pattern).1
      ∉ Segment.idsOf desk.session.draft.document.segments :=
    fun hmem => hfresh (hd.owned _ hmem)
  refine evolved_of_ids hg (onDraft_evolved ?_ ?_)
  · intro d' newId hr
    simp only [Document.newId] at hr
    split at hr
    · next d'' ha =>
      simp only [Prod.mk.injEq] at hr
      rw [← hr.1]
      refine Draft.apply_advances hready ?_ ?_ ?_ ha
      · exact hunused
      · intro i hi
        rw [List.mem_singleton.1 hi]
        exact howned
      · intro e
        exact Mutation.freshness_of_apply trivial
    · simp at hr
  · intro d' e hr
    simp only [Document.newId] at hr
    split at hr
    · simp at hr
    · simp only [Prod.mk.injEq] at hr
      rw [← hr.1]
      exact Draft.Stays.refl hready

theorem cut_evolved (hd : desk.session.draft.Ready) (lo hi : Nat) :
    Evolved (fun _ => true) desk.session.draft (cut lo hi desk) := by
  have hedit := removeRange_evolved hd "Cut" lo hi
  unfold cut copy
  simp only [bind, EStateM.bind]
  cases hcopy : Clipboard.copy desk.session.document lo hi desk.session.bundle desk.files with
  | error e => exact Draft.Stays.refl hd
  | ok payload => exact evolved_map hedit

omit [FileSystem σ] in
theorem session_onFiles {α : Type} (action : EStateM EditError σ α) (desk : Desk σ) :
    (∃ a files, onFiles action desk = .ok a { desk with files })
      ∨ ∃ e files, onFiles action desk = .error e { desk with files } := by
  unfold onFiles
  cases action desk.files with
  | ok a files => exact Or.inl ⟨a, files, rfl⟩
  | error e files => exact Or.inr ⟨e, files, rfl⟩

/-- What a paste comes to: nothing behind the end of the document, the copies that were made, or those
copies and one edit. -/
inductive PasteEnds (pos : Nat) (payload : ClipboardPayload) (desk : Desk σ) :
    EStateM.Result EditError (Desk σ) (Nat × Nat) → Prop where
  | outside (behind : desk.session.document.len < pos) :
      PasteEnds pos payload desk (.error (desk.session.document.invalid pos) desk)
  | unprepared {e : EditError} {files : σ}
      (prepared : Clipboard.prepare payload desk.session.bundle desk.files = .error e files) :
      PasteEnds pos payload desk (.error e { desk with files })
  | refused {p : Clipboard.Prepared} {files : σ} {e : EditError} {desk' : Desk σ}
      (prepared : Clipboard.prepare payload desk.session.bundle desk.files = .ok p files)
      (edited : edit "Paste" [.insertText pos p.text] { desk with files } = .error e desk') :
      PasteEnds pos payload desk (.error e { desk' with files := p.rollback desk'.files })
  | made {p : Clipboard.Prepared} {files : σ} {desk' : Desk σ}
      (prepared : Clipboard.prepare payload desk.session.bundle desk.files = .ok p files)
      (edited : edit "Paste" [.insertText pos p.text] { desk with files } = .ok () desk') :
      PasteEnds pos payload desk
        (.ok (Clipboard.pastedRange pos desk.session.document desk'.session.document) desk')

theorem paste_ends (pos : Nat) (payload : ClipboardPayload) (desk : Desk σ) :
    PasteEnds pos payload desk (paste pos payload desk) := by
  unfold paste
  simp only [bind, EStateM.bind, get, getThe, MonadStateOf.get, EStateM.get]
  by_cases hpos : desk.session.document.len < pos
  · simp only [if_pos hpos]
    exact .outside hpos
  · simp only [if_neg hpos, EStateM.bind, onFiles]
    cases hprepare : Clipboard.prepare payload desk.session.bundle desk.files with
    | error e files => exact .unprepared hprepare
    | ok p files =>
      dsimp only
      cases hedit : edit "Paste" [.insertText pos p.text] { desk with files } with
      | error e desk' => exact .refused hprepare hedit
      | ok _ desk' => exact .made hprepare hedit

theorem paste_evolved (hd : desk.session.draft.Ready) (pos : Nat) (payload : ClipboardPayload) :
    Evolved (fun _ => true) desk.session.draft (paste pos payload desk) := by
  have hedit : ∀ (p : Clipboard.Prepared) (files : σ), Evolved (fun _ => true) desk.session.draft
      (edit "Paste" [.insertText pos p.text] { desk with files }) := by
    intro p files
    have hd' : ({ desk with files } : Desk σ).session.draft.Ready := hd
    exact edit_insertText_evolved hd' "Paste" pos p.text
  have hends := paste_ends pos payload desk
  generalize paste pos payload desk = result at hends ⊢
  cases hends with
  | outside => exact Draft.Stays.refl hd
  | unprepared => exact Draft.Stays.refl hd
  | @refused p files e desk' prepared edited =>
    have hrefused := hedit p files
    rw [edited] at hrefused
    exact hrefused
  | @made p files desk' prepared edited =>
    have hmade := hedit p files
    rw [edited] at hmade
    exact hmade

omit [FileSystem σ] in
theorem receive_evolved (hd : desk.session.draft.Ready) (event : WorkerEvent) :
    Evolved (fun changed => changed) desk.session.draft (receive event desk) := by
  unfold receive
  simp only [bind, EStateM.bind, get, getThe, MonadStateOf.get, EStateM.get]
  cases event with
  | captureDone id path =>
    dsimp only
    cases path.fileName?.filter fun _ => desk.session.bundle.contains path with
    | none => exact updatePattern_evolved hd id _
    | some name => exact updatePattern_evolved hd id _
  | captureFailed id cause => exact updatePattern_evolved hd id _
  | _ => exact Draft.Stays.refl hd

theorem save_evolved (hd : desk.session.draft.Ready) :
    Evolved (fun _ => false) desk.session.draft (save desk) := by
  have hsaved : desk.session.draft.Stays
      { desk.session.draft with history := desk.session.draft.history.markSaved } :=
    ⟨⟨hd.normal, hd.clean, hd.owned, hd.idle⟩, IdSource.Grows.refl _, rfl, rfl, rfl, rfl⟩
  unfold save
  simp only [bind, EStateM.bind, get, getThe, MonadStateOf.get, EStateM.get]
  rcases session_onFiles ((desk.session.bundle.writeScript desk.session.document.text).adaptExcept
    EditError.bundle) desk with ⟨a, files, hwrite⟩ | ⟨e, files, hwrite⟩
  · rw [hwrite]
    dsimp only
    by_cases hclean : desk.session.options.cleanBundleOnSave = true
    · simp only [if_pos hclean]
      rcases session_onFiles ((desk.session.bundle.cleanUp desk.session.document.text).adaptExcept
        EditError.bundle) { desk with files } with ⟨c, files', hclean⟩ | ⟨e, files', hclean⟩
      · simp only [EStateM.bind, EStateM.map, Functor.map, hclean]
        exact hsaved
      · simp only [EStateM.bind, EStateM.map, Functor.map, hclean]
        exact Draft.Stays.refl hd
    · simp only [if_neg hclean]
      exact hsaved
  · rw [hwrite]
    exact Draft.Stays.refl hd

end Session

namespace Operation

variable {σ : Type} [FileSystem σ] {desk : Desk σ}

/-- Every operation but the travels adds one step or none, as its result says. -/
theorem run_evolved (hd : desk.session.draft.Ready) (op : Operation) (hu : op ≠ undo)
    (hr : op ≠ redo) :
    Evolved (fun changed => changed) desk.session.draft (op.run desk) := by
  cases op with
  | insertText pos s => exact evolved_map (Session.edit_insertText_evolved hd "Typing" pos s)
  | removeRange lo hi => exact evolved_map (Session.removeRange_evolved hd "Delete" lo hi)
  | replaceRange lo hi s => exact evolved_map (Session.replaceRange_evolved hd lo hi s)
  | insertCapture pos => exact evolved_map (Session.insertCapture_evolved hd pos)
  | updatePattern id f => exact Session.updatePattern_evolved hd id f
  | replacePattern id p => exact evolved_map (Session.replacePattern_evolved hd id p)
  | updateRegion id f => exact Session.updateRegion_evolved hd id f
  | cut lo hi => exact evolved_map (Session.cut_evolved hd lo hi)
  | paste pos payload => exact evolved_map (Session.paste_evolved hd pos payload)
  | receive event => exact Session.receive_evolved hd event
  | undo => exact absurd rfl hu
  | redo => exact absurd rfl hr
  | save => exact evolved_map (Session.save_evolved hd)

end Operation

end ImageScript
