import ImageScript.Proofs.Document.Sameness
import ImageScript.Proofs.Edit.Refusal
import ImageScript.Proofs.Edit.WidgetIds

/-!
# Results of captures

The result of a capture may come late, and it names its pattern by an id alone. As long as no script
is opened in between, it changes that pattern or nothing at all: an id never comes to stand for
another widget, whatever is edited, undone and redone. A script that is opened starts to count its
ids anew. They differ from all earlier ids where the checksum of its path is another one; with the
same checksum, the result of an earlier capture goes to whichever pattern has its id now.

Main statements: `Session.receive_outcome`, `IdSource.seed_eq_of_owns`, `Operation.keepsBundle`,
`InOrder.of_visited`, `capture_result_reaches_own`.
-/

namespace ImageScript

open Segment

/-! ### What a result asks for -/

namespace Pattern

/-- Whether two patterns differ in their image or in their state. -/
def LooksOther (p q : Pattern) : Prop :=
  p.imageName ≠ q.imageName ∨ samePath p.resolvedPath q.resolvedPath = false ∨ p.state ≠ q.state

variable {p q : Pattern}

theorem LooksOther.same_eq_false (h : p.LooksOther q) : p.same q = false := by
  rcases h with h | h | h <;> simp [same, h]

theorem LooksOther.ne (h : p.LooksOther q) : q ≠ p := by
  intro heq
  subst heq
  rcases h with h | h | h
  · exact h rfl
  · simp [samePath_self] at h
  · exact h rfl

/-- Whether a change of a pattern leaves its id and says truly whether it changes its looks. -/
structure IsHonest (f : Pattern → Bool × Pattern) : Prop where
  keepsId : KeepsId f
  unchanged : ∀ p, (f p).1 = false → (f p).2 = p
  changed : ∀ p, (f p).1 = true → p.LooksOther (f p).2

theorem isHonest_setState (state : PatternState) : IsHonest (setState state) := by
  refine ⟨keepsId_setState state, fun p h => ?_, fun p h => ?_⟩
  · by_cases hstate : p.state = state
    · simp [setState, hstate]
    · simp [setState, hstate] at h
  · by_cases hstate : p.state = state
    · simp [setState, hstate] at h
    · exact Or.inr (Or.inr (by simp [setState, hstate]))

/-- What the name and the path of a captured image make of a pattern. -/
def showCaptured (name : Text) (path : Path) (p : Pattern) : Bool × Pattern :=
  let (renamed, p) := p.setImage name (some path)
  let (ready, p) := p.setState .ready
  (ready || renamed, p)

section

variable {name : Text} {path : Path}

theorem showCaptured_of_shown
    (h : (p.imageName = name && samePath p.resolvedPath (some path)) = true) :
    showCaptured name path p = p.setState .ready := by
  simp only [showCaptured, setImage, if_pos h, Bool.or_false]

theorem showCaptured_of_other
    (h : ¬ (p.imageName = name && samePath p.resolvedPath (some path)) = true) :
    showCaptured name path p
      = (true, { p with imageName := name, resolvedPath := some path, state := .ready }) := by
  simp only [showCaptured, setImage, if_neg h, Bool.or_true, setState]
  by_cases hstate : p.state = .ready <;> simp [hstate]

end

theorem isHonest_showCaptured (name : Text) (path : Path) : IsHonest (showCaptured name path) := by
  have hready := isHonest_setState .ready
  refine ⟨fun p => ?_, fun p h => ?_, fun p h => ?_⟩
  all_goals
    by_cases himage : (p.imageName = name && samePath p.resolvedPath (some path)) = true
  · rw [showCaptured_of_shown himage]
    exact hready.keepsId p
  · rw [showCaptured_of_other himage]
  · rw [showCaptured_of_shown himage] at h ⊢
    exact hready.unchanged p h
  · rw [showCaptured_of_other himage] at h
    simp at h
  · rw [showCaptured_of_shown himage] at h ⊢
    exact hready.changed p h
  · rw [showCaptured_of_other himage]
    by_cases hname : p.imageName = name
    · exact Or.inr (Or.inl (by simpa [hname] using himage))
    · exact Or.inl hname

end Pattern

namespace WorkerEvent

/-- The id of the pattern that the result of a capture is for. -/
def resultFor? : WorkerEvent → Option Text
  | captureDone id _ | captureFailed id _ => some id
  | _ => none

/-- What the result of a capture makes of a pattern of a bundle, and whether that changes it. -/
def revise (b : Bundle) : WorkerEvent → Pattern → Bool × Pattern
  | captureDone _ path =>
    match path.fileName?.filter fun _ => b.contains path with
    | some name => Pattern.showCaptured name path
    | none => Pattern.setState .notFound
  | captureFailed .. => Pattern.setState .notFound
  | _ => fun p => (false, p)

theorem isHonest_revise (b : Bundle) (event : WorkerEvent) : Pattern.IsHonest (event.revise b) := by
  have hnothing : Pattern.IsHonest fun p => (false, p) := by
    refine ⟨fun _ => rfl, fun _ _ => rfl, fun _ h => ?_⟩
    simp at h
  cases event with
  | captureDone id path =>
    unfold revise
    dsimp only
    cases path.fileName?.filter fun _ => b.contains path with
    | none => exact Pattern.isHonest_setState .notFound
    | some name => exact Pattern.isHonest_showCaptured name path
  | captureFailed id error => exact Pattern.isHonest_setState .notFound
  | captureCancelled id => exact hnothing
  | preview generation id found => exact hnothing
  | previewFailed generation id error => exact hnothing

end WorkerEvent

/-! ### What a result does -/

/-- The document behind a result for the first pattern of an id. -/
structure Document.Revised (id : Text) (p q : Pattern) (d d' : Document) : Prop where
  segments : ∃ before after, FirstWith id d.segments before (.pattern p) after
    ∧ d'.segments = before ++ .pattern q :: after
  rest : d' = { d with segments := d'.segments, version := d.version + 1 }

namespace Draft

variable {d : Draft} {id : Text} {p q : Pattern}

theorem apply_updatePattern (hp : d.document.pattern? id = some p) (hid : q.id = p.id)
    (hsame : p.same q = false) :
    ∃ d', d.apply (.updatePattern id q) = .ok d' ∧ d.document.Revised id p q d'.document := by
  have hfind := Document.findPattern_of_pattern? hp
  obtain ⟨before, after, hfirst⟩ := exists_firstWith (Document.findPattern_eq_ok.1 hfind)
  have hassign : Pattern.assign q p = (true, q) := by
    have hq : ({ q with id := p.id } : Pattern) = q := by rw [← hid]
    simp [Pattern.assign, hq, hsame]
  have hinverse := Mutation.inverse_updatePattern hfind q
  have happly : (Mutation.updatePattern id q).apply d.document = .ok { d.document with
      segments := replaceFirst id (fun _ => .pattern q) d.document.segments
      version := d.document.version + 1 } := by
    rw [Mutation.apply_updatePattern hfind, hassign]
    rfl
  refine ⟨_, by simp [Draft.apply, hinverse, happly, bind, Except.bind, pure, Except.pure]; rfl,
    ⟨before, after, hfirst, ?_⟩, rfl⟩
  exact hfirst.replaceFirst_eq _

end Draft

namespace Session

variable {σ : Type} {desk : Desk σ} {id : Text} {event : WorkerEvent}

theorem receive_eq (h : event.resultFor? = some id) :
    receive event desk = updatePattern id (event.revise desk.session.bundle) desk := by
  cases event with
  | captureDone id' path =>
    obtain rfl := Option.some.inj h
    simp only [receive, WorkerEvent.revise, bind, EStateM.bind, get, getThe, MonadStateOf.get,
      EStateM.get]
    cases path.fileName?.filter fun _ => desk.session.bundle.contains path with
    | none => rfl
    | some name => rfl
  | captureFailed id' error =>
    obtain rfl := Option.some.inj h
    rfl
  | captureCancelled id => simp [WorkerEvent.resultFor?] at h
  | preview generation id found => simp [WorkerEvent.resultFor?] at h
  | previewFailed generation id error => simp [WorkerEvent.resultFor?] at h

/-- A result changes the first pattern with its id, if it makes something else of it, and leaves the
desk alone otherwise. -/
theorem receive_outcome (desk : Desk σ) (h : event.resultFor? = some id) :
    (stateOf (receive event desk) = desk
        ∧ ∀ p, desk.session.document.pattern? id = some p →
          (event.revise desk.session.bundle p).2 = p)
      ∨ ∃ p, desk.session.document.pattern? id = some p
        ∧ p.LooksOther (event.revise desk.session.bundle p).2
        ∧ desk.session.document.Revised id p (event.revise desk.session.bundle p).2
          (stateOf (receive event desk)).session.document := by
  have hhonest := event.isHonest_revise desk.session.bundle
  rw [receive_eq h]
  generalize event.revise desk.session.bundle = f at hhonest
  unfold updatePattern onDraft applyUpdate
  cases hp : desk.session.document.pattern? id with
  | none =>
    left
    unfold document at hp
    simp [hp, stateOf]
  | some p =>
    have hp' := hp
    unfold document at hp'
    cases hf : (f p).1 with
    | false =>
      left
      simp [hp', hf, stateOf, hhonest.unchanged p hf]
    | true =>
      right
      have hother := hhonest.changed p hf
      obtain ⟨d', happly, hrevised⟩ :=
        Draft.apply_updatePattern hp' (hhonest.keepsId p) hother.same_eq_false
      refine ⟨p, rfl, hother, ?_⟩
      simp only [hp', hf, happly, stateOf, Option.map_some]
      exact hrevised

end Session

/-! ### Ids of several scripts -/

theorem Text.length_checksum (s : Text) : (Text.checksum s).length = 8 := by
  have hdigits : (Nat.toDigits 16 (Text.crc32 (Text.encode s)).toNat).length ≤ 8 := by
    rw [Nat.length_toDigits_le_iff (by decide) (by decide)]
    exact UInt32.toNat_lt _
  unfold Text.checksum Text.hex
  simp only [List.length_append, List.length_replicate]
  omega

/-- An id tells which seed it has. -/
theorem IdSource.seed_eq_of_owns {ids ids' : IdSource} {id : Text}
    (hlength : ids.seed.length = ids'.seed.length) (h : ids.Owns id) (h' : ids'.Owns id) :
    ids.seed = ids'.seed := by
  obtain ⟨kind, n, -, hid⟩ := h
  obtain ⟨kind', n', -, hid'⟩ := h'
  exact (List.append_inj (hid.symm.trans hid') hlength).1

namespace Session

variable {σ α β : Type} [FileSystem σ]

/-- Whether an action leaves the bundle of a session. -/
def KeepsBundle (x : EStateM EditError (Desk σ) α) : Prop :=
  ∀ desk, (stateOf (x desk)).session.bundle = desk.session.bundle

namespace KeepsBundle

omit [FileSystem σ] in
theorem pure (a : α) : KeepsBundle (pure a : EStateM EditError (Desk σ) α) := fun _ => rfl

omit [FileSystem σ] in
theorem get : KeepsBundle (get : EStateM EditError (Desk σ) (Desk σ)) := fun _ => rfl

omit [FileSystem σ] in
theorem bind {x : EStateM EditError (Desk σ) α} {f : α → EStateM EditError (Desk σ) β}
    (hx : KeepsBundle x) (hf : ∀ a, KeepsBundle (f a)) : KeepsBundle (x >>= f) := by
  intro desk
  have hdesk := hx desk
  simp only [Bind.bind, EStateM.bind]
  cases hrun : x desk with
  | ok a desk' =>
    rw [hrun] at hdesk
    exact (hf a desk').trans hdesk
  | error e desk' =>
    rw [hrun] at hdesk
    exact hdesk

omit [FileSystem σ] in
theorem map {x : EStateM EditError (Desk σ) α} {f : α → β} (hx : KeepsBundle x) :
    KeepsBundle (f <$> x) :=
  hx.bind fun a => .pure (f a)

omit [FileSystem σ] in
theorem onDraft (f : Draft → Draft × Except EditError α) :
    KeepsBundle (Session.onDraft (σ := σ) f) := by
  intro desk
  unfold Session.onDraft
  split <;> rfl

omit [FileSystem σ] in
theorem onFiles (action : EStateM EditError σ α) : KeepsBundle (Session.onFiles action) := by
  intro desk
  unfold Session.onFiles
  split <;> rfl

theorem edit (description : String) (ms : List Mutation) :
    KeepsBundle (Session.edit (σ := σ) description ms) := by
  intro desk
  unfold Session.edit
  dsimp only
  split <;> rfl

theorem copy (lo hi : Nat) : KeepsBundle (Session.copy (σ := σ) lo hi) := by
  intro desk
  unfold Session.copy
  split <;> rfl

omit [FileSystem σ] in
theorem travel (f : Draft → Draft × Except EditError Bool) :
    KeepsBundle (Session.travel (σ := σ) f) :=
  onDraft _

theorem paste (pos : Nat) (payload : ClipboardPayload) :
    KeepsBundle (Session.paste (σ := σ) pos payload) := by
  unfold Session.paste
  refine .bind .get fun before => ?_
  dsimp only
  split
  · exact fun _ => rfl
  · refine .bind (.onFiles _) fun p desk => ?_
    have hedit := edit "Paste" [.insertText pos p.text] desk
    cases hrun : Session.edit "Paste" [.insertText pos p.text] desk with
    | ok a desk' =>
      rw [hrun] at hedit
      exact hedit
    | error e desk' =>
      rw [hrun] at hedit
      exact hedit

theorem save : KeepsBundle (Session.save (σ := σ)) := by
  have hmark (report : SaveReport) : KeepsBundle (do
      Session.onDraft fun d => ({ d with history := d.history.markSaved }, .ok ())
      return report : EStateM EditError (Desk σ) SaveReport) :=
    .bind (.onDraft _) fun _ => .pure _
  unfold Session.save
  refine .bind .get fun desk => .bind (.onFiles _) fun _ => ?_
  dsimp only
  split
  · exact .bind (.map (.onFiles _)) fun _ => hmark _
  · exact .bind (.pure _) fun _ => hmark _

end KeepsBundle

end Session

open Session in
/-- No operation changes the bundle. -/
theorem Operation.keepsBundle {σ : Type} [FileSystem σ] (op : Operation) :
    KeepsBundle (op.run (σ := σ)) := by
  have hdone {α : Type} {b : Bool} {x : EStateM EditError (Desk σ) α} (hx : KeepsBundle x) :
      KeepsBundle (do let _ ← x; return b) :=
    hx.bind fun _ => .pure b
  have hedit {α : Type} {a : α} (description : String) (ms : List Mutation) :
      KeepsBundle (do Session.edit description ms; return a : EStateM EditError (Desk σ) α) :=
    (KeepsBundle.edit description ms).bind fun _ => .pure a
  cases op with
  | insertText pos s => exact hedit _ _
  | removeRange lo hi => exact hedit _ _
  | replaceRange lo hi s => exact hedit _ _
  | insertCapture pos => exact hdone ((KeepsBundle.onDraft _).bind fun _ => hedit _ _)
  | updatePattern id f => exact KeepsBundle.onDraft _
  | replacePattern id p => exact hdone (KeepsBundle.onDraft _)
  | updateRegion id f => exact KeepsBundle.onDraft _
  | cut lo hi => exact hdone ((KeepsBundle.copy lo hi).bind fun _ => hedit _ _)
  | paste pos payload => exact hdone (KeepsBundle.paste pos payload)
  | receive event =>
    intro desk
    cases hresult : event.resultFor? with
    | none => cases event <;> first | rfl | cases hresult
    | some id =>
      show (stateOf (Session.receive event desk)).session.bundle = _
      rw [receive_eq hresult]
      exact KeepsBundle.onDraft _ desk
  | undo => exact KeepsBundle.travel Draft.undo
  | redo => exact KeepsBundle.travel Draft.redo
  | save => exact hdone KeepsBundle.save

/-! ### Between a capture and its result -/

section

variable {σ : Type} [FileSystem σ] {start desk desk' : Desk σ} {t : Timeline} {loaded : Bool}

/-- The desks to which a session comes from a point on, and whether a script was opened since. -/
inductive Since (start : Desk σ) : Bool → Desk σ → Prop where
  | here : Since start false start
  | operated {loaded : Bool} {desk : Desk σ} (h : Since start loaded desk) (op : Operation) :
      Since start loaded (stateOf (op.run desk))
  | switched {loaded : Bool} {desk desk' : Desk σ} {next left : Bundle}
      (h : Since start loaded desk) (hs : Session.switchBundle next desk = .ok left desk') :
      Since start true desk'
  | refused {loaded : Bool} {desk desk' : Desk σ} {next : Bundle} {e : EditError}
      (h : Since start loaded desk) (hs : Session.switchBundle next desk = .error e desk') :
      Since start loaded desk'
  | disturbed {loaded : Bool} {desk : Desk σ} (h : Since start loaded desk) (files : σ) :
      Since start loaded { desk with files }

/-- A session whose rows all have distinct ids of the present script. -/
structure InOrder {σ : Type} (desk : Desk σ) (t : Timeline) : Prop where
  tracks : Tracks desk t
  nodup : ∀ row ∈ t.rows, (idsOf row).Nodup
  seed_eq : desk.session.document.ids.seed = Text.checksum desk.session.bundle.script.text

namespace InOrder

/-- A script that was just read is in order. -/
theorem fresh {text : Text} {b : Bundle} {files : σ}
    (htracks : Tracks desk (.start desk.session.document.segments))
    (hdocument : desk.session.document = .ofText text b files) (hb : desk.session.bundle = b) :
    InOrder desk (.start desk.session.document.segments) := by
  refine ⟨htracks, fun row hrow => ?_, ?_⟩
  · rw [List.mem_singleton.1 hrow, hdocument]
    exact (Document.Distinct.ofText text b files).nodup
  · rw [hdocument, hb]
    exact (Synthesis.build_owned ..).1.seed_eq

theorem run (h : InOrder desk t) (op : Operation) :
    InOrder (stateOf (op.run desk)) (t.after op (op.run desk)) := by
  refine ⟨h.tracks.run op, h.tracks.nodup_run h.nodup op, ?_⟩
  rw [(h.tracks.grows_run op).seed_eq, op.keepsBundle desk]
  exact h.seed_eq

theorem switched (h : InOrder desk t) {next left : Bundle}
    (hs : Session.switchBundle next desk = .ok left desk') :
    InOrder desk' (.start desk'.session.document.segments) := by
  obtain ⟨text, files, hdraft, hb⟩ := Session.of_switchBundle hs
  exact fresh (h.tracks.switched hs) (congrArg Draft.document hdraft) hb

omit [FileSystem σ] in
theorem disturbed (h : InOrder desk t) (files : σ) : InOrder { desk with files } t :=
  ⟨h.tracks.stays (Draft.Stays.refl h.tracks.ready), h.nodup, h.seed_eq⟩

theorem of_visited (h : Visited desk) : ∃ t, InOrder desk t := by
  induction h with
  | @opened b options files session h =>
    obtain ⟨text, -, hsession⟩ := Mutation.ok_of_bind h
    cases hsession
    exact ⟨_, fresh (Tracks.opened h) rfl rfl⟩
  | operated _ op ih =>
    obtain ⟨t, horder⟩ := ih
    exact ⟨_, horder.run op⟩
  | @switched desk _ next ih =>
    obtain ⟨t, horder⟩ := ih
    cases hs : Session.switchBundle next desk with
    | error e desk' =>
      rw [Session.switchBundle_refused hs]
      exact ⟨t, horder⟩
    | ok left desk' => exact ⟨_, horder.switched hs⟩
  | disturbed _ files ih =>
    obtain ⟨t, horder⟩ := ih
    exact ⟨t, horder.disturbed files⟩

omit [FileSystem σ] in
theorem sound (h : InOrder desk t) : desk.session.document.Sound :=
  ⟨h.tracks.ready.normal, h.tracks.ready.owned⟩

omit [FileSystem σ] in
theorem distinct (h : InOrder desk t) : (idsOf desk.session.document.segments).Nodup := by
  rw [h.tracks.present_eq]
  exact h.nodup _ (List.mem_append_right _ (List.mem_cons_self ..))

omit [FileSystem σ] in
theorem owns (h : InOrder desk t) {id : Text} {p : Pattern}
    (hp : desk.session.document.pattern? id = some p) : desk.session.document.ids.Owns id :=
  h.sound.owned id (Mutation.id_mem_of_findPattern (Document.findPattern_of_pattern? hp)).2

end InOrder

namespace Since

theorem visited (hs : Since start loaded desk) (h : Visited start) : Visited desk := by
  induction hs with
  | here => exact h
  | operated _ op ih => exact ih.operated op
  | @switched _ _ _ next _ _ hs ih =>
    have hnext := ih.switched next
    rw [hs] at hnext
    exact hnext
  | refused _ hs ih =>
    rw [Session.switchBundle_refused hs]
    exact ih
  | disturbed _ files ih => exact ih.disturbed files

/-- As long as no script is opened, one source hands out all ids. -/
theorem grows (hs : Since start loaded desk) (h : Visited start) (hloaded : loaded = false) :
    start.session.document.ids.Grows desk.session.document.ids := by
  induction hs with
  | here => exact .refl _
  | operated hs op ih =>
    obtain ⟨t, horder⟩ := InOrder.of_visited (hs.visited h)
    exact (ih hloaded).trans (horder.tracks.grows_run op)
  | switched _ hs ih => cases hloaded
  | refused _ hs ih =>
    rw [Session.switchBundle_refused hs]
    exact ih hloaded
  | disturbed _ files ih => exact ih hloaded

end Since

/-- Whether a result changes at most the pattern it is for: the one that has its id, as long as no
other script was opened, and nothing at all where there is none. -/
structure ReachesOwn (loaded : Bool) (id : Text) (d d' : Document) : Prop where
  own : d' = d ∨ ∃ p q, q.id = id ∧ d.Revised id p q d'
  gone : loaded = true ∨ d.pattern? id = none → d' = d

/-- What a result does that arrives for a pattern of an earlier desk. -/
structure ResultOutcome (start desk : Desk σ) (loaded : Bool) (id : Text) (event : WorkerEvent) :
    Prop where
  reaches_iff : ReachesOwn loaded id desk.session.document
      (stateOf (Session.receive event desk)).session.document
    ↔ loaded = false ∨ ∀ p, desk.session.document.pattern? id = some p →
      (event.revise desk.session.bundle p).2 = p
  /-- As long as no script was opened, no widget shares the id, and none will. -/
  same_widget : loaded = false → (idsOf desk.session.document.segments).Nodup
    ∧ ∀ ids, desk.session.document.ids.Grows ids → ∀ kind, (ids.next kind).1 ≠ id
  /-- Up to its greatest number, a counter of 32 bits does not hand the id out again either. -/
  narrow : loaded = false → ∀ ids, desk.session.document.ids.Grows ids →
    ids.issued + 1 < UInt32.size → ∀ kind, ids.narrowNext kind ≠ id
  /-- A script whose path has another checksum does not have the id. -/
  other_path : Text.checksum desk.session.bundle.script.text
      ≠ Text.checksum start.session.bundle.script.text →
    desk.session.document.pattern? id = none

/-- The result of a capture reaches its own pattern alone, unless a script was opened since the
capture was scheduled and one of its patterns has the same id and is changed in its place. -/
theorem capture_result_reaches_own (h : Visited start) {id : Text} {p : Pattern}
    (hp : start.session.document.pattern? id = some p) (hs : Since start loaded desk)
    {event : WorkerEvent} (hresult : event.resultFor? = some id) :
    ResultOutcome start desk loaded id event := by
  obtain ⟨t, horder⟩ := InOrder.of_visited h
  obtain ⟨t', horder'⟩ := InOrder.of_visited (hs.visited h)
  have hnever : loaded = false → ∀ ids, desk.session.document.ids.Grows ids →
      ∀ kind, (ids.next kind).1 ≠ id := by
    -- The id was handed out before, and every later source has grown from that of the start.
    intro hloaded ids hgrows kind hnext
    have howned := ((horder.owns hp).grow (hs.grows h hloaded)).grow hgrows
    exact ids.not_owns_next kind (hnext ▸ howned)
  refine ⟨?_, fun hloaded => ⟨horder'.distinct, hnever hloaded⟩, ?_, fun hpath => ?_⟩
  · rcases Session.receive_outcome desk hresult with
      ⟨hsame, hkept⟩ | ⟨q, hq, hother, hrevised⟩
    · rw [hsame]
      exact ⟨fun _ => Or.inr hkept, fun _ => ⟨Or.inl rfl, fun _ => rfl⟩⟩
    · obtain ⟨before, after, hfirst, hrow⟩ := hrevised.segments
      have hchanged : (stateOf (Session.receive event desk)).session.document
          ≠ desk.session.document := by
        intro heq
        rw [heq, hfirst.row_eq] at hrow
        have htail := List.append_cancel_left hrow
        exact hother.ne (Segment.pattern.inj (List.cons.inj htail).1).symm
      constructor
      · intro hreaches
        left
        by_contra hloaded
        exact hchanged (hreaches.gone (Or.inl (by simpa using hloaded)))
      · intro hreaches
        rcases hreaches with rfl | hkept
        · refine ⟨Or.inr ⟨q, _, ?_, hrevised⟩, ?_⟩
          · rw [(event.isHonest_revise _).keepsId q]
            exact Option.some.inj hfirst.id_eq
          · simp [hq]
        · exact absurd (hkept q hq) hother.ne
  · intro hloaded ids hgrows hbound kind
    rw [ids.narrowNext_eq kind hbound]
    exact hnever hloaded ids hgrows kind
  · by_contra hpattern
    obtain ⟨q, hq⟩ := Option.ne_none_iff_exists'.1 hpattern
    refine hpath ?_
    rw [← horder.seed_eq, ← horder'.seed_eq]
    refine IdSource.seed_eq_of_owns ?_ (horder'.owns hq) (horder.owns hp)
    rw [horder.seed_eq, horder'.seed_eq, Text.length_checksum, Text.length_checksum]

/-- A script is opened again while a capture runs, and then another capture is asked for. -/
theorem capture_result_reaches_reopened :
    let b := Bundle.ofScript (.ofString "/w/s.py")
    let id := ((IdSource.ofScript b.script.text).next .pattern).1
    ∃ (session : Session) (start desk : Desk Store) (p : Pattern),
      Session.load b .default Store.empty = .ok session
        ∧ start = stateOf ((Operation.insertCapture 0).run ⟨session, Store.empty⟩)
        ∧ desk = stateOf ((Operation.insertCapture 0).run (stateOf (Session.switchBundle b start)))
        ∧ start.session.document.pattern? id = some p
        ∧ ¬ ReachesOwn true id desk.session.document
          (stateOf (Session.receive (.captureFailed id []) desk)).session.document := by
  intro b id
  obtain ⟨session, hload⟩ : ∃ session, Session.load b .default Store.empty = .ok session :=
    ⟨_, rfl⟩
  let start := stateOf ((Operation.insertCapture 0).run (⟨session, Store.empty⟩ : Desk Store))
  let reopened := stateOf (Session.switchBundle b start)
  let desk := stateOf ((Operation.insertCapture 0).run reopened)
  cases hload
  obtain ⟨p, hp, -⟩ := Option.map_eq_some_iff.1
    (show (start.session.document.pattern? id).map Pattern.state = some .pendingCapture by
      decide +kernel)
  obtain ⟨p', hp', hstate⟩ := Option.map_eq_some_iff.1
    (show (desk.session.document.pattern? id).map Pattern.state = some .pendingCapture by
      decide +kernel)
  have htext : Session.scriptText b start.files = .ok [] := by decide +kernel
  have hswitch : Session.switchBundle b start = .ok start.session.bundle reopened := by
    simp only [reopened, Session.switchBundle, Bundle.activate, htext, stateOf]
  have hvisited : Visited start := .operated (.opened rfl) _
  have hsince : Since start true desk := (Since.here.switched hswitch).operated _
  refine ⟨_, start, desk, p, rfl, rfl, rfl, hp, fun hreaches => ?_⟩
  have hresult : (WorkerEvent.captureFailed id []).resultFor? = some id := rfl
  have houtcome := capture_result_reaches_own hvisited hp hsince hresult
  rcases houtcome.reaches_iff.1 hreaches with hloaded | hkept
  · cases hloaded
  · have hkept' := congrArg Pattern.state (hkept p' hp')
    simp [WorkerEvent.revise, Pattern.setState, hstate] at hkept'

end

end ImageScript
