import ImageScript.Proofs.Bundle.Placement
import ImageScript.Proofs.Edit.Timeline

/-!
# Refused edits

An edit that is refused leaves everything as it was, wherever it fails: at its first or at a later
mutation, while images are put into the bundle, or behind that. The only trace is an id that was
taken for a widget that is not there.

Main statements: `Session.edit_refused`, `Session.paste_refused`, `refused_untouched`.
-/

namespace ImageScript

section

variable {σ : Type} [FileSystem σ]

/-- The states that a session can come to: by operations, by changing the bundle, and by what others
do to the files meanwhile. -/
inductive Visited : Desk σ → Prop where
  | opened {b : Bundle} {options : EditorOptions} {files : σ} {session : Session}
      (h : Session.load b options files = .ok session) : Visited ⟨session, files⟩
  | operated {desk : Desk σ} (h : Visited desk) (op : Operation) :
      Visited (stateOf (op.run desk))
  | switched {desk : Desk σ} (h : Visited desk) (next : Bundle) :
      Visited (stateOf (Session.switchBundle next desk))
  | disturbed {desk : Desk σ} (h : Visited desk) (files : σ) : Visited { desk with files }

/-- The commands that change the text of a script or the bundle. -/
inductive EditCommand where
  | insertText (pos : Nat) (text : Text)
  | removeRange (lo hi : Nat)
  | replaceRange (lo hi : Nat) (text : Text)
  | insertCapture (pos : Nat)
  | cut (lo hi : Nat)
  | paste (pos : Nat) (payload : ClipboardPayload)
  | switchBundle (next : Bundle)

/-- Carries out a command. -/
def EditCommand.run : EditCommand → EStateM EditError (Desk σ) Unit
  | insertText pos s => Session.insertText pos s
  | removeRange lo hi => Session.removeRange lo hi
  | replaceRange lo hi s => Session.replaceRange lo hi s
  | insertCapture pos => discard (Session.insertCapture pos)
  | cut lo hi => discard (Session.cut lo hi)
  | paste pos payload => discard (Session.paste pos payload)
  | switchBundle next => discard (Session.switchBundle next)

end

/-! ### Between two commands -/

namespace Session

variable {σ : Type} [FileSystem σ] {desk desk' : Desk σ} {next left : Bundle}

/-- A bundle whose script cannot be read is not made active. -/
theorem switchBundle_refused {e : EditError} (h : switchBundle next desk = .error e desk') :
    desk' = desk := by
  unfold switchBundle at h
  split at h
  · exact (EStateM.Result.error.inj h).2.symm
  · cases h

/-- A bundle that was made active has its script just read, and no history. -/
theorem of_switchBundle (h : switchBundle next desk = .ok left desk') :
    ∃ (text : Text) (files : σ),
      desk'.session.draft = ⟨.ofText text next files, desk.session.draft.history.clear⟩
        ∧ desk'.session.bundle = next := by
  unfold switchBundle at h
  split at h
  · cases h
  · next text _ =>
    obtain ⟨-, rfl⟩ := EStateM.Result.ok.inj h
    exact ⟨text, _, rfl, rfl⟩

end Session

namespace Tracks

variable {σ : Type} [FileSystem σ] {desk : Desk σ} {t : Timeline}

/-- A document that was just read has no past. -/
theorem fresh (s : Text) (b : Bundle) (fs : σ) {desk : Desk σ}
    (h : desk.session.draft = ⟨.ofText s b fs, .new Session.undoLevels⟩) :
    Tracks desk (.start desk.session.document.segments) := by
  have hdocument : desk.session.document = .ofText s b fs := by
    unfold Session.document
    rw [h]
  refine ⟨?_, ?_, rfl, ?_, ?_, Nat.zero_le _, by simp [Timeline.start], by simp [Timeline.start]⟩
  · rw [h]
    exact ⟨Synthesis.isNormal_build .., rfl, (Synthesis.build_owned ..).2, rfl⟩
  · rw [h]
    rfl
  · rw [h]
    exact .nil _
  · rw [h]
    exact .nil _

/-- A bundle is made active with its script just read. -/
theorem switched (h : Tracks desk t) {next left : Bundle} {desk' : Desk σ}
    (hs : Session.switchBundle next desk = .ok left desk') :
    Tracks desk' (.start desk'.session.document.segments) := by
  obtain ⟨text, files, hdraft, -⟩ := Session.of_switchBundle hs
  refine fresh text next files (hdraft.trans ?_)
  unfold History.clear
  rw [h.levels]

theorem exists_of_visited (h : Visited desk) : ∃ t, Tracks desk t := by
  induction h with
  | opened h => exact ⟨_, opened h⟩
  | operated _ op ih =>
    obtain ⟨t, htracks⟩ := ih
    exact ⟨_, htracks.run op⟩
  | @switched desk _ next ih =>
    obtain ⟨t, htracks⟩ := ih
    cases hs : Session.switchBundle next desk with
    | error e desk' =>
      rw [Session.switchBundle_refused hs]
      exact ⟨t, htracks⟩
    | ok left desk' => exact ⟨_, htracks.switched hs⟩
  | disturbed _ files ih =>
    rename_i desk _
    obtain ⟨t, htracks⟩ := ih
    have hstays : desk.session.draft.Stays ({ desk with files } : Desk σ).session.draft :=
      Draft.Stays.refl htracks.ready
    exact ⟨t, htracks.stays hstays⟩

end Tracks

/-! ### What a refused command leaves -/

/-- Whether a desk is as it was, up to ids taken in advance and the inner form of the store. -/
structure Untouched (desk desk' : Desk Store) : Prop where
  segments_eq : desk'.session.document.segments = desk.session.document.segments
  history_eq : desk'.session.draft.history = desk.session.draft.history
  modified_eq : desk'.session.isModified = desk.session.isModified
  bundle_eq : desk'.session.bundle = desk.session.bundle
  options_eq : desk'.session.options = desk.session.options
  files : desk.files.Same desk'.files

theorem Untouched.refl (desk : Desk Store) : Untouched desk desk :=
  ⟨rfl, rfl, rfl, rfl, rfl, .refl _⟩

namespace Session

variable {desk desk' : Desk Store} {e : EditError}

/-- What a refused step leaves, where its mutations can be taken back. -/
theorem edit_refused (hd : desk.session.draft.Ready) {description : String} {ms : List Mutation}
    (hne : ms ≠ []) (hi : Mutation.AreInvertible ms desk.session.document)
    (hnew : ∀ m ∈ ms, ∀ id ∈ m.newIds, desk.session.document.ids.Owns id)
    (h : edit description ms desk = .error e desk') :
    Untouched desk desk' ∧ desk'.files = desk.files := by
  have hedit := Draft.edit_edited hd description.toList hne hi hnew desk.session.bundle desk.files
  unfold edit at h
  dsimp only at h
  cases hr : desk.session.draft.edit description.toList ms desk.session.bundle desk.files with
  | mk draft error =>
    rw [hr] at hedit h
    cases error with
    | none => simp at h
    | some err =>
      obtain ⟨hhistory, hsegments⟩ := hedit.kept (by simp)
      obtain ⟨-, rfl⟩ := EStateM.Result.error.inj h
      refine ⟨⟨hsegments, hhistory, ?_, rfl, rfl, .refl _⟩, rfl⟩
      unfold isModified
      rw [hhistory]

/-- An insertion of no text is refused behind the end only. -/
theorem edit_insertText_refused (hd : desk.session.draft.Ready) {description : String} {pos : Nat}
    {s : Text} (h : edit description [.insertText pos s] desk = .error e desk') :
    Untouched desk desk' ∧ desk'.files = desk.files := by
  by_cases hblind : s = [] ∧ pos ≤ Segment.totalLen desk.session.document.segments
  · obtain ⟨rfl, hpos⟩ := hblind
    unfold edit at h
    dsimp only at h
    rw [Draft.edit_blind hd description.toList hpos] at h
    simp at h
  · refine edit_refused hd (by simp) (Mutation.areInvertible_insertText ?_)
      (by simp [Mutation.newIds]) h
    by_cases hs : s = []
    · exact Or.inr (Or.inl (Nat.lt_of_not_le fun hpos => hblind ⟨hs, hpos⟩))
    · exact Or.inl hs

theorem edit_removeRange_refused (hd : desk.session.draft.Ready) {description : String}
    {lo hi : Nat} (h : edit description [.removeRange lo hi] desk = .error e desk') :
    Untouched desk desk' :=
  (edit_refused hd (by simp) (Mutation.areInvertible_removeRange lo hi _)
    (by simp [Mutation.newIds]) h).1

theorem replaceRange_refused (hd : desk.session.draft.Ready) {lo hi : Nat} {s : Text}
    (h : replaceRange lo hi s desk = .error e desk') : Untouched desk desk' :=
  (edit_refused hd (by simp) (Mutation.areInvertible_replaceRange hd.normal)
    (by simp [Mutation.newIds]) h).1

theorem insertCapture_refused (hd : desk.session.draft.Ready) {pos : Nat}
    (h : insertCapture pos desk = .error e desk') : Untouched desk desk' := by
  have hready := Draft.ready_of_ids hd (IdSource.grows_next desk.session.document.ids .pattern)
  rw [insertCapture_eq] at h
  simp only [bind, EStateM.bind] at h
  split at h
  · cases h
  · next hedit =>
    obtain ⟨rfl, rfl⟩ := EStateM.Result.error.inj h
    obtain ⟨huntouched, -⟩ := edit_refused hready (by simp)
      (Mutation.areInvertible_insertSegments _ (by simp)) (owned_of_insertCapture pos _) hedit
    exact ⟨huntouched.segments_eq, huntouched.history_eq, huntouched.modified_eq,
      huntouched.bundle_eq, huntouched.options_eq, huntouched.files⟩

/-- A cut that is refused never copied anything but to the clipboard. -/
theorem cut_refused (hd : desk.session.draft.Ready) {lo hi : Nat}
    (h : cut lo hi desk = .error e desk') : Untouched desk desk' := by
  unfold cut copy at h
  simp only [bind, EStateM.bind] at h
  cases hcopy : Clipboard.copy desk.session.document lo hi desk.session.bundle desk.files with
  | error err =>
    simp only [hcopy] at h
    obtain ⟨-, rfl⟩ := EStateM.Result.error.inj h
    exact .refl desk
  | ok payload =>
    simp only [hcopy] at h
    cases hedit : edit "Cut" [.removeRange lo hi] desk with
    | ok a mid =>
      rw [hedit] at h
      cases h
    | error err mid =>
      rw [hedit] at h
      obtain ⟨-, rfl⟩ := EStateM.Result.error.inj h
      exact edit_removeRange_refused hd hedit

/-- The images of a paste that is refused are taken back. -/
theorem paste_refused (hd : desk.session.draft.Ready) {pos : Nat} {payload : ClipboardPayload}
    (h : paste pos payload desk = .error e desk') : Untouched desk desk' := by
  have hends := paste_ends pos payload desk
  rw [h] at hends
  cases hends with
  | outside => exact .refl desk
  | unprepared prepared =>
    rcases Clipboard.prepare_spec payload desk.session.bundle desk.files with
      ⟨p, files, hprepare, -⟩ | ⟨err, files, hprepare, hsame⟩
    · cases prepared.symm.trans hprepare
    · cases prepared.symm.trans hprepare
      exact ⟨rfl, rfl, rfl, rfl, rfl, hsame⟩
  | @refused p files e mid prepared edited =>
    rcases Clipboard.prepare_spec payload desk.session.bundle desk.files with
      ⟨p, files, hprepare, hcopies⟩ | ⟨err, files, hprepare, -⟩
    · cases prepared.symm.trans hprepare
      have hd' : ({ desk with files } : Desk Store).session.draft.Ready := hd
      obtain ⟨huntouched, hmid⟩ := edit_insertText_refused hd' edited
      refine ⟨huntouched.segments_eq, huntouched.history_eq, huntouched.modified_eq,
        huntouched.bundle_eq, huntouched.options_eq, ?_⟩
      rw [hmid]
      exact hcopies.rollback
    · cases prepared.symm.trans hprepare

end Session

/-- What is thrown away of a result does not change whether there is one. -/
theorem of_discard {ε σ α : Type} {x : EStateM ε σ α} {s s' : σ} {e : ε}
    (h : discard x s = .error e s') : x s = .error e s' := by
  simp only [discard, Functor.mapConst, Function.comp, EStateM.map] at h
  cases hx : x s with
  | ok a s'' =>
    rw [hx] at h
    cases h
  | error e' s'' =>
    rw [hx] at h
    obtain ⟨rfl, rfl⟩ := EStateM.Result.error.inj h
    rfl

/-- A command that is refused leaves the segments, the history, the bundle and the files alone. -/
theorem refused_untouched {desk desk' : Desk Store} {c : EditCommand} {e : EditError}
    (h : Visited desk) (hrun : c.run desk = .error e desk') : Untouched desk desk' := by
  obtain ⟨t, htracks⟩ := Tracks.exists_of_visited h
  have hd := htracks.ready
  cases c with
  | insertText pos s => exact (Session.edit_insertText_refused hd hrun).1
  | removeRange lo hi => exact Session.edit_removeRange_refused hd hrun
  | replaceRange lo hi s => exact Session.replaceRange_refused hd hrun
  | insertCapture pos => exact Session.insertCapture_refused hd (of_discard hrun)
  | cut lo hi => exact Session.cut_refused hd (of_discard hrun)
  | paste pos payload => exact Session.paste_refused hd (of_discard hrun)
  | switchBundle next =>
    rw [Session.switchBundle_refused (of_discard hrun)]
    exact .refl desk

/-- A paste inside a character, refused behind the copy of its image. -/
theorem refused_untouched_paste :
    let fs := (Store.empty.addFile (.ofString "/w/s.py") (Text.encode "é".toList)).addFile
      (.ofString "/x/a.png") [1]
    let b := Bundle.ofScript (.ofString "/w/s.py")
    let payload : ClipboardPayload :=
      ⟨"\"a.png\"".toList, .ofList [("a.png".toList, Path.ofString "/x/a.png")]⟩
    ∃ session e desk', Session.load b .default fs = .ok session
      ∧ (stateOf (Clipboard.prepare payload b fs)).contents? (.ofString "/w/a.png") = some [1]
      ∧ (EditCommand.paste 1 payload).run ⟨session, fs⟩ = .error e desk'
      ∧ desk'.files.contents? (.ofString "/w/a.png") = none ∧ Untouched ⟨session, fs⟩ desk' := by
  intro fs b payload
  let session : Session := ⟨b, ⟨.ofText "é".toList b fs, .new Session.undoLevels⟩, .default⟩
  have hload : Session.load b .default fs = .ok session := by
    have htext : Session.scriptText b fs = .ok "é".toList := by decide +kernel
    simp only [Session.load, htext]
    rfl
  have hcopied : (stateOf (Clipboard.prepare payload b fs)).contents? (.ofString "/w/a.png")
      = some [1] := by
    decide +kernel
  have hrefused : (match (EditCommand.paste 1 payload).run ⟨session, fs⟩ with
      | .ok _ _ => false
      | .error _ desk' => (desk'.files.contents? (.ofString "/w/a.png")).isNone) = true := by
    decide +kernel
  cases hrun : (EditCommand.paste 1 payload).run ⟨session, fs⟩ with
  | ok a desk' =>
    rw [hrun] at hrefused
    simp at hrefused
  | error e desk' =>
    rw [hrun] at hrefused
    exact ⟨session, e, desk', hload, hcopied, hrun, Option.isNone_iff_eq_none.1 hrefused,
      refused_untouched (.opened hload) hrun⟩

end ImageScript
