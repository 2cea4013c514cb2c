import ImageScript.Worker.Rehearsal

/-!
# Runs of the tasks

All that can happen to the tasks, in any order: the calls of the editor, and the steps of the tasks
beside it. To receive is one turn of the editor at the queue, of which a poll makes many and a wait
makes as many as there are stale events, and tasks may report in between.

Main statements: `CaptureStep.run_spec`, `Rehearsal.reached_wait`, `Rehearsal.reached_drain`.
-/

namespace ImageScript

/-- What the editor does with the handle of a capture, and what its task does. -/
inductive CaptureStep where
  | cancel
  | release
  | passDelay
  | start
  | follow
  | finish (answer : CaptureAnswer)
deriving DecidableEq

/-- All that can happen. -/
inductive Happening where
  | schedule (patternId : Text) (target : Path)
  | capture (handle : Nat) (step : CaptureStep)
  | startPreview (patternId : Text) (image : Path) (similarity : Float) (limit : Nat)
  | closePreview
  | endSearch (n : Nat) (found : Except Text (List ScreenMatch))
  | receive
  | receiveAll

/-- One step for the capture of a handle. -/
def CaptureStep.run (handle : Nat) : CaptureStep → Workers → Workers
  | cancel, w => (w.cancel? handle).2
  | release, w => (w.release handle).2
  | passDelay, w => w.passDelay handle
  | start, w => w.beginCapture handle
  | follow, w => w.acceptCancel handle
  | finish answer, w => w.endCapture handle answer

namespace Happening

def next (w : Workers) : Happening → Workers
  | schedule patternId target => (w.schedule patternId target).2
  | capture handle step => step.run handle w
  | startPreview patternId image similarity limit =>
    (w.startPreview patternId image similarity limit).2
  | closePreview => w.closePreview
  | endSearch n found => w.endSearch n found
  | receive => w.receive.2
  | receiveAll => w.receiveAll.2

/-- The events that the editor gets. -/
def delivers (w : Workers) : Happening → List WorkerEvent
  | receive => w.receive.1.toList
  | receiveAll => w.receiveAll.1
  | _ => []

end Happening

/-- The tasks behind all that has happened, the latest first. -/
def Workers.after : List Happening → Workers
  | [] => .idle
  | h :: past => h.next (after past)

namespace CaptureTask

/-- Whether a step does not apply to a capture. -/
def Ignores (t : CaptureTask) : CaptureStep → Prop
  | .cancel | .release => t.held = false
  | .passDelay => t.isWaiting = false
  | .start => ∀ asked, t.phase ≠ .waiting true asked
  | .follow => ∀ timeUp, t.phase ≠ .waiting timeUp true
  | .finish _ => t.phase ≠ .capturing

/-- How a step changes a capture, with what the capture reports and where the screen goes. -/
inductive Moves (t : CaptureTask) : CaptureStep → CaptureTask → List WorkerEvent → List Path → Prop
  where
  | cancel {timeUp asked : Bool} (hheld : t.held = true) (hphase : t.phase = .waiting timeUp asked) :
      Moves t .cancel { t with phase := .waiting timeUp true, held := false } [] []
  | cancelLate (hheld : t.held = true) (hphase : t.isWaiting = false) :
      Moves t .cancel { t with held := false } [] []
  | release (hheld : t.held = true) : Moves t .release { t with held := false } [] []
  | passDelay {timeUp asked : Bool} (hphase : t.phase = .waiting timeUp asked) :
      Moves t .passDelay { t with phase := .waiting true asked } [] []
  | start {asked : Bool} (hphase : t.phase = .waiting true asked) :
      Moves t .start { t with phase := .capturing } [] [t.target]
  | follow {timeUp : Bool} (hphase : t.phase = .waiting timeUp true) :
      Moves t .follow { t with phase := .finished } [.captureCancelled t.patternId] []
  | finish {answer : CaptureAnswer} (hphase : t.phase = .capturing) :
      Moves t (.finish answer) { t with phase := .finished } [t.event answer] []
  | stay {step : CaptureStep} (hignores : t.Ignores step) : Moves t step t [] []

variable {t : CaptureTask}

theorem isWaiting_eq_false :
    t.isWaiting = false ↔ ∀ timeUp asked, t.phase ≠ .waiting timeUp asked := by
  unfold isWaiting
  cases t.phase <;> simp

end CaptureTask

namespace Workers

/-- Whether a step changes at most the capture of one handle, and lets that report. -/
inductive Moved (handle : Nat) (step : CaptureStep) (w : Workers) : Workers → Prop where
  | absent (habsent : w.captures[handle]? = none) : Moved handle step w w
  | moved {t t' : CaptureTask} {es : List WorkerEvent} {ps : List Path}
      (hpresent : w.captures[handle]? = some t) (hmoves : t.Moves step t' es ps) :
      Moved handle step w
        { w with
          captures := w.captures.set handle t'
          queue := w.queue ++ es
          captured := w.captured ++ ps }

variable {w w' : Workers} {handle : Nat} {t t' : CaptureTask} {step : CaptureStep}

theorem Moved.of_eq {es : List WorkerEvent} {ps : List Path}
    (hpresent : w.captures[handle]? = some t) (hmoves : t.Moves step t' es ps)
    (hw' : w' = { w.setCapture handle t' with
      queue := w.queue ++ es, captured := w.captured ++ ps }) : w.Moved handle step w' :=
  hw' ▸ .moved hpresent hmoves

theorem setCapture_self (hpresent : w.captures[handle]? = some t) : w.setCapture handle t = w := by
  obtain ⟨hlt, rfl⟩ := List.getElem?_eq_some_iff.1 hpresent
  unfold setCapture
  rw [List.set_getElem_self]

/-- A step that does not apply changes nothing. -/
theorem Moved.stay (hignores : ∀ t, w.captures[handle]? = some t → t.Ignores step) :
    w.Moved handle step w := by
  cases hpresent : w.captures[handle]? with
  | none => exact .absent hpresent
  | some t =>
    refine .of_eq hpresent (.stay (hignores t hpresent)) ?_
    rw [setCapture_self hpresent, List.append_nil, List.append_nil]

theorem held?_eq_some : w.held? handle = some t ↔ w.captures[handle]? = some t ∧ t.held = true :=
  Option.filter_eq_some_iff

theorem held_eq_false_of_held? (h : w.held? handle = none) :
    ∀ t, w.captures[handle]? = some t → t.held = false := by
  intro t hpresent
  have hheld := Option.filter_eq_none_iff.1 h t hpresent
  exact Bool.not_eq_true _ ▸ hheld

/-! ### The steps -/

theorem moved_cancel (handle : Nat) (w : Workers) :
    w.Moved handle .cancel (w.cancel? handle).2 := by
  unfold cancel?
  split
  · next hnone => exact .stay (held_eq_false_of_held? hnone)
  · next t ht =>
    obtain ⟨hpresent, hheld⟩ := held?_eq_some.1 ht
    split
    · next hphase => exact .of_eq hpresent (.cancel hheld hphase) (by simp [setCapture])
    · next hphase =>
      exact .of_eq hpresent (.cancelLate hheld (CaptureTask.isWaiting_eq_false.2 hphase))
        (by simp [setCapture])

theorem moved_release (handle : Nat) (w : Workers) :
    w.Moved handle .release (w.release handle).2 := by
  unfold release
  split
  · next hnone => exact .stay (held_eq_false_of_held? hnone)
  · next t ht =>
    obtain ⟨hpresent, hheld⟩ := held?_eq_some.1 ht
    exact .of_eq hpresent (.release hheld) (by simp [setCapture])

/-- A step of a task changes it where its phase allows, and does nothing otherwise. -/
theorem moved_task {change : CaptureTask → Workers} (handle : Nat)
    (hchange : ∀ t, w.captures[handle]? = some t →
      t.Ignores step ∧ change t = w ∨ ∃ t' es ps, t.Moves step t' es ps
        ∧ change t = { w.setCapture handle t' with
            queue := w.queue ++ es, captured := w.captured ++ ps }) :
    w.Moved handle step (match w.captures[handle]? with
      | some t => change t
      | none => w) := by
  cases hpresent : w.captures[handle]? with
  | none => exact .absent hpresent
  | some t =>
    rcases hchange t hpresent with ⟨hignores, heq⟩ | ⟨t', es, ps, hmoves, heq⟩
    · dsimp only
      rw [heq]
      refine .stay fun u hu => ?_
      rwa [← Option.some.inj (hpresent.symm.trans hu)]
    · exact .of_eq hpresent hmoves heq

theorem moved_passDelay (handle : Nat) (w : Workers) :
    w.Moved handle .passDelay (w.passDelay handle) := by
  refine moved_task handle fun t _ => ?_
  split
  · next hphase => exact Or.inr ⟨_, _, _, .passDelay hphase, by simp [setCapture]⟩
  · next hphase => exact Or.inl ⟨CaptureTask.isWaiting_eq_false.2 hphase, rfl⟩

theorem moved_beginCapture (handle : Nat) (w : Workers) :
    w.Moved handle .start (w.beginCapture handle) := by
  refine moved_task handle fun t _ => ?_
  split
  · next hphase => exact Or.inr ⟨_, _, _, .start hphase, by simp [setCapture]⟩
  · next hphase => exact Or.inl ⟨hphase, rfl⟩

theorem moved_acceptCancel (handle : Nat) (w : Workers) :
    w.Moved handle .follow (w.acceptCancel handle) := by
  refine moved_task handle fun t _ => ?_
  split
  · next hphase => exact Or.inr ⟨_, _, _, .follow hphase, by simp [setCapture]⟩
  · next hphase => exact Or.inl ⟨hphase, rfl⟩

theorem moved_endCapture (handle : Nat) (answer : CaptureAnswer) (w : Workers) :
    w.Moved handle (.finish answer) (w.endCapture handle answer) := by
  refine moved_task handle fun t _ => ?_
  split
  · next hphase => exact Or.inr ⟨_, _, _, .finish hphase, by simp [setCapture]⟩
  · next hphase => exact Or.inl ⟨hphase, rfl⟩

end Workers

/-- All that a step can do to the tasks. -/
theorem CaptureStep.run_spec (handle : Nat) (step : CaptureStep) (w : Workers) :
    w.Moved handle step (step.run handle w) := by
  cases step with
  | cancel => exact w.moved_cancel handle
  | release => exact w.moved_release handle
  | passDelay => exact w.moved_passDelay handle
  | start => exact w.moved_beginCapture handle
  | follow => exact w.moved_acceptCancel handle
  | finish answer => exact w.moved_endCapture handle answer

/-! ### Rehearsals are runs -/

namespace Workers

/-- Whether a run leads to tasks. -/
def Reached (w : Workers) : Prop := ∃ past, after past = w

theorem Reached.next (hw : w.Reached) (h : Happening) : (h.next w).Reached := by
  obtain ⟨past, rfl⟩ := hw
  exact ⟨h :: past, rfl⟩

theorem Reached.foldl {α : Type} {f : Workers → α → Workers} (hw : w.Reached)
    (hf : ∀ w a, w.Reached → (f w a).Reached) (as : List α) : (as.foldl f w).Reached := by
  induction as generalizing w with
  | nil => exact hw
  | cons a as ih => exact ih (hf w a hw)

end Workers

namespace Rehearsal

variable {r : Rehearsal}

theorem reached_start (answers : List CaptureAnswer) (places : Except Text Int) :
    (start answers places).workers.Reached :=
  ⟨[], rfl⟩

theorem reached_schedule (hr : r.workers.Reached) (patternId : Text) (target : Path) (delay : Nat) :
    (schedule patternId target delay r).2.workers.Reached :=
  hr.next (.schedule patternId target)

theorem reached_advance (hr : r.workers.Reached) (time : Nat) :
    (r.advance time).workers.Reached := by
  have hcancels : r.followCancels.workers.Reached :=
    hr.foldl (fun _ n hw => hw.next (.capture n .follow)) _
  have hsearches : r.followCancels.endSearches.workers.Reached :=
    hcancels.foldl (fun _ t hw => hw.next (.endSearch 0 (r.followCancels.found t))) _
  have hcapture : ∀ (r : Rehearsal) (n : Nat), r.workers.Reached →
      (r.runCapture n).workers.Reached := by
    intro r n hr
    unfold runCapture
    split
    · exact ((hr.next (.capture n .passDelay)).next (.capture n .start)).next (.capture n (.finish _))
    · exact hr
  have hdue : ∀ (due : List (Nat × Nat)) (r : Rehearsal), r.workers.Reached →
      (due.foldl (fun r d => r.runCapture d.2) r).workers.Reached := by
    intro due
    induction due with
    | nil => exact fun r hr => hr
    | cons d due ih => exact fun r hr => ih _ (hcapture r d.2 hr)
  exact hdue _ _ hsearches

/-- Waiting for an event leads along a run of the tasks. -/
theorem reached_wait (hr : r.workers.Reached) (timeout : Nat) :
    (wait timeout r).2.workers.Reached := by
  have huntil : ∀ (steps deadline : Nat) (r : Rehearsal), r.workers.Reached →
      (waitUntil timeout steps deadline r).2.workers.Reached := by
    intro steps
    induction steps with
    | zero => exact fun _ r hr => hr
    | succ steps ih =>
      intro deadline r hr
      unfold waitUntil
      split
      · split
        · split
          · exact ih _ _ (reached_advance hr _)
          · exact hr
        · exact hr
      · have hreceived : (call Workers.receive r).2.workers.Reached := hr.next .receive
        cases hcall : call Workers.receive r with
        | mk e r' =>
          rw [hcall] at hreceived
          cases e with
          | some e => exact hreceived
          | none => exact ih _ _ hreceived
  exact huntil _ _ r hr

/-- Collecting events leads along a run of the tasks. -/
theorem reached_drain (hr : r.workers.Reached) (count : Nat) :
    (drain count r).2.workers.Reached := by
  have hcollect : ∀ (steps : Nat) (events : List WorkerEvent) (r : Rehearsal), r.workers.Reached →
      (collect count steps events r).2.workers.Reached := by
    intro steps
    induction steps with
    | zero => exact fun _ r hr => hr
    | succ steps ih =>
      intro events r hr
      unfold collect
      split
      · exact hr
      · split
        · exact hr
        · exact ih _ _ ((reached_advance hr _).next .receiveAll)
  unfold drain
  split
  · exact hr
  · exact hcollect _ _ _ (hr.next .receiveAll)

end Rehearsal

end ImageScript
