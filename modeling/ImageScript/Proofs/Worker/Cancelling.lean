import ImageScript.Proofs.Worker.Runs

/-!
# Cancelling a capture

A capture reports once, and captures the screen at most once. As long as its delay has not run out,
a request to cancel is all that its task can follow. When the delay has run out and the request is
there as well before the task looks, the task may follow the delay: then the screen is captured
although the editor was told that the capture is cancelled.

Main statements: `Workers.Life.moved`, `Workers.progress`, `cancelled_capture_kept`.
-/

namespace ImageScript

namespace Workers

/-! ### What a run does for one capture -/

/-- The events that the capture of a handle has sent. -/
def sentFor (handle : Nat) : List Happening → List WorkerEvent
  | [] => []
  | .capture n step :: past =>
    let w := after past
    sentFor handle past ++ if n = handle then (step.run n w).queue.drop w.queue.length else []
  | _ :: past => sentFor handle past

/-- The files that the screen was captured to for a handle. -/
def capturedFor (handle : Nat) : List Happening → List Path
  | [] => []
  | .capture n step :: past =>
    let w := after past
    capturedFor handle past
      ++ if n = handle then (step.run n w).captured.drop w.captured.length else []
  | _ :: past => capturedFor handle past

/-- Whether the editor was told that a capture is cancelled. -/
inductive Told (handle : Nat) : List Happening → Prop where
  | now {past : List Happening} (h : ((after past).cancel? handle).1 = some true) :
      Told handle (.capture handle .cancel :: past)
  | earlier {past : List Happening} {h : Happening} (htold : Told handle past) :
      Told handle (h :: past)

/-- Whether a task began to capture when its delay had run out and it was asked to cancel as well. -/
inductive BeganLate (handle : Nat) : List Happening → Prop where
  | now {past : List Happening} {t : CaptureTask}
      (hpresent : (after past).captures[handle]? = some t) (hphase : t.phase = .waiting true true) :
      BeganLate handle (.capture handle .start :: past)
  | earlier {past : List Happening} {h : Happening} (hlate : BeganLate handle past) :
      BeganLate handle (h :: past)

variable {handle : Nat} {past : List Happening} {h : Happening} {t t' : CaptureTask}
  {step : CaptureStep} {es : List WorkerEvent} {ps : List Path}

/-- Only a capture that is waiting is said to be cancelled. -/
theorem cancel?_eq_true {w : Workers} (hcancel : (w.cancel? handle).1 = some true) :
    ∃ t timeUp asked, w.captures[handle]? = some t ∧ t.held = true
      ∧ t.phase = .waiting timeUp asked := by
  unfold cancel? at hcancel
  split at hcancel
  · cases hcancel
  · next t ht =>
    obtain ⟨hpresent, hheld⟩ := held?_eq_some.1 ht
    split at hcancel
    · next timeUp asked hphase => exact ⟨t, timeUp, asked, hpresent, hheld, hphase⟩
    · simp at hcancel

/-- A run in which nothing happens to a capture but what happened before. -/
structure Quiet (handle : Nat) (past : List Happening) (h : Happening) : Prop where
  sent : sentFor handle (h :: past) = sentFor handle past
  captured : capturedFor handle (h :: past) = capturedFor handle past
  told : Told handle (h :: past) → Told handle past
  late : BeganLate handle (h :: past) → BeganLate handle past

theorem Quiet.of_other (hother : ∀ step, h ≠ .capture handle step) : Quiet handle past h := by
  refine ⟨?_, ?_, fun htold => ?_, fun hlate => ?_⟩
  · cases h with
    | capture n step =>
      have hn : n ≠ handle := fun heq => hother step (heq ▸ rfl)
      simp [sentFor, hn]
    | _ => rfl
  · cases h with
    | capture n step =>
      have hn : n ≠ handle := fun heq => hother step (heq ▸ rfl)
      simp [capturedFor, hn]
    | _ => rfl
  · cases htold with
    | now _ => exact absurd rfl (hother .cancel)
    | earlier htold => exact htold
  · cases hlate with
    | now _ _ => exact absurd rfl (hother .start)
    | earlier hlate => exact hlate

/-- A capture with what it sent and captured so far, by how far it is. -/
inductive Life (handle : Nat) (past : List Happening) (t : CaptureTask) : Prop where
  | waiting {timeUp asked : Bool} (hphase : t.phase = .waiting timeUp asked)
      (hsent : sentFor handle past = []) (hcaptured : capturedFor handle past = [])
      (hlate : ¬ BeganLate handle past) (htold : Told handle past → asked = true)
      (hdelay : timeUp = true → .capture handle .passDelay ∈ past)
  | capturing (hphase : t.phase = .capturing) (hsent : sentFor handle past = [])
      (hcaptured : capturedFor handle past = [t.target])
      (hlate : Told handle past → BeganLate handle past)
      (hdelay : .capture handle .passDelay ∈ past)
  | cancelled (hphase : t.phase = .finished)
      (hsent : sentFor handle past = [.captureCancelled t.patternId])
      (hcaptured : capturedFor handle past = []) (hlate : ¬ BeganLate handle past)
  | ended {answer : CaptureAnswer} (hphase : t.phase = .finished)
      (hsent : sentFor handle past = [t.event answer])
      (hcaptured : capturedFor handle past = [t.target])
      (hlate : Told handle past → BeganLate handle past)
      (hdelay : .capture handle .passDelay ∈ past)

namespace Life

/-- A quiet happening leaves a capture as far as it is. -/
theorem keep (hlife : Life handle past t) (hquiet : Quiet handle past h)
    (hphase : t'.phase = t.phase) (hid : t'.patternId = t.patternId)
    (htarget : t'.target = t.target) : Life handle (h :: past) t' := by
  have hmem : ∀ {h' : Happening}, h' ∈ past → h' ∈ h :: past := List.mem_cons_of_mem _
  have hevent : ∀ answer, t'.event answer = t.event answer := by
    intro answer
    cases answer <;> simp [CaptureTask.event, hid, htarget]
  cases hlife with
  | waiting hp hsent hcaptured hlate htold hdelay =>
    exact .waiting (hphase.trans hp) (hquiet.sent.trans hsent) (hquiet.captured.trans hcaptured)
      (fun h => hlate (hquiet.late h)) (fun h => htold (hquiet.told h)) fun h => hmem (hdelay h)
  | capturing hp hsent hcaptured hlate hdelay =>
    exact .capturing (hphase.trans hp) (hquiet.sent.trans hsent)
      (by rw [hquiet.captured, hcaptured, htarget]) (fun h => .earlier (hlate (hquiet.told h)))
      (hmem hdelay)
  | cancelled hp hsent hcaptured hlate =>
    exact .cancelled (hphase.trans hp) (by rw [hquiet.sent, hsent, hid])
      (hquiet.captured.trans hcaptured) fun h => hlate (hquiet.late h)
  | @ended answer hp hsent hcaptured hlate hdelay =>
    exact .ended (hphase.trans hp) (by rw [hquiet.sent, hsent, hevent answer])
      (by rw [hquiet.captured, hcaptured, htarget]) (fun h => .earlier (hlate (hquiet.told h)))
      (hmem hdelay)

/-- What a capture that waits has done so far. -/
structure Waits (handle : Nat) (past : List Happening) (timeUp asked : Bool) : Prop where
  sent : sentFor handle past = []
  captured : capturedFor handle past = []
  late : ¬ BeganLate handle past
  told : Told handle past → asked = true
  delay : timeUp = true → .capture handle .passDelay ∈ past

theorem waits {timeUp asked : Bool} (hlife : Life handle past t)
    (hphase : t.phase = .waiting timeUp asked) : Waits handle past timeUp asked := by
  cases hlife with
  | waiting hp hsent hcaptured hlate htold hdelay =>
    obtain ⟨rfl, rfl⟩ := CapturePhase.waiting.inj (hphase.symm.trans hp)
    exact ⟨hsent, hcaptured, hlate, htold, hdelay⟩
  | capturing hp | cancelled hp | ended hp => cases hphase.symm.trans hp

end Life

/-! ### One step of a capture -/

/-- What a step of a capture adds to a run. -/
structure Adds (handle : Nat) (past : List Happening) (t : CaptureTask) (step : CaptureStep)
    (es : List WorkerEvent) (ps : List Path) : Prop where
  sent : sentFor handle (.capture handle step :: past) = sentFor handle past ++ es
  captured : capturedFor handle (.capture handle step :: past) = capturedFor handle past ++ ps
  told : Told handle (.capture handle step :: past) → Told handle past
    ∨ step = .cancel ∧ t.held = true ∧ t.isWaiting = true
  late : BeganLate handle (.capture handle step :: past) → BeganLate handle past
    ∨ step = .start ∧ t.phase = .waiting true true

theorem adds (hpresent : (after past).captures[handle]? = some t)
    (hnext : step.run handle (after past) = { after past with
      captures := (after past).captures.set handle t'
      queue := (after past).queue ++ es
      captured := (after past).captured ++ ps }) : Adds handle past t step es ps := by
  refine ⟨by simp [sentFor, hnext], by simp [capturedFor, hnext], fun htold => ?_, fun hlate => ?_⟩
  · cases htold with
    | now hcancel =>
      obtain ⟨u, timeUp, asked, hu, hheld, hphase⟩ := cancel?_eq_true hcancel
      obtain rfl := Option.some.inj (hpresent.symm.trans hu)
      exact Or.inr ⟨rfl, hheld, by simp [CaptureTask.isWaiting, hphase]⟩
    | earlier htold => exact Or.inl htold
  · cases hlate with
    | now hu hphase =>
      obtain rfl := Option.some.inj (hpresent.symm.trans hu)
      exact Or.inr ⟨rfl, hphase⟩
    | earlier hlate => exact Or.inl hlate

namespace Adds

/-- A step that sends nothing, where it was not a request to cancel and the task did not begin. -/
theorem quiet (h : Adds handle past t step [] [])
    (hcancel : step = .cancel → t.held = true → t.isWaiting = false)
    (hstart : step = .start → t.phase ≠ .waiting true true) :
    Quiet handle past (.capture handle step) := by
  refine ⟨by rw [h.sent, List.append_nil], by rw [h.captured, List.append_nil], ?_, ?_⟩
  · intro htold
    rcases h.told htold with htold | ⟨hstep, hheld, hwaiting⟩
    · exact htold
    · simp [hcancel hstep hheld] at hwaiting
  · intro hlate
    rcases h.late hlate with hlate | ⟨hstep, hphase⟩
    · exact hlate
    · exact absurd hphase (hstart hstep)

end Adds

/-- A step leads a capture on. -/
theorem Life.moved (hlife : Life handle past t) (hpresent : (after past).captures[handle]? = some t)
    (hmoves : t.Moves step t' es ps) (hadds : Adds handle past t step es ps) :
    Life handle (.capture handle step :: past) t' := by
  cases hmoves with
  | cancel hheld hphase =>
    have hwaits := hlife.waits hphase
    refine .waiting rfl (by rw [hadds.sent, hwaits.sent]; rfl)
      (by rw [hadds.captured, hwaits.captured]; rfl) (fun hlate => ?_) (fun _ => rfl)
      fun htime => List.mem_cons_of_mem _ (hwaits.delay htime)
    rcases hadds.late hlate with hlate | ⟨hstep, -⟩
    · exact hwaits.late hlate
    · cases hstep
  | cancelLate hheld hphase => exact hlife.keep (hadds.quiet (fun _ _ => hphase) nofun) rfl rfl rfl
  | release hheld => exact hlife.keep (hadds.quiet nofun nofun) rfl rfl rfl
  | passDelay hphase =>
    have hwaits := hlife.waits hphase
    have hquiet := hadds.quiet nofun nofun
    exact .waiting rfl (hquiet.sent.trans hwaits.sent) (hquiet.captured.trans hwaits.captured)
      (fun hlate => hwaits.late (hquiet.late hlate)) (fun htold => hwaits.told (hquiet.told htold))
      fun _ => List.mem_cons_self ..
  | @start asked hphase =>
    have hwaits := hlife.waits hphase
    refine .capturing rfl (by rw [hadds.sent, hwaits.sent]; rfl)
      (by rw [hadds.captured, hwaits.captured]; rfl) (fun htold => ?_)
      (List.mem_cons_of_mem _ (hwaits.delay rfl))
    -- Where the editor was told before, the request was there when the task began.
    rcases hadds.told htold with htold | ⟨hstep, -⟩
    · rw [hwaits.told htold] at hphase
      exact .now hpresent hphase
    · cases hstep
  | follow hphase =>
    have hwaits := hlife.waits hphase
    refine .cancelled rfl (by rw [hadds.sent, hwaits.sent]; rfl)
      (by rw [hadds.captured, hwaits.captured]; rfl) fun hlate => ?_
    rcases hadds.late hlate with hlate | ⟨hstep, -⟩
    · exact hwaits.late hlate
    · cases hstep
  | @finish answer hphase =>
    cases hlife with
    | capturing _ hsent hcaptured hlate hdelay =>
      refine .ended rfl (by rw [hadds.sent, hsent]; rfl) ?_ (fun htold => ?_)
        (List.mem_cons_of_mem _ hdelay)
      · rw [hadds.captured, hcaptured, List.append_nil]
      · rcases hadds.told htold with htold | ⟨hstep, -⟩
        · exact .earlier (hlate htold)
        · cases hstep
    | waiting hp | cancelled hp | ended hp => cases hphase.symm.trans hp
  | stay hignores =>
    refine hlife.keep (hadds.quiet ?_ ?_) rfl rfl rfl
    · intro hstep hheld
      subst hstep
      have hreleased : t.held = false := hignores
      cases hheld.symm.trans hreleased
    · intro hstep
      subst hstep
      exact hignores true

/-! ### Runs -/

/-- A handle that stands for no capture. -/
structure Unborn (handle : Nat) (past : List Happening) : Prop where
  sent : sentFor handle past = []
  captured : capturedFor handle past = []
  told : ¬ Told handle past
  late : ¬ BeganLate handle past

theorem Unborn.keep (hunborn : Unborn handle past) (hquiet : Quiet handle past h) :
    Unborn handle (h :: past) :=
  ⟨hquiet.sent.trans hunborn.sent, hquiet.captured.trans hunborn.captured,
    fun htold => hunborn.told (hquiet.told htold), fun hlate => hunborn.late (hquiet.late hlate)⟩

/-- How far the capture of a handle is, if there is one. -/
def Progress (handle : Nat) (past : List Happening) : Option CaptureTask → Prop
  | none => Unborn handle past
  | some t => Life handle past t

theorem Quiet.of_absent (habsent : (after past).captures[handle]? = none)
    (hnext : step.run handle (after past) = after past) :
    Quiet handle past (.capture handle step) := by
  refine ⟨by simp [sentFor, hnext], by simp [capturedFor, hnext], fun htold => ?_, fun hlate => ?_⟩
  · cases htold with
    | now hcancel =>
      obtain ⟨t, -, -, ht, -⟩ := cancel?_eq_true hcancel
      cases habsent.symm.trans ht
    | earlier htold => exact htold
  · cases hlate with
    | now ht _ => cases habsent.symm.trans ht
    | earlier hlate => exact hlate

/-- The other captures, the searches and the editor leave a capture alone, once it is scheduled. -/
theorem captures_next_of_other {w : Workers} (hother : ∀ step, h ≠ .capture handle step) :
    (h.next w).captures[handle]? = w.captures[handle]?
      ∨ w.captures[handle]? = none ∧ ∃ t, (h.next w).captures[handle]? = some t
        ∧ t.phase = .waiting false false := by
  cases h with
  | schedule patternId target =>
    rcases Nat.lt_trichotomy handle w.captures.length with hlt | heq | hgt
    · exact Or.inl (List.getElem?_append_left hlt)
    · refine Or.inr ⟨List.getElem?_eq_none (Nat.le_of_eq heq.symm),
        ⟨patternId, target, .waiting false false, true⟩, ?_, rfl⟩
      subst heq
      exact List.getElem?_concat_length
    · left
      rw [List.getElem?_eq_none (Nat.le_of_lt hgt)]
      refine List.getElem?_eq_none ?_
      rw [Happening.next, Workers.schedule, List.length_append]
      exact Nat.succ_le_of_lt hgt
  | capture n step =>
    have hn : n ≠ handle := fun heq => hother step (heq ▸ rfl)
    have hmoved := step.run_spec n w
    left
    rw [Happening.next]
    generalize step.run n w = w' at hmoved
    cases hmoved with
    | absent _ => rfl
    | moved _ _ => exact List.getElem?_set_ne hn
  | endSearch n found =>
    left
    unfold Happening.next Workers.endSearch
    dsimp only
    split <;> rfl
  | startPreview | closePreview | receive | receiveAll => exact Or.inl rfl

/-- Whatever has happened, a capture is at one point of its life. -/
theorem progress (handle : Nat) (past : List Happening) :
    Progress handle past (after past).captures[handle]? := by
  induction past with
  | nil => exact ⟨rfl, rfl, nofun, nofun⟩
  | cons h past ih =>
    by_cases hown : ∃ step, h = .capture handle step
    · obtain ⟨step, rfl⟩ := hown
      have hmoved := step.run_spec handle (after past)
      have hafter : after (.capture handle step :: past) = step.run handle (after past) := rfl
      rw [hafter]
      generalize hnext : step.run handle (after past) = w at hmoved
      cases hmoved with
      | absent habsent =>
        rw [habsent] at ih ⊢
        exact Unborn.keep ih (.of_absent habsent hnext)
      | moved hpresent hmoves =>
        rw [hpresent] at ih
        rw [List.getElem?_set_self' , hpresent]
        exact Life.moved ih hpresent hmoves (adds hpresent hnext)
    · have hother : ∀ step, h ≠ .capture handle step := fun step heq => hown ⟨step, heq⟩
      have hquiet : Quiet handle past h := .of_other hother
      have hafter : after (h :: past) = h.next (after past) := rfl
      rw [hafter]
      rcases captures_next_of_other (w := after past) hother with hsame | ⟨hnone, t, ht, hphase⟩
      · rw [hsame]
        cases hpresent : (after past).captures[handle]? with
        | none =>
          rw [hpresent] at ih
          exact Unborn.keep ih hquiet
        | some t =>
          rw [hpresent] at ih
          exact Life.keep ih hquiet rfl rfl rfl
      · rw [hnone] at ih
        rw [ht]
        have hunborn : Unborn handle (h :: past) := Unborn.keep ih hquiet
        exact .waiting hphase hunborn.sent hunborn.captured hunborn.late
          (fun htold => absurd htold hunborn.told) nofun

/-- Whether nothing was captured and nothing was reported but that the capture is cancelled. -/
structure KeepsCancel (handle : Nat) (past : List Happening) : Prop where
  captured : capturedFor handle past = []
  sent : ∀ t, (after past).captures[handle]? = some t →
    ∀ e ∈ sentFor handle past, e = .captureCancelled t.patternId

/-- What becomes of a capture, and of a request to cancel it. -/
structure CancelOutcome (handle : Nat) (past : List Happening) : Prop where
  one_event : (sentFor handle past).length ≤ 1
  one_capture : (capturedFor handle past).length ≤ 1
  /-- The editor was told the truth unless the task followed the delay. -/
  kept_iff : Told handle past → (KeepsCancel handle past ↔ ¬ BeganLate handle past)
  /-- The editor was told the truth as long as the delay has not run out. -/
  in_time : Told handle past → .capture handle .passDelay ∉ past → KeepsCancel handle past
  /-- Until the task has looked, it may still follow either. -/
  undecided : Told handle past → capturedFor handle past = [] → sentFor handle past = [] →
    (∃ id, sentFor handle (.capture handle .follow :: past) = [.captureCancelled id])
      ∧ BeganLate handle (.capture handle .start :: .capture handle .passDelay :: past)

theorem KeepsCancel.of_life (hlife : Life handle past t)
    (hpresent : (after past).captures[handle]? = some t) (hcaptured : capturedFor handle past = []) :
    KeepsCancel handle past := by
  refine ⟨hcaptured, fun u hu e he => ?_⟩
  obtain rfl := Option.some.inj (hpresent.symm.trans hu)
  cases hlife with
  | waiting _ hsent =>
    rw [hsent] at he
    exact absurd he List.not_mem_nil
  | cancelled _ hsent =>
    rw [hsent] at he
    exact List.mem_singleton.1 he
  | capturing _ _ hfile | ended _ _ hfile =>
    rw [hcaptured] at hfile
    cases hfile

/-- A capture that was asked to cancel can still follow the request, and the delay as well. -/
theorem Life.undecided (hlife : Life handle past t)
    (hpresent : (after past).captures[handle]? = some t) (htold : Told handle past)
    (hcaptured : capturedFor handle past = []) (hsent : sentFor handle past = []) :
    (∃ id, sentFor handle (.capture handle .follow :: past) = [.captureCancelled id])
      ∧ BeganLate handle (.capture handle .start :: .capture handle .passDelay :: past) := by
  cases hlife with
  | @waiting timeUp asked hphase _ _ _ hasked =>
    obtain rfl := hasked htold
    constructor
    · refine ⟨t.patternId, ?_⟩
      simp [sentFor, hsent, CaptureStep.run, acceptCancel, hpresent, hphase]
    · refine .now (t := { t with phase := .waiting true true }) ?_ rfl
      show (passDelay handle (after past)).captures[handle]? = _
      simp only [passDelay, hpresent, hphase, setCapture]
      rw [List.getElem?_set_self', hpresent]
      rfl
  | capturing _ _ hfile =>
    rw [hcaptured] at hfile
    cases hfile
  | cancelled _ hevent | ended _ hevent =>
    rw [hsent] at hevent
    cases hevent

end Workers

open Workers in
/-- A capture reports once. A capture that was cancelled is not captured, unless its delay ran out
and the task followed that in place of the request. -/
theorem cancelled_capture_kept (handle : Nat) (past : List Happening) :
    CancelOutcome handle past := by
  have hprogress := progress handle past
  cases hpresent : (after past).captures[handle]? with
  | none =>
    rw [hpresent] at hprogress
    have hunborn : Unborn handle past := hprogress
    refine ⟨?_, ?_, fun htold => absurd htold hunborn.told, fun htold => absurd htold hunborn.told,
      fun htold => absurd htold hunborn.told⟩
    · simp [hunborn.sent]
    · simp [hunborn.captured]
  | some t =>
    rw [hpresent] at hprogress
    have hlife : Life handle past t := hprogress
    have hkept := KeepsCancel.of_life hlife hpresent
    have hundecided := hlife.undecided hpresent
    have hbroken (hcaptured : capturedFor handle past = [t.target]) : ¬ KeepsCancel handle past := by
      intro hkeeps
      cases hcaptured.symm.trans hkeeps.captured
    cases hlife with
    | waiting _ hsent hcaptured hlate =>
      exact ⟨by simp [hsent], by simp [hcaptured], fun _ => iff_of_true (hkept hcaptured) hlate,
        fun _ _ => hkept hcaptured, hundecided⟩
    | cancelled _ hsent hcaptured hlate =>
      exact ⟨by simp [hsent], by simp [hcaptured], fun _ => iff_of_true (hkept hcaptured) hlate,
        fun _ _ => hkept hcaptured, hundecided⟩
    | capturing _ hsent hcaptured hlate hdelay =>
      exact ⟨by simp [hsent], by simp [hcaptured],
        fun htold => iff_of_false (hbroken hcaptured) (not_not_intro (hlate htold)),
        fun _ hintime => absurd hdelay hintime, hundecided⟩
    | ended _ hsent hcaptured hlate hdelay =>
      exact ⟨by simp [hsent], by simp [hcaptured],
        fun htold => iff_of_false (hbroken hcaptured) (not_not_intro (hlate htold)),
        fun _ hintime => absurd hdelay hintime, hundecided⟩

open Workers in
/-- The delay runs out, the editor is told that the capture is cancelled, and then the task looks. -/
theorem cancelled_capture_kept_raced :
    let past := [.capture 0 .start, .capture 0 .cancel, .capture 0 .passDelay,
      .schedule "p1".toList (.ofString "/w/capture.png")]
    Told 0 past ∧ capturedFor 0 past = [.ofString "/w/capture.png"] ∧ ¬ KeepsCancel 0 past := by
  intro past
  have htold : Told 0 past := .earlier (.now rfl)
  have hlate : BeganLate 0 past := .now rfl rfl
  refine ⟨htold, rfl, fun hkeeps => ?_⟩
  exact ((cancelled_capture_kept 0 past).kept_iff htold).1 hkeeps hlate

end ImageScript
