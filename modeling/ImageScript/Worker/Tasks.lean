import ImageScript.Worker.Event

/-!
# Background tasks

Captures of the screen and searches for previews run beside the editor and report to a queue. Each
function here is one thing that can happen: a call of the editor, or a step of a task. A task may
be slow, so a delay that has run out and a request to cancel can both be there before the task
looks, and it may then follow either.
-/

namespace ImageScript

/-- How far a capture is. -/
inductive CapturePhase where
  | waiting (timeUp cancelAsked : Bool)
  | capturing
  | finished
deriving DecidableEq, Repr

/-- A scheduled capture. -/
structure CaptureTask where
  patternId : Text
  target : Path
  phase : CapturePhase
  /-- Whether the editor still holds the handle that cancels. -/
  held : Bool
deriving DecidableEq, Repr

/-- How a capture of the screen ends. -/
inductive CaptureAnswer where
  | taken
  | aborted
  | failed (error : Text)
deriving DecidableEq, Repr

/-- A search for a preview. -/
structure SearchTask where
  generation : Nat
  patternId : Text
  image : Path
  similarity : Float
  limit : Nat
deriving DecidableEq, Repr

/-- The tasks, and what they have reported. -/
structure Workers where
  /-- The captures by their handles, finished ones included. -/
  captures : List CaptureTask
  /-- The searches under way. -/
  searches : List SearchTask
  /-- Counts the previews that were started or closed. -/
  generation : Nat
  /-- The events that the editor has not received. -/
  queue : List WorkerEvent
  /-- The files that the screen was captured to. -/
  captured : List Path
deriving DecidableEq, Repr

namespace CaptureTask

/-- Whether a capture is still waiting. -/
def isWaiting (t : CaptureTask) : Bool :=
  match t.phase with
  | .waiting .. => true
  | _ => false

/-- Whether a capture has been asked to cancel and has not followed yet. -/
def isLeaving (t : CaptureTask) : Bool :=
  match t.phase with
  | .waiting _ cancelAsked => cancelAsked
  | _ => false

/-- What a capture reports at its end. -/
def event (t : CaptureTask) : CaptureAnswer → WorkerEvent
  | .taken => .captureDone t.patternId t.target
  | .aborted => .captureCancelled t.patternId
  | .failed error => .captureFailed t.patternId error

end CaptureTask

namespace SearchTask

/-- What a search reports; of the places found, no more than its limit. -/
def event (t : SearchTask) : Except Text (List ScreenMatch) → WorkerEvent
  | .ok found => .preview t.generation t.patternId (found.take t.limit)
  | .error error => .previewFailed t.generation t.patternId error

end SearchTask

namespace Workers

def idle : Workers := ⟨[], [], 0, [], []⟩

/-! ## Calls of the editor -/

/-- Schedules a capture and returns its handle. -/
def schedule (patternId : Text) (target : Path) (w : Workers) : Nat × Workers :=
  (w.captures.length,
    { w with captures := w.captures ++ [⟨patternId, target, .waiting false false, true⟩] })

/-- Replaces the capture of a handle. -/
def setCapture (handle : Nat) (t : CaptureTask) (w : Workers) : Workers :=
  { w with captures := w.captures.set handle t }

/-- The capture of a handle that the editor holds. -/
def held? (handle : Nat) (w : Workers) : Option CaptureTask :=
  w.captures[handle]?.filter CaptureTask.held

/-- Uses a handle up to cancel its capture, and says whether the capture was still waiting. -/
def cancel? (handle : Nat) (w : Workers) : Option Bool × Workers :=
  match w.held? handle with
  | none => (none, w)
  | some t =>
    match t.phase with
    | .waiting timeUp _ =>
      (some true, w.setCapture handle { t with phase := .waiting timeUp true, held := false })
    | _ => (some false, w.setCapture handle { t with held := false })

/-- Gives a handle up, which does not cancel, and says whether there was one. -/
def release (handle : Nat) (w : Workers) : Bool × Workers :=
  match w.held? handle with
  | none => (false, w)
  | some t => (true, w.setCapture handle { t with held := false })

/-- Starts a search for a preview and returns its generation. -/
def startPreview (patternId : Text) (image : Path) (similarity : Float) (limit : Nat)
    (w : Workers) : Nat × Workers :=
  let generation := w.generation + 1
  (generation,
    { w with
      generation
      searches := w.searches ++ [⟨generation, patternId, image, similarity, limit⟩] })

/-- Closes the preview; what is reported for it later is stale. -/
def closePreview (w : Workers) : Workers := { w with generation := w.generation + 1 }

/-- Whether an event belongs to no preview or to the present one. -/
def isCurrent (w : Workers) (e : WorkerEvent) : Bool := e.generation?.all (· = w.generation)

/-- Takes the first event off the queue; a stale event is taken off and not delivered. -/
def receive (w : Workers) : Option WorkerEvent × Workers :=
  (w.queue.head?.filter w.isCurrent, { w with queue := w.queue.tail })

/-- Takes all events off the queue and delivers those that are not stale. -/
def receiveAll (w : Workers) : List WorkerEvent × Workers :=
  (w.queue.filter w.isCurrent, { w with queue := [] })

/-! ## Steps of the tasks -/

/-- The delay of a capture runs out. -/
def passDelay (handle : Nat) (w : Workers) : Workers :=
  match w.captures[handle]? with
  | some t =>
    match t.phase with
    | .waiting _ cancelAsked => w.setCapture handle { t with phase := .waiting true cancelAsked }
    | _ => w
  | none => w

/-- A capture whose delay has run out begins. -/
def beginCapture (handle : Nat) (w : Workers) : Workers :=
  match w.captures[handle]? with
  | some t =>
    match t.phase with
    | .waiting true _ =>
      { w.setCapture handle { t with phase := .capturing } with
        captured := w.captured ++ [t.target] }
    | _ => w
  | none => w

/-- A capture follows a request to cancel. -/
def acceptCancel (handle : Nat) (w : Workers) : Workers :=
  match w.captures[handle]? with
  | some t =>
    match t.phase with
    | .waiting _ true =>
      { w.setCapture handle { t with phase := .finished } with
        queue := w.queue ++ [.captureCancelled t.patternId] }
    | _ => w
  | none => w

/-- A capture that has begun ends. -/
def endCapture (handle : Nat) (answer : CaptureAnswer) (w : Workers) : Workers :=
  match w.captures[handle]? with
  | some t =>
    match t.phase with
    | .capturing =>
      { w.setCapture handle { t with phase := .finished } with
        queue := w.queue ++ [t.event answer] }
    | _ => w
  | none => w

/-- One of the searches under way ends. -/
def endSearch (n : Nat) (found : Except Text (List ScreenMatch)) (w : Workers) : Workers :=
  match w.searches[n]? with
  | some t =>
    { w with searches := w.searches.eraseIdx n, queue := w.queue ++ [t.event found] }
  | none => w

end Workers

end ImageScript
