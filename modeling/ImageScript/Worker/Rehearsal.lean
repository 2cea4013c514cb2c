import ImageScript.Worker.Tasks

/-!
# Rehearsals

Background tasks played through without a screen. The answers of the captures are given beforehand,
every search finds the same places, and a clock takes the place of waiting: tasks take no time, and
nothing happens but while the editor waits.
-/

namespace ImageScript

/-- Background tasks with all that they depend on. -/
structure Rehearsal where
  workers : Workers
  /-- The time in milliseconds. -/
  now : Nat
  /-- When the delays of captures run out, the earliest first. -/
  delays : List (Nat × Nat)
  /-- How the captures to come end; those without an answer succeed. -/
  answers : List CaptureAnswer
  /-- How many places every search finds, or why it fails. -/
  places : Except Text Int

namespace Rehearsal

def start (answers : List CaptureAnswer) (places : Except Text Int) : Rehearsal :=
  ⟨.idle, 0, [], answers, places⟩

/-- The places that a search finds: one after another down a diagonal, with the similarity asked
for as their score. -/
def diagonal (count : Nat) (similarity : Float) : List ScreenMatch :=
  (List.range count).map fun i => ⟨Int32.ofNat i, -Int32.ofNat i, 10, 20, similarity⟩

/-- How a search ends. -/
def found (r : Rehearsal) (t : SearchTask) : Except Text (List ScreenMatch) :=
  r.places.map fun n => diagonal n.toNat t.similarity

/-- Makes a call of the editor. -/
def call {α : Type} (f : Workers → α × Workers) : StateM Rehearsal α := fun r =>
  let (a, workers) := f r.workers
  (a, { r with workers })

/-- Schedules a capture after a delay. -/
def schedule (patternId : Text) (target : Path) (delay : Nat) : StateM Rehearsal Unit := do
  let handle ← call (Workers.schedule patternId target)
  modify fun r =>
    let due := r.now + delay
    { r with
      delays := r.delays.takeWhile (·.1 ≤ due) ++ (due, handle) :: r.delays.dropWhile (·.1 ≤ due) }

/-- Lets the captures that were asked to cancel follow. -/
def followCancels (r : Rehearsal) : Rehearsal :=
  { r with
    workers := (List.range r.workers.captures.length).foldl (fun w n => w.acceptCancel n)
      r.workers }

/-- Lets the searches under way end in the order they were started. -/
def endSearches (r : Rehearsal) : Rehearsal :=
  { r with
    workers := r.workers.searches.foldl (fun w t => w.endSearch 0 (r.found t)) r.workers }

/-- Lets a capture whose delay has run out begin and end. -/
def runCapture (r : Rehearsal) (handle : Nat) : Rehearsal :=
  if r.workers.captures[handle]?.any CaptureTask.isWaiting then
    { r with
      workers := ((r.workers.passDelay handle).beginCapture handle).endCapture handle
        (r.answers.head?.getD .taken)
      answers := r.answers.tail }
  else r

/-- Sets the clock to a time and lets everything happen that is due by then. -/
def advance (r : Rehearsal) (time : Nat) : Rehearsal :=
  let r := { r.followCancels.endSearches with now := time }
  let due := r.delays.takeWhile (·.1 ≤ time)
  due.foldl (fun r d => r.runCapture d.2) { r with delays := r.delays.drop due.length }

/-- When something happens next, if nothing more is called. -/
def next? (r : Rehearsal) : Option Nat :=
  if !r.workers.searches.isEmpty || r.workers.captures.any CaptureTask.isLeaving then some r.now
  else
    let due? := r.delays.find? fun d => r.workers.captures[d.2]?.any CaptureTask.isWaiting
    due?.map fun d => max r.now d.1

/-- Bounds how often the editor can be woken while it waits. -/
def patience (r : Rehearsal) : Nat :=
  r.workers.queue.length + 2 * (r.workers.searches.length + r.workers.captures.length) + 1

/-- Waits for an event until a time, and from every stale event on for `timeout` more. -/
def waitUntil (timeout : Nat) : Nat → Nat → Rehearsal → Option WorkerEvent × Rehearsal
  | 0, _, r => (none, r)
  | steps + 1, deadline, r =>
    if r.workers.queue.isEmpty then
      match r.next? with
      | some time =>
        if time < deadline then waitUntil timeout steps deadline (r.advance time)
        else (none, { r with now := deadline })
      | none => (none, { r with now := deadline })
    else
      match call Workers.receive r with
      | (some e, r) => (some e, r)
      | (none, r) => waitUntil timeout steps (r.now + timeout) r

/-- Waits for the next event that is not stale. -/
def wait (timeout : Nat) : StateM Rehearsal (Option WorkerEvent) := fun r =>
  waitUntil timeout r.patience (r.now + timeout) r

/-- Collects events until there are `count` of them or nothing more happens. -/
def collect (count : Nat) : Nat → List WorkerEvent → Rehearsal → List WorkerEvent × Rehearsal
  | 0, events, r => (events, r)
  | steps + 1, events, r =>
    if count ≤ events.length then (events, r)
    else
      match r.next? with
      | none => (events, r)
      | some time =>
        let (more, r) := call Workers.receiveAll (r.advance time)
        collect count steps (events ++ more) r

/-- Receives all events over and over until there are `count` of them. -/
def drain (count : Nat) : StateM Rehearsal (List WorkerEvent) := do
  if count = 0 then return []
  let events ← call Workers.receiveAll
  fun r => collect count r.patience events r

end Rehearsal

end ImageScript
