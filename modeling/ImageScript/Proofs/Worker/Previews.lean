import Mathlib.Data.List.Nodup
import Mathlib.Data.List.Perm.Subperm
import ImageScript.Proofs.Worker.Runs

/-!
# Previews in time

Searches end in any order, and what they report waits in the queue while further previews are started
and closed. Every search has a generation of its own, which stands at one place only: with the search
under way, in the queue, or with an event that the editor got. The present generation is that of the
search which the editor shows, so that the editor gets no stale result and misses no current one.

Main statements: `Happening.flows`, `Workers.flow_subperm`, `previews_in_time`.
-/

namespace ImageScript

namespace SearchTask

/-- Whether an event reports on a search, with no more places than it asked for. -/
def Reports (t : SearchTask) (e : WorkerEvent) : Prop :=
  (∃ found, e = .preview t.generation t.patternId found ∧ found.length ≤ t.limit)
    ∨ ∃ error, e = .previewFailed t.generation t.patternId error

variable {t : SearchTask} {e : WorkerEvent}

theorem reports_event (t : SearchTask) (found : Except Text (List ScreenMatch)) :
    t.Reports (t.event found) := by
  cases found with
  | ok found => exact Or.inl ⟨_, rfl, List.length_take_le ..⟩
  | error error => exact Or.inr ⟨error, rfl⟩

theorem Reports.generation?_eq (h : t.Reports e) : e.generation? = some t.generation := by
  rcases h with ⟨found, rfl, -⟩ | ⟨error, rfl⟩ <;> rfl

end SearchTask

/-- What a capture reports belongs to no preview. -/
theorem CaptureTask.Moves.generation?_eq {t t' : CaptureTask} {step : CaptureStep}
    {es : List WorkerEvent} {ps : List Path} (h : t.Moves step t' es ps) :
    ∀ e ∈ es, e.generation? = none := by
  intro e he
  cases h with
  | follow hphase =>
    rw [List.mem_singleton.1 he]
    rfl
  | finish hphase =>
    rename_i answer
    rw [List.mem_singleton.1 he]
    cases answer <;> rfl
  | _ => exact absurd he List.not_mem_nil

namespace Workers

/-- The generations of the searches that are under way or in the queue. -/
def inFlight (w : Workers) : List Nat :=
  w.searches.map (·.generation) ++ w.queue.filterMap (·.generation?)

end Workers

namespace Happening

/-- The search that is started. -/
def search? (w : Workers) : Happening → Option SearchTask
  | startPreview patternId image similarity limit =>
    some ⟨(w.startPreview patternId image similarity limit).1, patternId, image, similarity, limit⟩
  | _ => none

/-- What a happening does to the searches and their results. -/
structure Flows (w : Workers) (h : Happening) : Prop where
  searches : ∀ t ∈ (h.next w).searches, t ∈ w.searches ∨ h.search? w = some t
  events : ∀ e ∈ (h.next w).queue ++ h.delivers w,
    e ∈ w.queue ∨ e.generation? = none ∨ ∃ t ∈ w.searches, t.Reports e
  generations : ((h.next w).inFlight ++ (h.delivers w).filterMap (·.generation?)).Subperm
    ((h.search? w).toList.map (·.generation) ++ w.inFlight)
  current : ∀ e ∈ h.delivers w, w.isCurrent e = true

variable {w : Workers}

/-- Nothing happens to the searches where only captures report. -/
theorem flows_of_captures {h : Happening} {es : List WorkerEvent}
    (hsearches : (h.next w).searches = w.searches) (hqueue : (h.next w).queue = w.queue ++ es)
    (hes : ∀ e ∈ es, e.generation? = none) (hdelivers : h.delivers w = [])
    (hsearch : h.search? w = none) : h.Flows w := by
  have hnone : es.filterMap (·.generation?) = [] := List.filterMap_eq_nil_iff.2 hes
  refine ⟨?_, ?_, ?_, ?_⟩
  · intro t ht
    rw [hsearches] at ht
    exact Or.inl ht
  · intro e he
    rw [hqueue, hdelivers, List.append_nil] at he
    rcases List.mem_append.1 he with he | he
    · exact Or.inl he
    · exact Or.inr (Or.inl (hes e he))
  · refine List.Perm.subperm (List.Perm.of_eq ?_)
    simp [Workers.inFlight, hsearches, hqueue, hdelivers, hsearch, hnone]
  · intro e he
    rw [hdelivers] at he
    exact absurd he List.not_mem_nil

theorem flows_of_same {h : Happening} (hsearches : (h.next w).searches = w.searches)
    (hqueue : (h.next w).queue = w.queue) (hdelivers : h.delivers w = [])
    (hsearch : h.search? w = none) : h.Flows w :=
  flows_of_captures hsearches (hqueue.trans (List.append_nil _).symm)
    (fun _ he => absurd he List.not_mem_nil) hdelivers hsearch

theorem flows_endSearch (n : Nat) (found : Except Text (List ScreenMatch)) :
    (endSearch n found).Flows w := by
  cases ht : w.searches[n]? with
  | none =>
    have hnext : (endSearch n found).next w = w := by
      simp only [next, Workers.endSearch, ht]
    exact flows_of_same (by rw [hnext]) (by rw [hnext]) rfl rfl
  | some t =>
    obtain ⟨hn, rfl⟩ := List.getElem?_eq_some_iff.1 ht
    have hnext : (endSearch n found).next w = { w with
        searches := w.searches.eraseIdx n
        queue := w.queue ++ [w.searches[n].event found] } := by
      simp only [next, Workers.endSearch, ht]
    have hreports := w.searches[n].reports_event found
    refine ⟨?_, ?_, ?_, ?_⟩
    · intro t ht
      rw [hnext] at ht
      exact Or.inl (List.mem_of_mem_eraseIdx ht)
    · intro e he
      rw [hnext] at he
      simp only [delivers, List.append_nil, List.mem_append, List.mem_singleton] at he
      rcases he with he | rfl
      · exact Or.inl he
      · exact Or.inr (Or.inr ⟨_, List.getElem_mem hn, hreports⟩)
    · have hperm := (List.getElem_cons_eraseIdx_perm hn).map (·.generation)
      refine List.Perm.subperm (List.Perm.trans ?_ (hperm.append_right _))
      rw [hnext]
      simp only [Workers.inFlight, delivers, List.filterMap_append, List.filterMap_cons,
        hreports.generation?_eq, List.filterMap_nil, List.append_nil, List.map_cons]
      rw [← List.append_assoc]
      exact List.perm_append_singleton ..
    · exact fun e he => absurd he List.not_mem_nil

theorem flows_startPreview (patternId : Text) (image : Path) (similarity : Float) (limit : Nat) :
    (startPreview patternId image similarity limit).Flows w := by
  refine ⟨?_, ?_, ?_, fun e he => absurd he List.not_mem_nil⟩
  · intro t ht
    refine (List.mem_append.1 ht).imp id fun ht => ?_
    rw [List.mem_singleton.1 ht]
    rfl
  · intro e he
    exact Or.inl (by simpa [next, Workers.startPreview, delivers] using he)
  · refine List.Perm.subperm ?_
    simp only [Workers.inFlight, next, Workers.startPreview, delivers, search?, List.map_append,
      List.filterMap_nil, List.append_nil, ← List.append_assoc]
    exact List.perm_append_comm.append_right _

/-- A turn at the queue takes events off it, of which the editor gets those that are not stale. -/
theorem flows_of_taken {h : Happening} (taken : List WorkerEvent)
    (hsearches : (h.next w).searches = w.searches) (hqueue : w.queue = taken ++ (h.next w).queue)
    (hdelivers : h.delivers w = taken.filter w.isCurrent) (hsearch : h.search? w = none) :
    h.Flows w := by
  refine ⟨?_, ?_, ?_, ?_⟩
  · intro t ht
    rw [hsearches] at ht
    exact Or.inl ht
  · intro e he
    left
    rw [hdelivers] at he
    rw [hqueue]
    rcases List.mem_append.1 he with he | he
    · exact List.mem_append_right _ he
    · exact List.mem_append_left _ (List.mem_of_mem_filter he)
  · have hsublist := (List.filter_sublist (p := w.isCurrent) (l := taken)).filterMap (·.generation?)
    have hqueues : w.queue.filterMap (·.generation?) = taken.filterMap (·.generation?)
        ++ (h.next w).queue.filterMap (·.generation?) := by
      rw [← List.filterMap_append, ← hqueue]
    simp only [Workers.inFlight, hsearches, hdelivers, hsearch, Option.toList_none, List.map_nil,
      List.nil_append, hqueues, List.append_assoc]
    exact (List.perm_append_comm.append_left _).subperm.trans
      ((hsublist.append_right _).append_left _).subperm
  · intro e he
    rw [hdelivers] at he
    exact List.of_mem_filter he

/-- No happening delivers a stale result or makes up another one. -/
theorem flows (w : Workers) (h : Happening) : h.Flows w := by
  cases h with
  | schedule patternId target => exact flows_of_same rfl rfl rfl rfl
  | capture handle step =>
    have hmoved := step.run_spec handle w
    have hnext : (capture handle step).next w = step.run handle w := rfl
    generalize step.run handle w = w' at hmoved hnext
    cases hmoved with
    | absent habsent =>
      exact flows_of_same (by rw [hnext]) (by rw [hnext]) rfl rfl
    | moved hpresent hmoves =>
      exact flows_of_captures (by rw [hnext]) (by rw [hnext]) hmoves.generation?_eq rfl rfl
  | startPreview patternId image similarity limit =>
    exact flows_startPreview patternId image similarity limit
  | closePreview => exact flows_of_same rfl rfl rfl rfl
  | endSearch n found => exact flows_endSearch n found
  | receive =>
    cases hqueue : w.queue with
    | nil =>
      refine flows_of_taken [] rfl ?_ ?_ rfl <;> simp [next, delivers, Workers.receive, hqueue]
    | cons e rest =>
      refine flows_of_taken [e] rfl ?_ ?_ rfl
      · simp [next, Workers.receive, hqueue]
      · cases hcurrent : w.isCurrent e <;> simp [delivers, Workers.receive, hqueue, hcurrent]
  | receiveAll => exact flows_of_taken w.queue rfl (List.append_nil _).symm rfl rfl

/-- What a happening does to the preview that the editor shows. -/
inductive Turns (w : Workers) (h : Happening) : Prop where
  | starts {t : SearchTask} (hsearch : h.search? w = some t) (hopen : h ≠ .closePreview)
      (hnew : t.generation = w.generation + 1) (hnext : (h.next w).generation = w.generation + 1)
  | closes (hsearch : h.search? w = none) (hclose : h = .closePreview)
      (hnext : (h.next w).generation = w.generation + 1)
  | keeps (hsearch : h.search? w = none) (hopen : h ≠ .closePreview)
      (hnext : (h.next w).generation = w.generation)

theorem turns (w : Workers) (h : Happening) : h.Turns w := by
  cases h with
  | schedule patternId target => exact .keeps rfl nofun rfl
  | capture handle step =>
    have hmoved := step.run_spec handle w
    refine .keeps rfl nofun ?_
    rw [next]
    generalize step.run handle w = w' at hmoved
    cases hmoved <;> rfl
  | startPreview patternId image similarity limit => exact .starts rfl nofun rfl rfl
  | closePreview => exact .closes rfl rfl rfl
  | endSearch n found =>
    refine .keeps rfl nofun ?_
    unfold next Workers.endSearch
    dsimp only
    split <;> rfl
  | receive => exact .keeps rfl nofun rfl
  | receiveAll => exact .keeps rfl nofun rfl

end Happening

/-! ### Runs -/

namespace Workers

/-- All searches that were started, the latest first. -/
def started : List Happening → List SearchTask
  | [] => []
  | h :: past => (h.search? (after past)).toList ++ started past

/-- The search that the editor shows: the one started last, unless the preview was closed since. -/
def shown? : List Happening → Option SearchTask
  | [] => none
  | .closePreview :: _ => none
  | h :: past => (h.search? (after past)).or (shown? past)

/-- All events that the editor got. -/
def delivered : List Happening → List WorkerEvent
  | [] => []
  | h :: past => h.delivers (after past) ++ delivered past

variable {past : List Happening} {t : SearchTask} {e : WorkerEvent}

theorem shown?_cons_of_open {h : Happening} (hopen : h ≠ .closePreview) :
    shown? (h :: past) = (h.search? (after past)).or (shown? past) := by
  cases h <;> first | rfl | exact absurd rfl hopen

/-- The generations that were given out, and which of them is that of the search shown. -/
structure Numbers (past : List Happening) : Prop where
  issued : ∀ t ∈ started past, t.generation ≤ (after past).generation
  distinct : ((started past).map (·.generation)).Nodup
  shown_iff : ∀ t, shown? past = some t ↔ t ∈ started past ∧ t.generation = (after past).generation
  counts : (after past).generation ≤ past.length

namespace Numbers

variable {h : Happening}

/-- A search that is started is the only one with the new generation. -/
theorem starts (ih : Numbers past) (hsearch : h.search? (after past) = some t)
    (hopen : h ≠ .closePreview) (hnew : t.generation = (after past).generation + 1)
    (hnext : (h.next (after past)).generation = (after past).generation + 1) :
    Numbers (h :: past) := by
  have hgeneration : (after (h :: past)).generation = t.generation := hnext.trans hnew.symm
  have hstarted : started (h :: past) = t :: started past := by
    rw [started, hsearch]
    rfl
  have holder : ∀ u ∈ started past, u.generation < t.generation := by
    intro u hu
    have hissued := ih.issued u hu
    omega
  refine ⟨?_, ?_, ?_, ?_⟩
  · intro u hu
    rw [hstarted] at hu
    rw [hgeneration]
    rcases List.mem_cons.1 hu with rfl | hu
    · exact Nat.le_refl _
    · exact Nat.le_of_lt (holder u hu)
  · rw [hstarted, List.map_cons, List.nodup_cons]
    refine ⟨fun hmem => ?_, ih.distinct⟩
    obtain ⟨u, hu, heq⟩ := List.mem_map.1 hmem
    exact absurd heq (Nat.ne_of_lt (holder u hu))
  · intro u
    rw [shown?_cons_of_open hopen, hsearch, Option.some_or, hstarted, hgeneration]
    constructor
    · intro hu
      obtain rfl := Option.some.inj hu
      exact ⟨List.mem_cons_self .., rfl⟩
    · intro hu
      obtain ⟨hu, heq⟩ := hu
      rcases List.mem_cons.1 hu with rfl | hu
      · rfl
      · exact absurd heq (Nat.ne_of_lt (holder u hu))
  · have hcounts := ih.counts
    rw [hgeneration, hnew, List.length_cons]
    omega

/-- No search has the generation of a preview that is closed. -/
theorem closes (ih : Numbers past) (hnext :
    (Happening.closePreview.next (after past)).generation = (after past).generation + 1) :
    Numbers (.closePreview :: past) := by
  have hgeneration : (after (.closePreview :: past)).generation = (after past).generation + 1 :=
    hnext
  have hstarted : started (.closePreview :: past) = started past := rfl
  have hissued : ∀ u ∈ started past, u.generation < (after past).generation + 1 :=
    fun u hu => Nat.lt_succ_of_le (ih.issued u hu)
  refine ⟨?_, ?_, ?_, ?_⟩
  · intro u hu
    rw [hstarted] at hu
    rw [hgeneration]
    exact Nat.le_of_lt (hissued u hu)
  · rw [hstarted]
    exact ih.distinct
  · intro u
    rw [hstarted, hgeneration]
    exact ⟨nofun, fun hu => absurd hu.2 (Nat.ne_of_lt (hissued u hu.1))⟩
  · rw [hgeneration, List.length_cons]
    exact Nat.succ_le_succ ih.counts

theorem keeps (ih : Numbers past) (hsearch : h.search? (after past) = none)
    (hopen : h ≠ .closePreview)
    (hnext : (h.next (after past)).generation = (after past).generation) :
    Numbers (h :: past) := by
  have hgeneration : (after (h :: past)).generation = (after past).generation := hnext
  have hstarted : started (h :: past) = started past := by
    rw [started, hsearch]
    rfl
  refine ⟨?_, ?_, ?_, ?_⟩
  · rw [hstarted, hgeneration]
    exact ih.issued
  · rw [hstarted]
    exact ih.distinct
  · intro u
    rw [shown?_cons_of_open hopen, hsearch, Option.none_or, hstarted, hgeneration]
    exact ih.shown_iff u
  · rw [hgeneration, List.length_cons]
    exact Nat.le_succ_of_le ih.counts

end Numbers

theorem numbers (past : List Happening) : Numbers past := by
  induction past with
  | nil =>
    refine ⟨fun t ht => absurd ht List.not_mem_nil, List.nodup_nil, fun t => ?_, Nat.le_refl _⟩
    exact ⟨nofun, fun ht => absurd ht.1 List.not_mem_nil⟩
  | cons h past ih =>
    cases h.turns (after past) with
    | starts hsearch hopen hnew hnext => exact ih.starts hsearch hopen hnew hnext
    | closes _ hclose hnext =>
      subst hclose
      exact ih.closes hnext
    | keeps hsearch hopen hnext => exact ih.keeps hsearch hopen hnext

/-- Every result stands at one place at most: with its search, in the queue, or with the editor. -/
theorem flow_subperm (past : List Happening) :
    ((after past).inFlight ++ (delivered past).filterMap (·.generation?)).Subperm
      ((started past).map (·.generation)) := by
  induction past with
  | nil => exact List.nil_subperm
  | cons h past ih =>
    have hstep := (h.flows (after past)).generations
    -- What happens now comes before what the editor got earlier, and a start in front of both.
    have hlater := (List.subperm_append_right ((delivered past).filterMap (·.generation?))).2 hstep
    simp only [delivered, List.filterMap_append, started, List.map_append]
    rw [← List.append_assoc]
    refine hlater.trans ?_
    rw [List.append_assoc]
    exact (List.subperm_append_left _).2 ih

theorem searches_started (past : List Happening) :
    ∀ t ∈ (after past).searches, t ∈ started past := by
  induction past with
  | nil => exact fun t ht => absurd ht List.not_mem_nil
  | cons h past ih =>
    intro t ht
    refine List.mem_append.2 ?_
    rcases (h.flows (after past)).searches t ht with ht | ht
    · exact Or.inr (ih t ht)
    · exact Or.inl (Option.mem_toList.2 ht)

/-- Every result reports on a search that was started. -/
theorem queue_reports (past : List Happening) : ∀ e ∈ (after past).queue,
    e.generation? = none ∨ ∃ t ∈ started past, t.Reports e := by
  induction past with
  | nil => exact fun e he => absurd he List.not_mem_nil
  | cons h past ih =>
    have hearlier : ∀ t ∈ started past, t ∈ started (h :: past) :=
      fun t ht => List.mem_append_right _ ht
    intro e he
    rcases (h.flows (after past)).events e (List.mem_append_left _ he) with
      hqueue | hnone | ⟨t, ht, hreports⟩
    · exact (ih e hqueue).imp id fun ⟨t, ht, hreports⟩ => ⟨t, hearlier t ht, hreports⟩
    · exact Or.inl hnone
    · exact Or.inr ⟨t, hearlier t (searches_started past t ht), hreports⟩

/-- An event that is not stale reports on the search that is shown, or belongs to no preview. -/
theorem isCurrent_iff (hreports : e.generation? = none ∨ ∃ t ∈ started past, t.Reports e) :
    (after past).isCurrent e = true
      ↔ e.generation? = none ∨ ∃ t, shown? past = some t ∧ t.Reports e := by
  have hnumbers := numbers past
  rcases hreports with hnone | ⟨t, ht, hreports⟩
  · simp [isCurrent, hnone]
  · have hgeneration := hreports.generation?_eq
    constructor
    · intro hcurrent
      refine Or.inr ⟨t, (hnumbers.shown_iff t).2 ⟨ht, ?_⟩, hreports⟩
      simpa [isCurrent, hgeneration] using hcurrent
    · intro hshown
      rcases hshown with hnone | ⟨u, hu, hureports⟩
      · simp [hnone] at hgeneration
      · have heq := ((hnumbers.shown_iff u).1 hu).2
        have hsame := Option.some.inj (hgeneration.symm.trans hureports.generation?_eq)
        simp [isCurrent, hgeneration, hsame, heq]

end Workers

open Workers in
/-- What the editor gets of its previews, whatever has happened before. -/
structure PreviewsInTime (past : List Happening) : Prop where
  /-- What is received of a preview reports on the one that is shown. -/
  current : ∀ (h : Happening), ∀ e ∈ h.delivers (after past),
    e.generation? = none ∨ ∃ t, shown? past = some t ∧ t.Reports e
  /-- No search is reported on twice. -/
  once : ∀ t ∈ started past,
    (delivered past).countP (·.generation? = some t.generation) ≤ 1
  /-- A generation tells which search is reported on. -/
  distinct : ((started past).map (·.generation)).Nodup
  /-- What reports on the search that is shown is not thrown away. -/
  complete : ∀ e ∈ (after past).queue,
    (e.generation? = none ∨ ∃ t, shown? past = some t ∧ t.Reports e) →
      e ∈ Happening.receiveAll.delivers (after past)
  /-- A counter of 64 bits tells the searches apart as well. -/
  narrow : past.length < UInt64.size → ∀ t ∈ started past,
    UInt64.ofNat t.generation = UInt64.ofNat (after past).generation ↔ shown? past = some t

open Workers in
/-- The editor gets no stale result of a preview, no result twice and no more places than it asked
for, in whichever order searches are started, closed and ended and events are received. -/
theorem previews_in_time (past : List Happening) : PreviewsInTime past := by
  have hnumbers := numbers past
  have hreports := queue_reports past
  refine ⟨?_, ?_, hnumbers.distinct, ?_, ?_⟩
  · intro h e he
    have hflows := h.flows (after past)
    refine (isCurrent_iff ?_).1 (hflows.current e he)
    rcases hflows.events e (List.mem_append_right _ he) with hqueue | hnone | ⟨t, ht, hreport⟩
    · exact hreports e hqueue
    · exact Or.inl hnone
    · exact Or.inr ⟨t, searches_started past t ht, hreport⟩
  · intro t _
    have hnodup : ((delivered past).filterMap (·.generation?)).Nodup := by
      obtain ⟨row, hperm, hsublist⟩ := flow_subperm past
      have hall := hperm.nodup_iff.1 (hnumbers.distinct.sublist hsublist)
      exact (List.nodup_append.1 hall).2.1
    have hcount := List.nodup_iff_count_le_one.1 hnodup t.generation
    rw [List.count, List.countP_filterMap] at hcount
    refine Nat.le_trans (List.countP_mono_left fun e _ he => ?_) hcount
    simp [of_decide_eq_true he]
  · intro e he hcurrent
    exact List.mem_filter.2 ⟨he, (isCurrent_iff (hreports e he)).2 hcurrent⟩
  · intro hlength t ht
    have hissued := hnumbers.issued t ht
    have hcounts := hnumbers.counts
    rw [hnumbers.shown_iff t]
    constructor
    · intro heq
      refine ⟨ht, ?_⟩
      have hvalue := congrArg UInt64.toNat heq
      rwa [UInt64.toNat_ofNat_of_lt' (by omega), UInt64.toNat_ofNat_of_lt' (by omega)] at hvalue
    · exact fun h => congrArg UInt64.ofNat h.2

end ImageScript
