import Mathlib.Logic.Function.Iterate
import ImageScript.Files.Store
import ImageScript.Proofs.Edit.Operations

/-!
# The timeline of a session

The rows of segments that a session has been through, kept beside it by an observer who sees the
results of its operations and the segments after them. Undo leads back along this timeline and redo
forth again, exactly, in every state that a session can reach. One step alone cannot be undone: the
insertion of no text within a character. Undo reports its position as invalid and gives the step up.

Main statements: `Tracks.run`, `Tracks.travelTimes`, `undo_redo_exact`.
-/

namespace ImageScript

open Segment

/-- The rows before the steps that can be undone, newest first, the present row, and the rows behind
the steps that can be redone. -/
structure Timeline where
  past : List (List Segment)
  present : List Segment
  future : List (List Segment)
deriving DecidableEq

namespace Timeline

def start (row : List Segment) : Timeline := ⟨[], row, []⟩

/-- A new step forgets what was undone, and the oldest rows beyond the depth of the history. -/
def extend (t : Timeline) (row : List Segment) : Timeline :=
  ⟨(t.present :: t.past).take Session.undoLevels, row, []⟩

def back : Timeline → Timeline
  | ⟨row :: past, present, future⟩ => ⟨past, row, present :: future⟩
  | t => t

def forth : Timeline → Timeline
  | ⟨past, present, row :: future⟩ => ⟨present :: past, row, future⟩
  | t => t

/-- The newest step is given up, and the present stays. -/
def giveUp (t : Timeline) : Timeline := { t with past := t.past.tail }

/-- The timeline behind an operation with its result. -/
def after {σ : Type} (t : Timeline) (op : Operation) :
    EStateM.Result EditError (Desk σ) Bool → Timeline
  | .ok false _ => t
  | .ok true desk =>
    match op with
    | .undo => t.back
    | .redo => t.forth
    | _ => t.extend desk.session.document.segments
  | .error _ _ =>
    match op with
    | .undo => t.giveUp
    | _ => t

end Timeline

section

variable {σ : Type} [FileSystem σ]

/-- The sessions that can be reached by operations on one that was opened, with their timelines. -/
inductive Reachable : Desk σ → Timeline → Prop where
  | opened {b : Bundle} {options : EditorOptions} {files : σ} {session : Session}
      (h : Session.load b options files = .ok session) :
      Reachable ⟨session, files⟩ (.start session.document.segments)
  | step {desk : Desk σ} {t : Timeline} (h : Reachable desk t) (op : Operation) :
      Reachable (stateOf (op.run desk)) (t.after op (op.run desk))

/-- Whether the newest step inserted no text within a character. -/
def NewestIsBlind (desk : Desk σ) : Prop :=
  ∃ b ∈ desk.session.draft.history.undoable.head?, b.IsBlind desk.session.document.segments

/-- Carries out operations in turn, and moves the timeline with them. -/
def carryOut : List Operation → Desk σ × Timeline → Desk σ × Timeline
  | [], run => run
  | op :: ops, (desk, t) => carryOut ops (stateOf (op.run desk), t.after op (op.run desk))

namespace Reachable

variable {desk : Desk σ} {t : Timeline}

theorem carryOut (h : Reachable desk t) (ops : List Operation) :
    Reachable (carryOut ops (desk, t)).1 (carryOut ops (desk, t)).2 := by
  induction ops generalizing desk t with
  | nil => exact h
  | cons op ops ih => exact ih (h.step op)

theorem moved (h : Reachable desk t) (op : Operation)
    {result : EStateM.Result EditError (Desk σ) Bool} (hrun : op.run desk = result) :
    Reachable (stateOf result) (t.after op result) := by
  rw [← hrun]
  exact h.step op

end Reachable

end

/-! ### Histories along a timeline -/

/-- Whether steps, newest first, lead from past rows to the present one. -/
inductive Behind : List Batch → List (List Segment) → List Segment → Prop where
  | nil (row : List Segment) : Behind [] [] row
  | cons {b : Batch} {bs : List Batch} {row row' : List Segment} {rows : List (List Segment)}
      (joins : b.Joins row' row) (rest : Behind bs rows row') : Behind (b :: bs) (row' :: rows) row

/-- Whether undone steps, the last undone first, lead from the present row to future ones. -/
inductive Ahead : List Batch → List (List Segment) → List Segment → Prop where
  | nil (row : List Segment) : Ahead [] [] row
  | cons {b : Batch} {bs : List Batch} {row row' : List Segment} {rows : List (List Segment)}
      (leads : Leads row b.changes row') (rest : Ahead bs rows row') :
      Ahead (b :: bs) (row' :: rows) row

theorem Behind.take {bs : List Batch} {rows : List (List Segment)} {row : List Segment}
    (h : Behind bs rows row) (n : Nat) : Behind (bs.take n) (rows.take n) row := by
  induction h generalizing n with
  | nil row => simpa using Behind.nil row
  | cons joins _ ih =>
    cases n with
    | zero => exact .nil _
    | succ n => exact .cons joins (ih n)

theorem Behind.length_eq {bs : List Batch} {rows : List (List Segment)} {row : List Segment}
    (h : Behind bs rows row) : bs.length = rows.length := by
  induction h with
  | nil => rfl
  | cons _ _ ih => rw [List.length_cons, List.length_cons, ih]

/-- What a session and its timeline have in common after every operation. -/
structure Tracks {σ : Type} (desk : Desk σ) (t : Timeline) : Prop where
  ready : desk.session.draft.Ready
  levels : desk.session.draft.history.maxLevels = Session.undoLevels
  present_eq : desk.session.document.segments = t.present
  behind : Behind desk.session.draft.history.undoable t.past t.present
  ahead : Ahead desk.session.draft.history.redoable t.future t.present
  depth : t.past.length + t.future.length ≤ Session.undoLevels
  normal : ∀ row ∈ t.past ++ t.future, IsNormal row
  owned : ∀ row ∈ t.past ++ t.future, desk.session.document.ids.OwnsAll row

namespace Tracks

variable {σ : Type} [FileSystem σ] {desk desk' : Desk σ} {t : Timeline}

omit [FileSystem σ] in
theorem stays (h : Tracks desk t)
    (hs : desk.session.draft.Stays desk'.session.draft) : Tracks desk' t := by
  refine ⟨hs.ready, hs.levels_eq.trans h.levels, hs.row_eq.trans h.present_eq, ?_, ?_, h.depth,
    h.normal, fun row hrow => (h.owned row hrow).grow hs.grows⟩
  · rw [hs.undoable_eq]
    exact h.behind
  · rw [hs.redoable_eq]
    exact h.ahead

omit [FileSystem σ] in
theorem push_eq (h : Tracks desk t) (b : Batch) :
    (desk.session.draft.history.push b).undoable
        = (b :: desk.session.draft.history.undoable).take Session.undoLevels
      ∧ (desk.session.draft.history.push b).redoable = []
      ∧ (desk.session.draft.history.push b).maxLevels = Session.undoLevels := by
  have hdepth := h.depth
  have hlevels : 0 < desk.session.draft.history.maxLevels := by
    rw [h.levels]
    decide
  have hlength : desk.session.draft.history.undoable.length
      ≤ desk.session.draft.history.maxLevels := by
    rw [h.behind.length_eq, h.levels]
    omega
  have hpush := History.push_eq b hlevels hlength
  rwa [h.levels] at hpush

omit [FileSystem σ] in
theorem advances (h : Tracks desk t) (ha : desk.session.draft.Advances desk'.session.draft) :
    Tracks desk' (t.extend desk'.session.document.segments) := by
  obtain ⟨batch, hhistory, hjoins⟩ := ha.stepped
  obtain ⟨hundoable, hredoable, hmax⟩ := h.push_eq batch
  have hmem : ∀ row ∈ (t.present :: t.past).take Session.undoLevels ++ [],
      row = t.present ∨ row ∈ t.past ++ t.future := by
    intro row hrow
    rw [List.append_nil] at hrow
    rcases List.mem_cons.1 (List.mem_of_mem_take hrow) with hrow | hrow
    · exact Or.inl hrow
    · exact Or.inr (List.mem_append_left _ hrow)
  refine ⟨ha.ready, by rw [hhistory, hmax], rfl, ?_, ?_, ?_, ?_, ?_⟩
  · rw [hhistory, hundoable]
    refine Behind.take (.cons ?_ h.behind) _
    rw [← h.present_eq]
    exact hjoins
  · rw [hhistory, hredoable]
    exact .nil _
  · simp only [Timeline.extend, List.length_take, List.length_nil]
    omega
  · intro row hrow
    rcases hmem row hrow with rfl | hrow
    · rw [← h.present_eq]
      exact h.ready.normal
    · exact h.normal row hrow
  · intro row hrow
    rcases hmem row hrow with rfl | hrow
    · rw [← h.present_eq]
      exact h.ready.owned.grow ha.grows
    · exact (h.owned row hrow).grow ha.grows

omit [FileSystem σ] in
theorem undo_nothing (h : Tracks desk t) (hpast : t.past = []) :
    Session.undo desk = .ok false desk := by
  have hbehind := h.behind
  rw [hpast] at hbehind
  have hundoable : desk.session.draft.history.undoable = [] := by
    cases hb : desk.session.draft.history.undoable with
    | nil => rfl
    | cons b bs =>
      rw [hb] at hbehind
      cases hbehind
  have hclean : desk.session.draft.document.markClean = desk.session.draft.document := by
    unfold Document.markClean
    rw [← h.ready.clean]
  unfold Session.undo Session.travel Session.onDraft Draft.undo
  simp only [hundoable, hclean]

omit [FileSystem σ] in
/-- What a travel to a row of the timeline leaves. -/
theorem travelled (h : Tracks desk t) {e : Document} {t' : Timeline} {undoable redoable : List Batch}
    (hrow : e.segments = t'.present) (hids : e.ids = desk.session.document.ids)
    (hmem : t'.present ∈ t.past ++ t.future)
    (hrows : ∀ r ∈ t'.past ++ t'.future, r = t.present ∨ r ∈ t.past ++ t.future)
    (hdepth : t'.past.length + t'.future.length ≤ Session.undoLevels)
    (hbehind : Behind undoable t'.past t'.present) (hahead : Ahead redoable t'.future t'.present) :
    Tracks { desk with session := { desk.session with draft := ⟨e.markClean,
      { desk.session.draft.history with undoable, redoable }⟩ } } t' := by
  refine ⟨⟨?_, rfl, ?_, h.ready.idle⟩, h.levels, hrow, hbehind, hahead, hdepth, ?_, ?_⟩
  · show IsNormal e.segments
    rw [hrow]
    exact h.normal _ hmem
  · show e.ids.OwnsAll e.segments
    rw [hrow, hids]
    exact h.owned _ hmem
  · intro r hr
    rcases hrows r hr with rfl | hr
    · rw [← h.present_eq]
      exact h.ready.normal
    · exact h.normal r hr
  · intro r hr
    show e.ids.OwnsAll r
    rw [hids]
    rcases hrows r hr with rfl | hr
    · rw [← h.present_eq]
      exact h.ready.owned
    · exact h.owned r hr

omit [FileSystem σ] in
/-- Undoing a step leads to the row before it. -/
theorem undo_step (h : Tracks desk t) {row : List Segment} {past : List (List Segment)}
    (hpast : t.past = row :: past) (hblind : ¬ NewestIsBlind desk) :
    ∃ desk', Session.undo desk = .ok true desk' ∧ Tracks desk' t.back := by
  obtain ⟨past', present, future⟩ := t
  dsimp only at hpast
  subst hpast
  have hbehind := h.behind
  have hdepth := h.depth
  have hpresent := h.present_eq
  dsimp only at hbehind hdepth hpresent
  cases hb : desk.session.draft.history.undoable with
  | nil =>
    rw [hb] at hbehind
    cases hbehind
  | cons b bs =>
    rw [hb] at hbehind
    cases hbehind with
    | cons joins rest =>
      have hleads : Leads row b.changes present := by
        rcases joins with hleads | ⟨hisBlind, rfl⟩
        · exact hleads
        · refine absurd ⟨b, ?_, ?_⟩ hblind
          · rw [hb]
            rfl
          · rwa [hpresent]
      obtain ⟨e, hrevert, hrow, hids⟩ := hleads.revert hpresent
      have hrevert' : b.revert desk.session.draft.document = (e, none) := hrevert
      have hdone : Session.undo desk = .ok true { desk with session := { desk.session with
          draft := ⟨e.markClean, { desk.session.draft.history with
            undoable := bs, redoable := b :: desk.session.draft.history.redoable }⟩ } } := by
        unfold Session.undo Session.travel Session.onDraft Draft.undo
        simp only [hb, hrevert']
      refine ⟨_, hdone, h.travelled hrow hids ?_ ?_ ?_ rest (.cons hleads h.ahead)⟩
      · exact List.mem_append_left _ (List.mem_cons_self ..)
      · intro r hr
        rcases List.mem_append.1 hr with hr | hr
        · exact Or.inr (List.mem_append_left _ (List.mem_cons_of_mem _ hr))
        · rcases List.mem_cons.1 hr with rfl | hr
          · exact Or.inl rfl
          · exact Or.inr (List.mem_append_right _ hr)
      · simp only [Timeline.back, List.length_cons] at hdepth ⊢
        omega

omit [FileSystem σ] in
/-- The one step that cannot be undone is given up, with nothing to take back. -/
theorem undo_blind (h : Tracks desk t) (hblind : NewestIsBlind desk) :
    t.past.head? = some t.present ∧ ∃ pos desk',
      Session.undo desk = .error (.invalidPosition pos desk.session.document.len) desk'
        ∧ Tracks desk' t.giveUp := by
  obtain ⟨b, hb, hisBlind⟩ := hblind
  obtain ⟨past, present, future⟩ := t
  have hbehind := h.behind
  have hdepth := h.depth
  have hpresent := h.present_eq
  dsimp only at hbehind hdepth hpresent
  cases hu : desk.session.draft.history.undoable with
  | nil => simp [hu] at hb
  | cons b' bs =>
    have heq : b' = b := by simpa [hu] using hb
    subst heq
    rw [hu] at hbehind
    obtain ⟨pos, hrevert⟩ := Batch.IsBlind.revert hisBlind
    unfold Session.document at hrevert
    cases hbehind with
    | cons joins rest =>
      rename_i row rows
      have hrow : present = row := by
        rcases joins with hleads | ⟨-, heq⟩
        · obtain ⟨e, hok, -, -⟩ := hleads.revert hpresent
          have hok' : b'.revert desk.session.document = (e, none) := hok
          unfold Session.document at hok'
          rw [hrevert] at hok'
          simp at hok'
        · exact heq
      subst hrow
      refine ⟨rfl, pos, { desk with session := { desk.session with draft :=
        ⟨desk.session.document, { desk.session.draft.history with undoable := bs }⟩ } }, ?_, ?_⟩
      · unfold Session.undo Session.travel Session.onDraft Draft.undo
        simp only [hu, hrevert]
        rfl
      · have hsub : ∀ r ∈ rows ++ future, r ∈ present :: rows ++ future :=
          fun r hr => List.mem_cons_of_mem _ hr
        refine ⟨⟨h.ready.normal, h.ready.clean, h.ready.owned, h.ready.idle⟩, h.levels, hpresent,
          rest, h.ahead, ?_, fun r hr => h.normal r (hsub r hr), fun r hr => h.owned r (hsub r hr)⟩
        simp only [Timeline.giveUp, List.tail_cons, List.length_cons] at hdepth ⊢
        omega

omit [FileSystem σ] in
theorem redo_nothing (h : Tracks desk t) (hfuture : t.future = []) :
    Session.redo desk = .ok false desk := by
  have hahead := h.ahead
  rw [hfuture] at hahead
  have hredoable : desk.session.draft.history.redoable = [] := by
    cases hb : desk.session.draft.history.redoable with
    | nil => rfl
    | cons b bs =>
      rw [hb] at hahead
      cases hahead
  have hclean : desk.session.draft.document.markClean = desk.session.draft.document := by
    unfold Document.markClean
    rw [← h.ready.clean]
  unfold Session.redo Session.travel Session.onDraft Draft.redo
  simp only [hredoable, hclean]

omit [FileSystem σ] in
/-- Redoing a step leads to the row behind it. -/
theorem redo_step (h : Tracks desk t) {row : List Segment} {future : List (List Segment)}
    (hfuture : t.future = row :: future) :
    ∃ desk', Session.redo desk = .ok true desk' ∧ Tracks desk' t.forth := by
  obtain ⟨past, present, future'⟩ := t
  dsimp only at hfuture
  subst hfuture
  have hahead := h.ahead
  have hdepth := h.depth
  have hpresent := h.present_eq
  dsimp only at hahead hdepth hpresent
  cases hb : desk.session.draft.history.redoable with
  | nil =>
    rw [hb] at hahead
    cases hahead
  | cons b bs =>
    rw [hb] at hahead
    cases hahead with
    | cons leads rest =>
      obtain ⟨e, hreplay, hrow, hids⟩ := leads.replay hpresent
      have hreplay' : b.replay desk.session.draft.document = (e, none) := hreplay
      have hdone : Session.redo desk = .ok true { desk with session := { desk.session with
          draft := ⟨e.markClean, { desk.session.draft.history with
            undoable := b :: desk.session.draft.history.undoable, redoable := bs }⟩ } } := by
        unfold Session.redo Session.travel Session.onDraft Draft.redo
        simp only [hb, hreplay']
      refine ⟨_, hdone, h.travelled hrow hids ?_ ?_ ?_ (.cons (Or.inl leads) h.behind) rest⟩
      · exact List.mem_append_right _ (List.mem_cons_self ..)
      · intro r hr
        rcases List.mem_append.1 hr with hr | hr
        · rcases List.mem_cons.1 hr with rfl | hr
          · exact Or.inl rfl
          · exact Or.inr (List.mem_append_left _ hr)
        · exact Or.inr (List.mem_append_right _ (List.mem_cons_of_mem _ hr))
      · simp only [Timeline.forth, List.length_cons] at hdepth ⊢
        omega

theorem opened {b : Bundle} {options : EditorOptions} {files : σ} {session : Session}
    (h : Session.load b options files = .ok session) :
    Tracks (⟨session, files⟩ : Desk σ) (.start session.document.segments) := by
  obtain ⟨text, -, h⟩ := Mutation.ok_of_bind h
  cases h
  refine ⟨⟨?_, rfl, ?_, rfl⟩, rfl, rfl, .nil _, .nil _, Nat.zero_le _, by simp [Timeline.start],
    by simp [Timeline.start]⟩
  · exact Synthesis.isNormal_build ..
  · exact (Synthesis.build_owned ..).2

/-- Every operation moves the timeline as its result says. -/
theorem run (h : Tracks desk t) (op : Operation) :
    Tracks (stateOf (op.run desk)) (t.after op (op.run desk)) := by
  by_cases hu : op = .undo
  · subst hu
    show Tracks (stateOf (Session.undo desk)) (t.after .undo (Session.undo desk))
    cases hpast : t.past with
    | nil =>
      rw [h.undo_nothing hpast]
      exact h
    | cons row past =>
      by_cases hblind : NewestIsBlind desk
      · obtain ⟨-, pos, desk', hundo, htracks⟩ := h.undo_blind hblind
        rw [hundo]
        exact htracks
      · obtain ⟨desk', hundo, htracks⟩ := h.undo_step hpast hblind
        rw [hundo]
        exact htracks
  · by_cases hr : op = .redo
    · subst hr
      show Tracks (stateOf (Session.redo desk)) (t.after .redo (Session.redo desk))
      cases hfuture : t.future with
      | nil =>
        rw [h.redo_nothing hfuture]
        exact h
      | cons row future =>
        obtain ⟨desk', hredo, htracks⟩ := h.redo_step hfuture
        rw [hredo]
        exact htracks
    · have hevolved := Operation.run_evolved h.ready op hu hr
      cases hrun : op.run desk with
      | error e desk' =>
        rw [hrun] at hevolved
        have hafter : t.after op (.error e desk') = t := by
          cases op <;> first | rfl | exact absurd rfl hu
        rw [hafter]
        exact h.stays hevolved
      | ok changed desk' =>
        rw [hrun] at hevolved
        cases changed with
        | false => exact h.stays hevolved
        | true =>
          have hafter : t.after op (.ok true desk') = t.extend desk'.session.document.segments := by
            cases op <;> first | rfl | exact absurd rfl hu | exact absurd rfl hr
          rw [hafter]
          exact h.advances hevolved

theorem of_reachable (h : Reachable desk t) : Tracks desk t := by
  induction h with
  | opened h => exact opened h
  | step _ op ih => exact ih.run op

end Tracks

/-! ### Travelling several times -/

/-- Travels `n` times, and counts the steps that were made; travels that fail are passed over. -/
def travelTimes {σ : Type} (travel : EStateM EditError (Desk σ) Bool) : Nat → Desk σ → Desk σ × Nat
  | 0, desk => (desk, 0)
  | n + 1, desk =>
    match travel desk with
    | .ok done desk =>
      let (last, steps) := travelTimes travel n desk
      (last, if done then steps + 1 else steps)
    | .error _ desk => travelTimes travel n desk

namespace Timeline

theorem future_forth (t : Timeline) : t.forth.future = t.future.tail := by
  obtain ⟨past, present, future⟩ := t
  cases future <;> rfl

theorem present_forth {t : Timeline} {row : List Segment} {future : List (List Segment)}
    (h : t.future = row :: future) : t.forth.present = row := by
  obtain ⟨past, present, future'⟩ := t
  dsimp only at h
  rw [h]
  rfl

theorem present_back {t : Timeline} {row : List Segment} {past : List (List Segment)}
    (h : t.past = row :: past) : t.back.present = row := by
  obtain ⟨past', present, future⟩ := t
  dsimp only at h
  rw [h]
  rfl

theorem future_back {t : Timeline} {row : List Segment} {past : List (List Segment)}
    (h : t.past = row :: past) : t.back.future = t.present :: t.future := by
  obtain ⟨past', present, future⟩ := t
  dsimp only at h
  rw [h]
  rfl

theorem future_forth_iterate (t : Timeline) (n : Nat) :
    (forth^[n] t).future = t.future.drop n := by
  induction n with
  | zero => rfl
  | succ n ih => rw [Function.iterate_succ_apply', future_forth, ih, List.tail_drop]

end Timeline

namespace Tracks

variable {σ : Type} {desk : Desk σ} {t : Timeline}

/-- After some undos the way forth leads through the present again. -/
theorem undoTimes (h : Tracks desk t) (n : Nat) :
    ∃ t', Tracks (travelTimes Session.undo n desk).1 t'
      ∧ (travelTimes Session.undo n desk).2 ≤ t'.future.length
      ∧ (Timeline.forth^[(travelTimes Session.undo n desk).2] t').present = t.present
      ∧ (Timeline.forth^[(travelTimes Session.undo n desk).2] t').future = t.future := by
  induction n generalizing desk t with
  | zero => exact ⟨t, h, Nat.zero_le _, rfl, rfl⟩
  | succ n ih =>
    cases hpast : t.past with
    | nil =>
      simp only [travelTimes, h.undo_nothing hpast]
      exact ih h
    | cons row past =>
      by_cases hblind : NewestIsBlind desk
      · obtain ⟨-, pos, desk', hundo, htracks⟩ := h.undo_blind hblind
        have hrest := ih htracks
        simp only [travelTimes, hundo]
        exact hrest
      · obtain ⟨desk', hundo, htracks⟩ := h.undo_step hpast hblind
        obtain ⟨t', htracks', hle, hpresent, hfuture⟩ := ih htracks
        simp only [travelTimes, hundo, if_true]
        rw [Timeline.future_back hpast] at hfuture
        refine ⟨t', htracks', ?_, ?_, ?_⟩
        · have hdrop := hfuture
          rw [Timeline.future_forth_iterate] at hdrop
          have hlength := congrArg List.length hdrop
          rw [List.length_drop, List.length_cons] at hlength
          omega
        · rw [Function.iterate_succ_apply']
          exact Timeline.present_forth hfuture
        · rw [Function.iterate_succ_apply', Timeline.future_forth, hfuture, List.tail_cons]

theorem redoTimes (h : Tracks desk t) {n : Nat} (hn : n ≤ t.future.length) :
    ∃ desk', travelTimes Session.redo n desk = (desk', n) ∧ Tracks desk' (Timeline.forth^[n] t) := by
  induction n generalizing desk t with
  | zero => exact ⟨desk, rfl, h⟩
  | succ n ih =>
    cases hfuture : t.future with
    | nil =>
      rw [hfuture] at hn
      simp at hn
    | cons row future =>
      obtain ⟨desk', hredo, htracks⟩ := h.redo_step hfuture
      have hlen : n ≤ t.forth.future.length := by
        rw [Timeline.future_forth, hfuture, List.tail_cons]
        rw [hfuture, List.length_cons] at hn
        omega
      obtain ⟨last, htimes, hlast⟩ := ih htracks hlen
      refine ⟨last, ?_, ?_⟩
      · simp only [travelTimes, hredo, htimes, if_true]
      · rw [Function.iterate_succ_apply]
        exact hlast

end Tracks

/-- Undo and redo as the timeline has it: they fail nowhere but where the newest step is blind, lead
to the neighbouring rows, and as many redos as steps were undone lead back to the present. -/
structure TravelsExactly {σ : Type} (desk : Desk σ) (t : Timeline) : Prop where
  present_eq : desk.session.document.segments = t.present
  undo_nothing : t.past = [] → Session.undo desk = .ok false desk
  undo_step : ∀ row past, t.past = row :: past → ¬ NewestIsBlind desk →
    ∃ desk', Session.undo desk = .ok true desk' ∧ desk'.session.document.segments = row
  undo_blind : NewestIsBlind desk → t.past.head? = some t.present ∧ ∃ pos desk',
    Session.undo desk = .error (.invalidPosition pos desk.session.document.len) desk'
      ∧ desk'.session.document.segments = t.present
  redo_nothing : t.future = [] → Session.redo desk = .ok false desk
  redo_step : ∀ row future, t.future = row :: future →
    ∃ desk', Session.redo desk = .ok true desk' ∧ desk'.session.document.segments = row
  round_trip : ∀ n, ∃ desk',
    travelTimes Session.redo (travelTimes Session.undo n desk).2 (travelTimes Session.undo n desk).1
        = (desk', (travelTimes Session.undo n desk).2)
      ∧ desk'.session.document.segments = t.present

section

variable {σ : Type} [FileSystem σ] {desk : Desk σ} {t : Timeline}

/-- Inserting no text within a character succeeds and makes the step that cannot be undone. -/
theorem newestIsBlind_insertText (h : Reachable desk t) {pos : Nat}
    (hpos : pos ≤ desk.session.document.len)
    (huncut : ¬ ∃ x z, Cut desk.session.document.segments pos pos x [] z) :
    ∃ desk', Session.insertText pos [] desk = .ok () desk' ∧ NewestIsBlind desk'
      ∧ desk'.session.document = desk.session.document := by
  have htracks := Tracks.of_reachable h
  have hedit := Draft.edit_blind htracks.ready "Typing".toList hpos desk.session.bundle desk.files
  generalize hbatch : (⟨[⟨.insertText pos [], .removeRange pos pos⟩], some "Typing".toList⟩ : Batch)
    = batch at hedit
  obtain ⟨hundoable, -, -⟩ := htracks.push_eq batch
  refine ⟨{ desk with session := { desk.session with draft := { desk.session.draft with
    history := desk.session.draft.history.push batch } } }, ?_, ⟨batch, ?_, ?_⟩, rfl⟩
  · unfold Session.insertText Session.edit
    dsimp only
    rw [hedit]
  · show (desk.session.draft.history.push batch).undoable.head? = some batch
    rw [hundoable]
    rfl
  · rw [← hbatch]
    exact ⟨pos, rfl, hpos, huncut⟩

/-- In every reachable session undo and redo are exact, blind steps apart. -/
theorem undo_redo_exact (h : Reachable desk t) : TravelsExactly desk t := by
  have htracks := Tracks.of_reachable h
  refine ⟨htracks.present_eq, htracks.undo_nothing, ?_, ?_, htracks.redo_nothing, ?_, ?_⟩
  · intro row past hpast hblind
    obtain ⟨desk', hundo, hback⟩ := htracks.undo_step hpast hblind
    refine ⟨desk', hundo, ?_⟩
    rw [hback.present_eq]
    exact Timeline.present_back hpast
  · intro hblind
    obtain ⟨hhead, pos, desk', hundo, hgiveUp⟩ := htracks.undo_blind hblind
    exact ⟨hhead, pos, desk', hundo, hgiveUp.present_eq⟩
  · intro row future hfuture
    obtain ⟨desk', hredo, hforth⟩ := htracks.redo_step hfuture
    refine ⟨desk', hredo, ?_⟩
    rw [hforth.present_eq]
    exact Timeline.present_forth hfuture
  · intro n
    obtain ⟨t', htracks', hle, hpresent, -⟩ := htracks.undoTimes n
    obtain ⟨desk', hredo, hforth⟩ := htracks'.redoTimes hle
    refine ⟨desk', hredo, ?_⟩
    rw [hforth.present_eq]
    exact hpresent

/-- So many letters are typed before a character that the first row is forgotten. The last letter is
taken back and typed again, and then nothing is inserted within the character. -/
theorem undo_redo_exact_trimmed :
    let b := Bundle.ofScript (.ofString "/w/s.py")
    let files := Store.empty.addFile b.script (Text.encode "é".toList)
    let letters (n : Nat) : List Segment := [.text (List.replicate n 'x' ++ "é".toList)]
    let rowsBefore (n depth : Nat) := (List.range depth).map fun i => letters (n - 1 - i)
    let typing : List Operation := List.replicate 101 (.insertText 0 "x".toList)
    ∃ (session : Session) (typed undone redone blind : Desk Store),
      Session.load b .default files = .ok session
        ∧ typed = (carryOut typing (⟨session, files⟩, .start session.document.segments)).1
        ∧ TravelsExactly typed ⟨rowsBefore 101 100, letters 101, []⟩
        ∧ Session.undo typed = .ok true undone
        ∧ TravelsExactly undone ⟨rowsBefore 100 99, letters 100, [letters 101]⟩
        ∧ Session.redo undone = .ok true redone
        ∧ Session.insertText 102 [] redone = .ok () blind
        ∧ NewestIsBlind blind
        ∧ TravelsExactly blind ⟨rowsBefore 102 100, letters 101, []⟩ := by
  intro b files letters rowsBefore typing
  obtain ⟨session, hload, hrows⟩ : ∃ session, Session.load b .default files = .ok session
      ∧ (carryOut typing ((⟨session, files⟩ : Desk Store), .start session.document.segments)).2
        = ⟨rowsBefore 101 100, letters 101, []⟩ := ⟨_, rfl, by decide +kernel⟩
  have htyped := (Reachable.opened hload).carryOut typing
  rw [hrows] at htyped
  generalize hdesk : (carryOut typing ((⟨session, files⟩ : Desk Store),
    .start session.document.segments)).1 = typed at htyped
  have hexact := undo_redo_exact htyped
  -- A blind step would have left the row before it.
  have hseen : ¬ NewestIsBlind typed := by
    intro hblind
    have hsame : some (letters 100) = some (letters 101) := (hexact.undo_blind hblind).1
    exact absurd hsame (by decide)
  obtain ⟨undone, hundo, -⟩ := hexact.undo_step (letters 100) (rowsBefore 100 99) rfl hseen
  have hundone : Reachable undone ⟨rowsBefore 100 99, letters 100, [letters 101]⟩ :=
    htyped.moved .undo hundo
  have hexact' := undo_redo_exact hundone
  obtain ⟨redone, hredo, hrow⟩ := hexact'.redo_step (letters 101) [] rfl
  have hredone : Reachable redone ⟨rowsBefore 101 100, letters 101, []⟩ :=
    hundone.moved .redo hredo
  have hclip : clip? 102 102 (letters 101) = none := by decide +kernel
  have huncut : ¬ ∃ x z, Cut redone.session.document.segments 102 102 x [] z := by
    intro hcut
    obtain ⟨x, z, hcut⟩ := hcut
    rw [hrow] at hcut
    obtain ⟨parts, hparts, -⟩ := exists_clip? hcut
    simp [hclip] at hparts
  have hpos : 102 ≤ redone.session.document.len := by
    unfold Document.len
    rw [hrow]
    decide +kernel
  obtain ⟨blind, hinsert, hblind, hsame⟩ := newestIsBlind_insertText hredone hpos huncut
  have hrun : (Operation.insertText 102 []).run redone = .ok true blind := by
    simp only [Operation.run, bind, EStateM.bind, hinsert]
    rfl
  have hreached : Reachable blind (Timeline.extend ⟨rowsBefore 101 100, letters 101, []⟩
      blind.session.document.segments) := hredone.moved _ hrun
  rw [hsame, hrow] at hreached
  exact ⟨session, typed, undone, redone, blind, hload, hdesk.symm, hexact, hundo, hexact', hredo,
    hinsert, hblind, undo_redo_exact hreached⟩

end

end ImageScript
