import ImageScript.Edit.Session
import ImageScript.Proofs.Document.Identity
import ImageScript.Proofs.Edit.Inverse

/-!
# Steps of the history

A step leads from one row of segments to another and back. Every text edit of a ready draft makes
one such step, the segments that its reparse built included, or changes nothing; the one step that
cannot be taken back is the insertion of no text within a character.

Main statements: `Leads.replay`, `Leads.revert`, `Draft.edit_edited`, `Draft.edit_blind`.
-/

namespace ImageScript

open Segment

/-- Changes that lead from one row to another, each of them exactly. -/
inductive Leads : List Segment → List Change → List Segment → Prop where
  | nil (row : List Segment) : Leads row [] row
  | cons {row mid row' : List Segment} {c : Change} {cs : List Change} (first : c.Exact row mid)
      (rest : Leads mid cs row') : Leads row (c :: cs) row'

namespace Leads

variable {row mid row' : List Segment} {cs ds : List Change} {d : Document}

theorem append (h : Leads row cs mid) (h' : Leads mid ds row') : Leads row (cs ++ ds) row' := by
  induction h with
  | nil => exact h'
  | cons first _ ih => exact .cons first (ih h')

theorem applyAll_append (ms ns : List Mutation) {d e : Document}
    (h : Mutation.applyAll ms d = (e, none)) :
    Mutation.applyAll (ms ++ ns) d = Mutation.applyAll ns e := by
  induction ms generalizing d with
  | nil =>
    simp only [Mutation.applyAll, Prod.mk.injEq, and_true] at h
    rw [h, List.nil_append]
  | cons m ms ih =>
    rw [List.cons_append]
    simp only [Mutation.applyAll] at h ⊢
    split at h
    · next d' hd' => exact ih h
    · simp at h

/-- Making the changes again leads to the row behind them. -/
theorem replay (h : Leads row cs row') (hd : d.segments = row) :
    ∃ e, Mutation.applyAll (cs.map Change.mutation) d = (e, none)
      ∧ e.segments = row' ∧ e.ids = d.ids := by
  induction h generalizing d with
  | nil => exact ⟨d, rfl, hd, rfl⟩
  | cons first _ ih =>
    obtain ⟨d', happly, hrow, hids⟩ := first.forth d hd
    obtain ⟨e, hall, hrow', hids'⟩ := ih hrow
    refine ⟨e, ?_, hrow', hids'.trans hids⟩
    rw [List.map_cons, Mutation.applyAll, happly]
    exact hall

/-- Taking the changes back, the newest first, leads to the row before them. -/
theorem revert (h : Leads row cs row') (hd : d.segments = row') :
    ∃ e, Mutation.applyAll (cs.reverse.map Change.inverse) d = (e, none)
      ∧ e.segments = row ∧ e.ids = d.ids := by
  induction h generalizing d with
  | nil => exact ⟨d, rfl, hd, rfl⟩
  | cons first _ ih =>
    obtain ⟨e, hall, hrow, hids⟩ := ih hd
    obtain ⟨e', happly, hrow', hids'⟩ := first.back e hrow
    refine ⟨e', ?_, hrow', hids'.trans hids⟩
    rw [List.reverse_cons, List.map_append, applyAll_append _ _ hall]
    simp only [List.map_cons, List.map_nil, Mutation.applyAll, happly]

end Leads

/-- Where a row cannot be cut, not even an empty range can be removed. -/
theorem Mutation.removeRange_uncut {d : Document} {pos : Nat} (hpos : pos ≤ totalLen d.segments)
    (huncut : ¬ ∃ x z, Cut d.segments pos pos x [] z) :
    (removeRange pos pos).apply d = .error (d.invalid pos) := by
  have hclip : clip? pos pos d.segments = none := by
    cases hparts : clip? pos pos d.segments with
    | none => rfl
    | some parts =>
      obtain ⟨x, z, hcut⟩ := cut_of_clip? (Nat.le_refl _) hpos hparts
      rw [hcut.eq_nil] at hcut
      exact absurd ⟨x, z, hcut⟩ huncut
  have hrange : d.rangeError? pos pos = none :=
    Document.rangeError?_eq_none_iff.2 ⟨Nat.le_refl _, hpos⟩
  have hvalid : (removeRange pos pos).validate d = .error (d.invalid pos) := by
    simp [validate, Document.segmentsIn, hrange, hclip, Except.map]
  exact (refused_of_validate hvalid).1

namespace Batch

/-- Whether a step inserted no text at a position that cannot be cut. Nothing can be removed there
again. -/
def IsBlind (b : Batch) (row : List Segment) : Prop :=
  ∃ pos, b.changes = [⟨.insertText pos [], .removeRange pos pos⟩] ∧ pos ≤ totalLen row
    ∧ ¬ ∃ x z, Cut row pos pos x [] z

theorem IsBlind.revert {b : Batch} {d : Document} (h : b.IsBlind d.segments) :
    ∃ pos, b.revert d = (d, some (d.invalid pos)) := by
  obtain ⟨pos, hchanges, hpos, huncut⟩ := h
  have hvalid := Mutation.removeRange_uncut hpos huncut
  refine ⟨pos, ?_⟩
  unfold Batch.revert
  rw [hchanges]
  simp only [List.reverse_cons, List.reverse_nil, List.nil_append, List.map_cons, List.map_nil,
    Mutation.applyAll, hvalid]

end Batch

namespace History

theorem building_push (h : History) (b : Batch) : (h.push b).building = h.building := by
  unfold push
  dsimp only
  split <;> rfl

/-- Pushing a step onto a history that keeps its bound. -/
theorem push_eq {h : History} (b : Batch) (hmax : 0 < h.maxLevels)
    (hlen : h.undoable.length ≤ h.maxLevels) :
    (h.push b).undoable = (b :: h.undoable).take h.maxLevels ∧ (h.push b).redoable = []
      ∧ (h.push b).maxLevels = h.maxLevels := by
  unfold push
  dsimp only
  split
  · next hlong =>
    simp only [List.length_cons] at hlong
    have hlen' : h.undoable.length = h.maxLevels := by omega
    refine ⟨?_, rfl, rfl⟩
    rw [List.dropLast_eq_take, List.length_cons, Nat.add_sub_cancel, hlen']
  · next hshort =>
    simp only [List.length_cons] at hshort
    refine ⟨?_, rfl, rfl⟩
    rw [List.take_of_length_le]
    rw [List.length_cons]
    omega

end History

/-! ### Recording -/

namespace Mutation

/-- Whether mutations are made one after another where each can be taken back. -/
def AreInvertible : List Mutation → Document → Prop
  | [], _ => True
  | m :: ms, d => ∀ e, m.apply d = .ok e → m.IsInvertible d.segments ∧ AreInvertible ms e

theorem areInvertible_removeRange (lo hi : Nat) (d : Document) :
    AreInvertible [removeRange lo hi] d :=
  fun _ _ => ⟨trivial, trivial⟩

theorem areInvertible_insertText {pos : Nat} {s : Text} {d : Document}
    (h : s ≠ [] ∨ totalLen d.segments < pos ∨ ∃ x z, Cut d.segments pos pos x [] z) :
    AreInvertible [insertText pos s] d := by
  intro e he
  refine ⟨?_, trivial⟩
  rcases h with hs | hpos | hcut
  · exact Or.inl hs
  · obtain ⟨_, hvalid, -⟩ := ok_of_bind he
    have hpos' : d.len < pos := hpos
    simp [validate, hpos'] at hvalid
  · exact Or.inr hcut

/-- Where a range was removed, the row can be cut. -/
theorem areInvertible_replaceRange {lo hi : Nat} {s : Text} {d : Document}
    (hn : IsNormal d.segments) : AreInvertible [removeRange lo hi, insertText lo s] d := by
  intro e he
  refine ⟨trivial, areInvertible_insertText (Or.inr (Or.inr ?_))⟩
  obtain ⟨_, hvalid, -⟩ := ok_of_bind he
  obtain ⟨parts, hparts, -⟩ := ok_of_map hvalid
  obtain ⟨x, z, hcut⟩ := Document.cut_of_segmentsIn hparts
  obtain ⟨hrow, -⟩ := (takes_removeRange hn hcut).unique rfl he
  refine ⟨x, z, ?_, hcut.start_eq, ?_⟩
  · rw [hrow, atoms_toRow, List.append_nil]
  · rw [List.append_nil, hcut.start_eq]

theorem areInvertible_insertSegments {pos : Nat} {inserted : List Segment} (d : Document)
    (h : inserted ≠ []) : AreInvertible [insertSegments pos inserted] d :=
  fun _ _ => ⟨Or.inl h, trivial⟩

end Mutation

namespace Draft

theorem of_apply {d d' : Draft} {m : Mutation} (h : d.apply m = .ok d') :
    ∃ inverse, m.inverse d.document = .ok inverse ∧ m.apply d.document = .ok d'.document
      ∧ d'.history = d.history.record ⟨m, inverse⟩ := by
  obtain ⟨inverse, hinverse, h⟩ := Mutation.ok_of_bind h
  obtain ⟨document, happly, h⟩ := Mutation.ok_of_bind h
  cases h
  exact ⟨inverse, hinverse, happly, rfl⟩

/-- What mutations made within a batch add to it. -/
structure Recorded (ms : List Mutation) (d d' : Document) (cs : List Change)
    (error : Option EditError) : Prop where
  leads : Leads d.segments cs d'.segments
  normal : IsNormal d'.segments
  ids_eq : d'.ids = d.ids
  idsOf_subset : ∀ id ∈ idsOf d'.segments, id ∈ idsOf d.segments ∨ ∃ m ∈ ms, id ∈ m.newIds
  changes_ne_nil : error = none → ms ≠ [] → cs ≠ []

theorem applyAll_recorded (ms : List Mutation) (d : Document) (h : History) (b : Batch)
    (hn : IsNormal d.segments) (hi : Mutation.AreInvertible ms d) :
    ∃ d' cs error, applyAll ms ⟨d, { h with building := some b }⟩
        = (⟨d', { h with building := some ⟨b.changes ++ cs, b.description⟩ }⟩, error)
      ∧ Recorded ms d d' cs error := by
  induction ms generalizing d b with
  | nil =>
    refine ⟨d, [], none, by simp [applyAll], .nil _, hn, rfl, fun _ => Or.inl, ?_⟩
    intro _ h
    exact absurd rfl h
  | cons m ms ih =>
    simp only [applyAll]
    cases happly : Draft.apply ⟨d, { h with building := some b }⟩ m with
    | error e =>
      exact ⟨d, [], some e, by simp, .nil _, hn, rfl, fun _ => Or.inl, by simp⟩
    | ok e =>
      obtain ⟨inverse, hinverse, hdoc, hhistory⟩ := of_apply happly
      obtain ⟨hinv, hrest⟩ := hi _ hdoc
      have hexact := Mutation.exact_of_apply hn hinv hdoc hinverse
      have hleaves := Mutation.leaves_of_apply hn hdoc
      obtain ⟨d', cs, error, hall, hrec⟩ :=
        ih e.document (b.add ⟨m, inverse⟩) hleaves.normal hrest
      refine ⟨d', ⟨m, inverse⟩ :: cs, error, ?_, .cons hexact hrec.leads, hrec.normal,
        hrec.ids_eq.trans hleaves.ids_eq, ?_, by simp⟩
      · have he : e = ⟨e.document, { h with building := some (b.add ⟨m, inverse⟩) }⟩ := by
          cases e
          simp only [History.record] at hhistory
          rw [hhistory]
        rw [he]
        dsimp only
        rw [hall]
        simp [Batch.add]
      · intro id hid
        rcases hrec.idsOf_subset id hid with hid | ⟨n, hn', hid⟩
        · rcases hleaves.idsOf_subset id hid with hid | hid
          · exact Or.inl hid
          · exact Or.inr ⟨m, List.mem_cons_self .., hid⟩
        · exact Or.inr ⟨n, List.mem_cons_of_mem _ hn', hid⟩

theorem foldl_record (cs : List Change) (h : History) (b : Batch) :
    cs.foldl History.record { h with building := some b }
      = { h with building := some ⟨b.changes ++ cs, b.description⟩ } := by
  induction cs generalizing b with
  | nil => simp
  | cons c cs ih =>
    rw [List.foldl_cons]
    show cs.foldl History.record { h with building := some (b.add c) } = _
    rw [ih]
    simp [Batch.add]

theorem leads_changes {row row' : List Segment} {r : Rebuilt} {x z : List Atom}
    (hn : IsNormal row) (h : Cut row r.pos (r.pos + totalLen r.removed) x (atoms r.removed) z)
    (hrow : row' = Atom.toRow (x ++ atoms r.inserted ++ z)) : Leads row r.changes row' := by
  refine .cons (Mutation.exact_removeRange hn h) ?_
  rw [hrow]
  exact .cons (Mutation.exact_insertSegments (isNormal_toRow _) h.removed r.inserted) (.nil _)

variable {σ : Type} [FileSystem σ]

/-- A draft between two operations. -/
structure Ready (d : Draft) : Prop where
  normal : IsNormal d.document.segments
  clean : d.document.freshness = .clean
  owned : d.document.ids.OwnsAll d.document.segments
  idle : d.history.building = none

theorem reparse_recorded (d : Document) (h : History) (batch : Batch) (b : Bundle) (fs : σ)
    (hn : IsNormal d.segments) (ho : d.ids.OwnsAll d.segments) :
    ∃ d' cs, reparse ⟨d, { h with building := some batch }⟩ b fs
        = ⟨d', { h with building := some ⟨batch.changes ++ cs, batch.description⟩ }⟩
      ∧ Leads d.segments cs d'.segments ∧ IsNormal d'.segments ∧ d'.freshness = .clean
      ∧ d.ids.Grows d'.ids ∧ d'.ids.OwnsAll d'.segments := by
  have hreread := Document.reread_reparse d b fs
  have hsound := Document.Sound.reparse ⟨hn, ho⟩ b fs
  unfold reparse
  dsimp only
  cases hr : d.reparse b fs with
  | mk rebuilt d' =>
    rw [hr] at hreread hsound
    cases rebuilt with
    | none =>
      have hrow : d'.segments = d.segments := hreread.kept rfl
      refine ⟨d', [], by simp, ?_, hsound.normal, hreread.clean, hreread.grows, hsound.owned⟩
      rw [hrow]
      exact .nil _
    | some r =>
      obtain ⟨x, z, hcut, hrow, -⟩ := hreread.rebuilt r rfl
      refine ⟨d', r.changes, ?_, leads_changes hn hcut hrow, hsound.normal, hreread.clean,
        hreread.grows, hsound.owned⟩
      rw [← foldl_record]
      rfl

/-- What an edit leaves: a ready draft whose history has one more step, which leads from the old row
to the new one, or the history and the row as they were. -/
structure Edited (d d' : Draft) (error : Option EditError) : Prop where
  ready : d'.Ready
  grows : d.document.ids.Grows d'.document.ids
  stepped : error = none → ∃ batch, d'.history = d.history.push batch
    ∧ Leads d.document.segments batch.changes d'.document.segments
  kept : error ≠ none → d'.history = d.history ∧ d'.document.segments = d.document.segments

theorem edit_edited {d : Draft} (hd : d.Ready) (description : Text) {ms : List Mutation}
    (hne : ms ≠ []) (hi : Mutation.AreInvertible ms d.document)
    (hnew : ∀ m ∈ ms, ∀ id ∈ m.newIds, d.document.ids.Owns id) (b : Bundle) (fs : σ) :
    Edited d (d.edit description ms b fs).1 (d.edit description ms b fs).2 := by
  obtain ⟨doc, cs, error, hall, hrec⟩ :=
    applyAll_recorded ms d.document d.history ⟨[], some description⟩ hd.normal hi
  have howned : doc.ids.OwnsAll doc.segments := by
    intro id hid
    rw [hrec.ids_eq]
    rcases hrec.idsOf_subset id hid with hid | ⟨m, hm, hid⟩
    · exact hd.owned id hid
    · exact hnew m hm id hid
  have hall' : applyAll ms { d with history := d.history.beginBatch description }
      = (⟨doc, { d.history with building := some ⟨cs, some description⟩ }⟩, error) := by
    rw [← List.nil_append cs]
    exact hall
  have hidle : ({ d.history with building := none } : History) = d.history := by
    rw [← hd.idle]
  unfold edit
  rw [hall']
  cases error with
  | none =>
    obtain ⟨doc', cs', hreparse, hleads, hn', hclean, hgrows, howned'⟩ :=
      reparse_recorded doc d.history ⟨cs, some description⟩ b fs hrec.normal howned
    dsimp only
    rw [hreparse]
    have hend : ({ d.history with building := some ⟨cs ++ cs', some description⟩ } : History).endBatch
        = d.history.push ⟨cs ++ cs', some description⟩ := by
      have hcs : cs ++ cs' ≠ [] := by
        intro hnil
        exact hrec.changes_ne_nil rfl hne (List.append_eq_nil_iff.1 hnil).1
      simp only [History.endBatch, if_neg hcs]
      rw [hidle]
    rw [hrec.ids_eq] at hgrows
    refine ⟨⟨hn', hclean, howned', ?_⟩, hgrows, ?_, fun h => absurd rfl h⟩
    · dsimp only
      rw [hend, History.building_push, hd.idle]
    · intro _
      exact ⟨⟨cs ++ cs', some description⟩, hend, hrec.leads.append hleads⟩
  | some e =>
    obtain ⟨doc', hrevert, hrow, hids⟩ := hrec.leads.revert rfl
    have hrevert' : (Batch.mk cs (some description)).revert doc = (doc', none) := hrevert
    dsimp only [History.abandonBatch, Option.getD_some]
    rw [hrevert']
    refine ⟨⟨?_, rfl, ?_, rfl⟩, ?_, by simp, ?_⟩
    · dsimp only [Document.markClean]
      rw [hrow]
      exact hd.normal
    · dsimp only [Document.markClean]
      rw [hrow, hids, hrec.ids_eq]
      exact hd.owned
    · dsimp only [Document.markClean]
      rw [hids, hrec.ids_eq]
      exact IdSource.Grows.refl _
    · intro _
      exact ⟨hidle, hrow⟩

/-- No text inserted where the row cannot be cut makes a blind step. -/
theorem edit_blind {d : Draft} (hd : d.Ready) (description : Text) {pos : Nat}
    (hpos : pos ≤ totalLen d.document.segments) (b : Bundle) (fs : σ) :
    d.edit description [.insertText pos []] b fs
      = ({ d with history :=
            d.history.push ⟨[⟨.insertText pos [], .removeRange pos pos⟩], some description⟩ },
          none) := by
  have hvalid : ¬ d.document.len < pos := Nat.not_lt.2 hpos
  have happly : (Mutation.insertText pos []).apply d.document = .ok d.document := by
    rw [Mutation.apply_insertText hvalid]
    rfl
  have hinverse : (Mutation.insertText pos []).inverse d.document
      = .ok (.removeRange pos pos) := Mutation.inverse_insertText hvalid []
  have hreparse : d.document.reparse b fs = (none, d.document) := by
    unfold Document.reparse
    rw [hd.clean]
  have hidle : ({ d.history with building := none } : History) = d.history := by
    rw [← hd.idle]
  have hchange : Draft.apply { d with history := d.history.beginBatch description }
      (.insertText pos [])
      = .ok ⟨d.document, (d.history.beginBatch description).record
          ⟨.insertText pos [], .removeRange pos pos⟩⟩ := by
    simp [Draft.apply, happly, hinverse, bind, Except.bind, pure, Except.pure]
  unfold edit
  simp only [applyAll, hchange]
  unfold reparse
  dsimp only
  rw [hreparse]
  simp only [History.beginBatch, History.record, Batch.add, Option.map_none, Option.getD_none,
    List.foldl_nil, History.endBatch, List.nil_append, reduceCtorEq, if_false]
  rw [hidle]

end Draft

end ImageScript
