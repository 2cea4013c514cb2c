import ImageScript.Proofs.Edit.Steps

/-!
# The saved mark

A history knows its last save as a number of steps. The steps that can be undone and those that can
be redone lie on one line of rows, on which undo and redo only move, and the mark is the place of the
saved row on it. A step that undo gives up is taken from the line, but the mark stays where it was:
from then on a draft without modification need not have the row that was saved.

Main statements: `Line.extend`, `History.Follows.push`, `Draft.Follows.undo`, `unmodified_unchanged`,
`exists_unmodified_changed`.
-/

namespace ImageScript

open Segment

/-! ### Runs -/

/-- Whether a replacing pattern has an id that no other widget of the row has. -/
def Mutation.BringsOwnId (row : List Segment) : Mutation → Prop
  | replacePattern id q => ∀ before s after, FirstWith id row before s after →
      q.id ∉ idsOf (before ++ after)
  | _ => True

/-- The drafts that are reached from a document and a history of at most `levels` steps, with the row
that was saved last, which is the first one before any save, and the number of steps that were given
up. The row of the first document is normal, as it is in every document. -/
inductive Drafted (levels : Nat) : Draft → List Segment → Nat → Prop where
  | start (doc : Document) (hn : IsNormal doc.segments) :
      Drafted levels ⟨doc, .new levels⟩ doc.segments 0
  | apply {d d' : Draft} {saved : List Segment} {lost : Nat} {m : Mutation}
      (h : Drafted levels d saved lost) (happly : d.apply m = .ok d')
      (hid : m.BringsOwnId d.document.segments) : Drafted levels d' saved lost
  | beginBatch {d : Draft} {saved : List Segment} {lost : Nat} (h : Drafted levels d saved lost)
      (hidle : d.history.building = none) (description : Text) :
      Drafted levels { d with history := d.history.beginBatch description } saved lost
  | endBatch {d : Draft} {saved : List Segment} {lost : Nat} (h : Drafted levels d saved lost) :
      Drafted levels { d with history := d.history.endBatch } saved lost
  | undo {d d' : Draft} {saved : List Segment} {lost : Nat} {done : Bool}
      (h : Drafted levels d saved lost) (hidle : d.history.building = none)
      (hundo : d.undo = (d', .ok done)) : Drafted levels d' saved lost
  | undoFailed {d d' : Draft} {saved : List Segment} {lost : Nat} {e : EditError}
      (h : Drafted levels d saved lost) (hidle : d.history.building = none)
      (hundo : d.undo = (d', .error e)) : Drafted levels d' saved (lost + 1)
  | redo {d d' : Draft} {saved : List Segment} {lost : Nat} {done : Bool}
      (h : Drafted levels d saved lost) (hidle : d.history.building = none)
      (hredo : d.redo = (d', .ok done)) : Drafted levels d' saved lost
  | redoFailed {d d' : Draft} {saved : List Segment} {lost : Nat} {e : EditError}
      (h : Drafted levels d saved lost) (hidle : d.history.building = none)
      (hredo : d.redo = (d', .error e)) : Drafted levels d' saved (lost + 1)
  | save {d : Draft} {saved : List Segment} {lost : Nat} (h : Drafted levels d saved lost)
      (hidle : d.history.building = none) :
      Drafted levels { d with history := d.history.markSaved } d.document.segments lost

/-! ### Changes -/

/-- Whether a change inserted nothing at a position of a row that cannot be cut. -/
def Change.IsBlind (c : Change) (row : List Segment) : Prop :=
  ∃ pos, (c.mutation = .insertText pos [] ∨ c.mutation = .insertSegments pos [])
    ∧ c.inverse = .removeRange pos pos ∧ pos ≤ totalLen row ∧ ¬ ∃ x z, Cut row pos pos x [] z

/-- Whether taking back changes, the newest first, comes to a blind one. -/
def Stalls (cs : List Change) (d : Document) : Prop :=
  ∃ before c after e, cs = before ++ c :: after
    ∧ Mutation.applyAll (after.reverse.map Change.inverse) d = (e, none) ∧ c.IsBlind e.segments

/-- Changes that lead from one row to another, exactly where they are not blind. -/
inductive Makes : List Segment → List Change → List Segment → Prop where
  | nil (row : List Segment) : Makes row [] row
  | exact {row mid row' : List Segment} {c : Change} {cs : List Change} (first : c.Exact row mid)
      (rest : Makes mid cs row') : Makes row (c :: cs) row'
  | blind {row row' : List Segment} {c : Change} {cs : List Change} (first : c.IsBlind row)
      (rest : Makes row cs row') : Makes row (c :: cs) row'

variable {row row' mid : List Segment} {c : Change} {cs ds : List Change} {d d' : Document}

namespace Change.IsBlind

/-- Nothing can be inserted anywhere. -/
theorem forth (h : c.IsBlind row) : c.mutation.Takes row row := by
  obtain ⟨pos, hmutation, -, hpos, -⟩ := h
  rintro d rfl
  have hvalid : ¬ d.len < pos := Nat.not_lt.2 hpos
  refine ⟨d, ?_, rfl, rfl⟩
  rcases hmutation with h | h
  · rw [h, Mutation.apply_insertText hvalid]
    rfl
  · rw [h, Mutation.apply_insertSegments hvalid]
    rfl

theorem back (h : c.IsBlind d.segments) : ∃ e, c.inverse.apply d = .error e := by
  obtain ⟨pos, -, hinverse, hpos, huncut⟩ := h
  rw [hinverse]
  exact ⟨_, Mutation.removeRange_uncut hpos huncut⟩

end Change.IsBlind

theorem Stalls.cons (h : Stalls cs d) (c : Change) : Stalls (c :: cs) d := by
  obtain ⟨before, c', after, e, rfl, hafter, hblind⟩ := h
  exact ⟨c :: before, c', after, e, rfl, hafter, hblind⟩

/-- Changes that stall cannot be taken back. -/
theorem Stalls.revert {b : Batch} (h : Stalls b.changes d) :
    ∃ e error, b.revert d = (e, some error) := by
  obtain ⟨before, c, after, e, hchanges, hafter, hblind⟩ := h
  obtain ⟨error, hback⟩ := hblind.back
  refine ⟨e, error, ?_⟩
  unfold Batch.revert
  rw [hchanges, List.reverse_append, List.reverse_cons, List.append_assoc, List.map_append,
    Leads.applyAll_append _ _ hafter]
  simp only [List.singleton_append, List.map_cons, Mutation.applyAll, hback]

namespace Makes

theorem append (h : Makes row cs mid) (h' : Makes mid ds row') : Makes row (cs ++ ds) row' := by
  induction h with
  | nil => exact h'
  | exact first _ ih => exact .exact first (ih h')
  | blind first _ ih => exact .blind first (ih h')

/-- Changes can always be made again. -/
theorem replay (h : Makes row cs row') (hd : d.segments = row) :
    ∃ e, Mutation.applyAll (cs.map Change.mutation) d = (e, none) ∧ e.segments = row' := by
  induction h generalizing d with
  | nil => exact ⟨d, rfl, hd⟩
  | exact first _ ih =>
    obtain ⟨d', happly, hrow, -⟩ := first.forth d hd
    obtain ⟨e, hall, hrow'⟩ := ih hrow
    exact ⟨e, by simp only [List.map_cons, Mutation.applyAll, happly, hall], hrow'⟩
  | blind first _ ih =>
    obtain ⟨d', happly, hrow, -⟩ := first.forth d hd
    obtain ⟨e, hall, hrow'⟩ := ih hrow
    exact ⟨e, by simp only [List.map_cons, Mutation.applyAll, happly, hall], hrow'⟩

/-- Changes can be taken back where they do not stall. -/
theorem revert (h : Makes row cs row') (hd : d.segments = row') :
    (∃ e, Mutation.applyAll (cs.reverse.map Change.inverse) d = (e, none) ∧ e.segments = row)
      ∨ Stalls cs d := by
  induction h with
  | nil => exact Or.inl ⟨d, rfl, hd⟩
  | exact first _ ih =>
    rcases ih hd with ⟨e, hall, hrow⟩ | hstalls
    · obtain ⟨e', happly, hrow', -⟩ := first.back e hrow
      refine Or.inl ⟨e', ?_, hrow'⟩
      rw [List.reverse_cons, List.map_append, Leads.applyAll_append _ _ hall]
      simp only [List.map_cons, List.map_nil, Mutation.applyAll, happly]
    · exact Or.inr (hstalls.cons _)
  | blind first _ ih =>
    rcases ih hd with ⟨e, hall, rfl⟩ | hstalls
    · exact Or.inr ⟨[], _, _, e, rfl, hall, first⟩
    · exact Or.inr (hstalls.cons _)

end Makes

/-- A mutation that succeeds has an inverse. -/
theorem Mutation.exists_inverse_of_apply {m : Mutation} (h : m.apply d = .ok d') :
    ∃ inv, m.inverse d = .ok inv := by
  obtain ⟨_, hvalid, -⟩ := ok_of_bind h
  unfold inverse
  rw [hvalid]
  cases m with
  | insertText | insertSegments => exact ⟨_, rfl⟩
  | removeRange | updatePattern | replacePattern | updateRegion =>
    obtain ⟨found, hfound, -⟩ := ok_of_map hvalid
    simp only [bind, Except.bind, hfound]
    exact ⟨_, rfl⟩

/-- An insertion of nothing that succeeds is blind where the row cannot be cut. -/
theorem makes_of_uncut {m inv : Mutation} {pos : Nat}
    (hm : m = .insertText pos [] ∨ m = .insertSegments pos [])
    (huncut : ¬ ∃ x z, Cut d.segments pos pos x [] z) (ha : m.apply d = .ok d')
    (hinv : m.inverse d = .ok inv) : Makes d.segments [⟨m, inv⟩] d'.segments := by
  obtain ⟨_, hvalid, hinverse⟩ := Mutation.ok_of_bind hinv
  have hpos : pos ≤ totalLen d.segments := by
    by_contra hpos
    have hlong : d.len < pos := Nat.not_le.1 hpos
    rcases hm with rfl | rfl <;> simp [Mutation.validate, hlong] at hvalid
  have hback : inv = .removeRange pos pos := by
    rcases hm with rfl | rfl <;> exact (Except.ok.inj hinverse).symm
  have hblind : (Change.mk m inv).IsBlind d.segments := ⟨pos, hm, hback, hpos, huncut⟩
  rw [(hblind.forth.unique rfl ha).1]
  exact .blind hblind (.nil _)

/-- A mutation that succeeds makes an exact change or a blind one. -/
theorem makes_of_apply {m inv : Mutation} (hn : IsNormal d.segments)
    (hid : m.BringsOwnId d.segments) (ha : m.apply d = .ok d') (hinv : m.inverse d = .ok inv) :
    Makes d.segments [⟨m, inv⟩] d'.segments := by
  by_cases hi : m.IsInvertible d.segments
  · exact .exact (Mutation.exact_of_apply hn hi ha hinv) (.nil _)
  cases m with
  | insertText pos s =>
    obtain ⟨hs, huncut⟩ := not_or.1 hi
    obtain rfl := not_not.1 hs
    exact makes_of_uncut (Or.inl rfl) huncut ha hinv
  | insertSegments pos inserted =>
    obtain ⟨hs, huncut⟩ := not_or.1 hi
    obtain rfl := not_not.1 hs
    exact makes_of_uncut (Or.inr rfl) huncut ha hinv
  | replacePattern id q =>
    refine .exact (Mutation.exact_of_replacePattern ?_ ha hinv) (.nil _)
    intro before s after hfirst hmem
    refine hid before s after hfirst ?_
    rw [idsOf_append]
    exact List.mem_append_left _ hmem
  | removeRange | updatePattern | updateRegion => exact absurd trivial hi

/-! ### The line of rows -/

/-- Rows with steps between them, each of which leads from one row to the next. -/
structure Line (rows : List (List Segment)) (steps : List Batch) : Prop where
  length_eq : rows.length = steps.length + 1
  makes : ∀ i row b row', rows[i]? = some row → steps[i]? = some b → rows[i + 1]? = some row' →
    Makes row b.changes row'

namespace Line

variable {rows : List (List Segment)} {steps : List Batch} {b : Batch} {n : Nat}

theorem single (row : List Segment) : Line [row] [] := by
  refine ⟨rfl, ?_⟩
  intro i _ b _ _ hb
  simp at hb

/-- A new step at a row of the line; what lay ahead is gone. -/
theorem extend (h : Line rows steps) (hn : rows[n]? = some row) (hb : Makes row b.changes row') :
    Line (rows.take (n + 1) ++ [row']) (steps.take n ++ [b]) := by
  have hlength := h.length_eq
  have hlt : n < rows.length := (List.getElem?_eq_some_iff.1 hn).1
  have hrows : (rows.take (n + 1)).length = n + 1 := by
    rw [List.length_take]
    omega
  have hsteps : (steps.take n).length = n := by
    rw [List.length_take]
    omega
  refine ⟨by simp only [List.length_append, hrows, hsteps, List.length_singleton], ?_⟩
  intro i before c behind hbefore hc hbehind
  rcases Nat.lt_trichotomy i n with hi | rfl | hi
  · rw [List.getElem?_append_left (by omega), List.getElem?_take_of_lt (by omega)] at hbefore hbehind
    rw [List.getElem?_append_left (by omega), List.getElem?_take_of_lt hi] at hc
    exact h.makes i before c behind hbefore hc hbehind
  · rw [List.getElem?_append_left (by omega), List.getElem?_take_of_lt (by omega), hn] at hbefore
    rw [List.getElem?_append_right (by omega), hsteps, Nat.sub_self] at hc
    rw [List.getElem?_append_right (by omega), hrows, Nat.sub_self] at hbehind
    obtain rfl := Option.some.inj hbefore
    obtain rfl := Option.some.inj hc
    obtain rfl := Option.some.inj hbehind
    exact hb
  · have hend : (rows.take (n + 1) ++ [row']).length ≤ i + 1 := by
      rw [List.length_append, hrows, List.length_singleton]
      omega
    rw [List.getElem?_eq_none hend] at hbehind
    simp at hbehind

/-- The oldest step is forgotten. -/
theorem tail (h : Line rows steps) (hne : steps ≠ []) : Line rows.tail steps.tail := by
  have hlength := h.length_eq
  have hpos := List.length_pos_iff.2 hne
  refine ⟨by simp only [List.length_tail]; omega, ?_⟩
  intro i before c behind hbefore hc hbehind
  rw [List.getElem?_tail] at hbefore hc hbehind
  exact h.makes (i + 1) before c behind hbefore hc hbehind

end Line

/-! ### Histories along a line -/

namespace History

/-- Whether the steps of a history lie on a line of rows, at whose row `base` the history is, and the
mark of the last save is the place of the saved row. -/
structure Follows (h : History) (rows : List (List Segment)) (base saved : List Segment) : Prop where
  line : Line rows (h.undoable.reverse ++ h.redoable)
  base_eq : rows[h.undoable.length]? = some base
  mark : ∀ n, h.savedAt = some n → rows[n]? = some saved

variable {h : History} {rows : List (List Segment)} {base saved : List Segment} {b : Batch}

theorem Follows.new (levels : Nat) (row : List Segment) :
    (History.new levels).Follows [row] row row := by
  refine ⟨Line.single row, rfl, ?_⟩
  rintro n hn
  obtain rfl := Option.some.inj hn
  rfl

/-- Pushing a step adds it, forgets what was undone, and a mark that lay there. -/
theorem push_within (b : Batch) (hmax : ¬ (0 < h.maxLevels ∧ h.maxLevels < h.undoable.length + 1)) :
    h.push b = { h with
      undoable := b :: h.undoable
      redoable := []
      savedAt := h.savedAt.filter (· ≤ h.undoable.length) } := by
  unfold push
  dsimp only
  rw [List.length_cons, if_neg hmax]

/-- Beyond the bound the oldest step is forgotten besides, and the mark is moved. -/
theorem push_beyond (b : Batch) (hmax : 0 < h.maxLevels ∧ h.maxLevels < h.undoable.length + 1) :
    h.push b = { h with
      undoable := (b :: h.undoable).dropLast
      redoable := []
      savedAt := (h.savedAt.filter (· ≤ h.undoable.length)).bind fun n =>
        if n = 0 then none else some (n - 1) } := by
  unfold push
  dsimp only
  rw [List.length_cons, if_pos hmax]

/-- A new step leads along the line from the row where the history is. -/
theorem Follows.push (hf : h.Follows rows base saved) (hb : Makes base b.changes row) :
    ∃ rows', (h.push b).Follows rows' row saved ∧ ∀ r ∈ rows', r = row ∨ r ∈ rows := by
  have hlength := hf.line.length_eq
  have hlt : h.undoable.length < rows.length := (List.getElem?_eq_some_iff.1 hf.base_eq).1
  have htake : (rows.take (h.undoable.length + 1)).length = h.undoable.length + 1 := by
    rw [List.length_take]
    omega
  have hline := hf.line.extend hf.base_eq hb
  rw [List.take_left' (List.length_reverse ..)] at hline
  have hrow : (rows.take (h.undoable.length + 1) ++ [row])[h.undoable.length + 1]? = some row := by
    rw [List.getElem?_append_right (by omega), htake, Nat.sub_self]
    rfl
  have hmark : ∀ n, h.savedAt.filter (· ≤ h.undoable.length) = some n →
      (rows.take (h.undoable.length + 1) ++ [row])[n]? = some saved := by
    intro n hn
    obtain ⟨hn, hle⟩ := Option.filter_eq_some_iff.1 hn
    have hle' : n ≤ h.undoable.length := by simpa using hle
    rw [List.getElem?_append_left (by omega), List.getElem?_take_of_lt (by omega)]
    exact hf.mark n hn
  have hmem : ∀ r ∈ rows.take (h.undoable.length + 1) ++ [row], r = row ∨ r ∈ rows := by
    intro r hr
    rcases List.mem_append.1 hr with hr | hr
    · exact Or.inr (List.mem_of_mem_take hr)
    · exact Or.inl (List.mem_singleton.1 hr)
  by_cases hmax : 0 < h.maxLevels ∧ h.maxLevels < h.undoable.length + 1
  · rw [push_beyond b hmax]
    refine ⟨(rows.take (h.undoable.length + 1) ++ [row]).tail, ⟨?_, ?_, ?_⟩,
      fun r hr => hmem r (List.mem_of_mem_tail hr)⟩
    · have htail := hline.tail (by simp)
      rwa [← List.reverse_cons, List.tail_reverse, ← List.append_nil (List.reverse _)] at htail
    · rw [List.getElem?_tail, List.length_dropLast, List.length_cons, Nat.add_sub_cancel]
      exact hrow
    · intro n hn
      obtain ⟨k, hk, hn⟩ := Option.bind_eq_some_iff.1 hn
      rw [List.getElem?_tail]
      cases k with
      | zero => simp at hn
      | succ k =>
        obtain rfl : k = n := by simpa using hn
        exact hmark _ hk
  · rw [push_within b hmax]
    refine ⟨_, ⟨?_, hrow, hmark⟩, hmem⟩
    rwa [List.reverse_cons, List.append_nil]

theorem Follows.undo {rest : List Batch} (hf : h.Follows rows base saved)
    (hu : h.undoable = b :: rest) : ∃ row ∈ rows, Makes row b.changes base
      ∧ ({ h with undoable := rest, redoable := b :: h.redoable } : History).Follows rows row
          saved := by
  obtain ⟨hline, hbase, hmark⟩ := hf
  rw [hu, List.reverse_cons, List.append_assoc, List.singleton_append] at hline
  rw [hu, List.length_cons] at hbase
  have hlt : rest.length < rows.length :=
    Nat.lt_of_succ_lt (List.getElem?_eq_some_iff.1 hbase).1
  have hrow := List.getElem?_eq_getElem hlt
  refine ⟨_, List.getElem_mem hlt, hline.makes rest.length _ b base hrow ?_ hbase, hline, hrow,
    hmark⟩
  rw [List.getElem?_append_right (by simp), List.length_reverse, Nat.sub_self]
  rfl

theorem Follows.redo {rest : List Batch} (hf : h.Follows rows base saved)
    (hr : h.redoable = b :: rest) : ∃ row ∈ rows, Makes base b.changes row
      ∧ ({ h with undoable := b :: h.undoable, redoable := rest } : History).Follows rows row
          saved := by
  obtain ⟨hline, hbase, hmark⟩ := hf
  rw [hr] at hline
  have hlength := hline.length_eq
  have hlt : h.undoable.length + 1 < rows.length := by
    rw [hlength]
    simp only [List.length_append, List.length_reverse, List.length_cons]
    omega
  have hrow := List.getElem?_eq_getElem hlt
  refine ⟨_, List.getElem_mem hlt, hline.makes h.undoable.length base b _ hbase ?_ hrow, ?_, hrow,
    hmark⟩
  · rw [List.getElem?_append_right (by simp), List.length_reverse, Nat.sub_self]
    rfl
  · rwa [List.reverse_cons, List.append_assoc]

/-- The changes of the batch that is being built. -/
def pending (h : History) : List Change :=
  match h.building with
  | some b => b.changes
  | none => []

/-- Whether a history keeps its bound, also when everything undone is made again. -/
structure Bounded (h : History) (levels : Nat) : Prop where
  levels_eq : h.maxLevels = levels
  depth_le : 0 < levels → h.undoable.length + h.redoable.length ≤ levels

variable {levels : Nat}

theorem Bounded.keep {h' : History} (hb : h.Bounded levels) (hlevels : h'.maxLevels = h.maxLevels)
    (hle : h'.undoable.length + h'.redoable.length ≤ h.undoable.length + h.redoable.length) :
    h'.Bounded levels :=
  ⟨hlevels.trans hb.levels_eq, fun hpos => Nat.le_trans hle (hb.depth_le hpos)⟩

theorem Bounded.push (hb : h.Bounded levels) (b : Batch) : (h.push b).Bounded levels := by
  obtain ⟨rfl, hdepth⟩ := hb
  by_cases hmax : 0 < h.maxLevels ∧ h.maxLevels < h.undoable.length + 1
  · rw [push_beyond b hmax]
    refine ⟨rfl, fun hpos => ?_⟩
    have hle := hdepth hpos
    simp only [List.length_dropLast, List.length_cons, List.length_nil]
    omega
  · rw [push_within b hmax]
    refine ⟨rfl, fun hpos => ?_⟩
    simp only [List.length_cons, List.length_nil]
    omega

theorem Bounded.record (hb : h.Bounded levels) (c : Change) : (h.record c).Bounded levels := by
  unfold History.record
  split
  · exact hb.keep rfl le_rfl
  · exact hb.push _

theorem Bounded.endBatch (hb : h.Bounded levels) : h.endBatch.Bounded levels := by
  have hidle : ({ h with building := none } : History).Bounded levels := hb.keep rfl le_rfl
  unfold History.endBatch
  split
  · dsimp only
    split
    · exact hidle
    · exact hidle.push _
  · exact hb

end History

/-! ### Drafts along a line -/

namespace Draft

variable {d d' : Draft} {saved : List Segment} {levels : Nat}

theorem bounded_undo (h : d.history.Bounded levels) : d.undo.1.history.Bounded levels := by
  unfold undo
  cases hu : d.history.undoable with
  | nil => exact h
  | cons b rest =>
    dsimp only
    split
    · refine h.keep rfl ?_
      simp only [hu, List.length_cons]
      omega
    · refine h.keep rfl ?_
      simp only [hu, List.length_cons]
      omega

theorem bounded_redo (h : d.history.Bounded levels) : d.redo.1.history.Bounded levels := by
  unfold redo
  cases hr : d.history.redoable with
  | nil => exact h
  | cons b rest =>
    dsimp only
    split
    · refine h.keep rfl ?_
      simp only [hr, List.length_cons]
      omega
    · refine h.keep rfl ?_
      simp only [hr, List.length_cons]
      omega

/-- Whether the history of a draft follows a line of normal rows, and the batch that is being built
leads on to the document. -/
def Follows (d : Draft) (saved : List Segment) : Prop :=
  ∃ rows base, d.history.Follows rows base saved ∧ (∀ r ∈ rows, IsNormal r)
    ∧ Makes base d.history.pending d.document.segments ∧ IsNormal d.document.segments

/-- Where no batch is being built, the document stands at the row of the history. -/
theorem eq_of_makes_pending {h : History} (hidle : h.building = none)
    (hmakes : Makes row h.pending row') : row = row' := by
  unfold History.pending at hmakes
  rw [hidle] at hmakes
  cases hmakes
  rfl

theorem makes_pending_of_idle {h : History} (hidle : h.building = none) (row : List Segment) :
    Makes row h.pending row := by
  unfold History.pending
  rw [hidle]
  exact .nil row

namespace Follows

theorem start (doc : Document) (hn : IsNormal doc.segments) (levels : Nat) :
    (Draft.mk doc (.new levels)).Follows doc.segments := by
  refine ⟨[doc.segments], doc.segments, .new levels _, ?_, .nil _, hn⟩
  intro r hr
  rwa [List.mem_singleton.1 hr]

/-- A step from the row of a history to a document. -/
theorem pushed {h : History} {rows : List (List Segment)} {base : List Segment} {b : Batch}
    {doc : Document} (hf : h.Follows rows base saved) (hrows : ∀ r ∈ rows, IsNormal r)
    (hidle : h.building = none) (hb : Makes base b.changes doc.segments)
    (hn : IsNormal doc.segments) : (Draft.mk doc (h.push b)).Follows saved := by
  obtain ⟨rows', hf', hmem⟩ := hf.push hb
  refine ⟨rows', doc.segments, hf', ?_, ?_, hn⟩
  · intro r hr
    rcases hmem r hr with rfl | hr
    · exact hn
    · exact hrows r hr
  · exact makes_pending_of_idle (by rw [History.building_push, hidle]) _

theorem apply {m : Mutation} (h : d.Follows saved) (hid : m.BringsOwnId d.document.segments)
    (happly : d.apply m = .ok d') : d'.Follows saved := by
  obtain ⟨rows, base, hf, hrows, hmakes, hn⟩ := h
  obtain ⟨inverse, hinverse, hdoc, hhistory⟩ := of_apply happly
  have hmade := makes_of_apply hn hid hdoc hinverse
  have hn' := (Mutation.leaves_of_apply hn hdoc).normal
  obtain ⟨doc', history'⟩ := d'
  dsimp only at hdoc hhistory hmade hn'
  subst hhistory
  have hall := hmakes.append hmade
  unfold History.pending at hall
  unfold History.record
  cases hb : d.history.building with
  | some b =>
    rw [hb] at hall
    exact ⟨rows, base, ⟨hf.line, hf.base_eq, hf.mark⟩, hrows, hall, hn'⟩
  | none =>
    rw [hb] at hall
    exact pushed hf hrows hb hall hn'

theorem beginBatch (h : d.Follows saved) (hidle : d.history.building = none) (description : Text) :
    Follows { d with history := d.history.beginBatch description } saved := by
  obtain ⟨rows, base, hf, hrows, hmakes, hn⟩ := h
  obtain rfl := eq_of_makes_pending hidle hmakes
  exact ⟨rows, _, ⟨hf.line, hf.base_eq, hf.mark⟩, hrows, .nil _, hn⟩

theorem endBatch (h : d.Follows saved) :
    Follows { d with history := d.history.endBatch } saved := by
  obtain ⟨rows, base, hf, hrows, hmakes, hn⟩ := h
  unfold History.pending at hmakes
  unfold History.endBatch
  cases hb : d.history.building with
  | none =>
    rw [hb] at hmakes
    exact ⟨rows, base, hf, hrows, by rwa [History.pending, hb], hn⟩
  | some b =>
    rw [hb] at hmakes
    have hf' : ({ d.history with building := none } : History).Follows rows base saved :=
      ⟨hf.line, hf.base_eq, hf.mark⟩
    dsimp only
    by_cases hchanges : b.changes = []
    · rw [if_pos hchanges]
      dsimp only at hmakes
      rw [hchanges] at hmakes
      exact ⟨rows, base, hf', hrows, hmakes, hn⟩
    · rw [if_neg hchanges]
      exact pushed hf' hrows rfl hmakes hn

theorem save (h : d.Follows saved) (hidle : d.history.building = none) :
    Follows { d with history := d.history.markSaved } d.document.segments := by
  obtain ⟨rows, base, hf, hrows, hmakes, hn⟩ := h
  obtain rfl := eq_of_makes_pending hidle hmakes
  refine ⟨rows, _, ⟨hf.line, hf.base_eq, ?_⟩, hrows, hmakes, hn⟩
  intro n hsaved
  obtain rfl := Option.some.inj hsaved
  exact hf.base_eq

/-- A document at another row of the line. -/
theorem moved {h : History} {rows : List (List Segment)} {e : Document}
    (hf : h.Follows rows row saved) (hrows : ∀ r ∈ rows, IsNormal r) (hmem : row ∈ rows)
    (hidle : h.building = none) (hrow : e.segments = row) : (Draft.mk e h).Follows saved := by
  subst hrow
  exact ⟨rows, _, hf, hrows, makes_pending_of_idle hidle _, hrows _ hmem⟩

/-- Undo moves along the line, or fails at changes that stall. -/
theorem undo (h : d.Follows saved) (hidle : d.history.building = none) :
    (∃ d' done, d.undo = (d', .ok done) ∧ d'.Follows saved)
      ∨ ∃ b ∈ d.history.undoable.head?, Stalls b.changes d.document := by
  have hfollows := h
  obtain ⟨rows, base, hf, hrows, hmakes, hn⟩ := h
  obtain rfl := eq_of_makes_pending hidle hmakes
  cases hu : d.history.undoable with
  | nil =>
    refine Or.inl ⟨d, false, ?_, hfollows⟩
    unfold Draft.undo
    rw [hu]
  | cons b rest =>
    obtain ⟨row, hmem, hb, hf'⟩ := hf.undo hu
    rcases hb.revert rfl with ⟨e, hrevert, hrow⟩ | hstalls
    · have hrevert' : b.revert d.document = (e, none) := hrevert
      have hundo : d.undo = (⟨e, { d.history with
          undoable := rest, redoable := b :: d.history.redoable }⟩, .ok true) := by
        simp only [Draft.undo, hu, hrevert']
      exact Or.inl ⟨_, true, hundo, moved hf' hrows hmem hidle hrow⟩
    · exact Or.inr ⟨b, rfl, hstalls⟩

/-- Redo moves along the line. -/
theorem redo (h : d.Follows saved) (hidle : d.history.building = none) :
    ∃ d' done, d.redo = (d', .ok done) ∧ d'.Follows saved := by
  have hfollows := h
  obtain ⟨rows, base, hf, hrows, hmakes, hn⟩ := h
  obtain rfl := eq_of_makes_pending hidle hmakes
  cases hr : d.history.redoable with
  | nil =>
    refine ⟨d, false, ?_, hfollows⟩
    unfold Draft.redo
    rw [hr]
  | cons b rest =>
    obtain ⟨row, hmem, hb, hf'⟩ := hf.redo hr
    obtain ⟨e, hreplay, hrow⟩ := hb.replay rfl
    have hreplay' : b.replay d.document = (e, none) := hreplay
    have hredo : d.redo = (⟨e, { d.history with
        undoable := b :: d.history.undoable, redoable := rest }⟩, .ok true) := by
      simp only [Draft.redo, hr, hreplay']
    exact ⟨_, true, hredo, moved hf' hrows hmem hidle hrow⟩

/-- On the line the mark is at the history only where the document is the saved one. -/
theorem unchanged (h : d.Follows saved) (hidle : d.history.building = none)
    (hmodified : d.history.isModified = false) : d.document.segments = saved := by
  obtain ⟨rows, base, hf, -, hmakes, -⟩ := h
  obtain rfl := eq_of_makes_pending hidle hmakes
  have hmark := hf.mark d.history.undoable.length (by simpa [History.isModified] using hmodified)
  rw [hf.base_eq] at hmark
  exact Option.some.inj hmark

end Follows

/-- Undo fails where the changes of the newest step stall. -/
theorem undo_of_stalls {b : Batch} (hb : b ∈ d.history.undoable.head?)
    (h : Stalls b.changes d.document) : ∃ d' e, d.undo = (d', .error e) := by
  obtain ⟨e, error, hrevert⟩ := h.revert
  unfold undo
  cases hu : d.history.undoable with
  | nil => simp [hu] at hb
  | cons b' rest =>
    obtain rfl : b' = b := by simpa [hu] using hb
    dsimp only
    rw [hrevert]
    exact ⟨_, error, rfl⟩

end Draft

/-! ### Every run -/

namespace Drafted

variable {levels lost : Nat} {d : Draft} {saved : List Segment}

theorem bounded (h : Drafted levels d saved lost) : d.history.Bounded levels := by
  induction h with
  | start doc hn => exact ⟨rfl, fun _ => Nat.zero_le _⟩
  | apply _ happly _ ih =>
    obtain ⟨_, _, _, hhistory⟩ := Draft.of_apply happly
    rw [hhistory]
    exact ih.record _
  | beginBatch _ _ _ ih => exact ih.keep rfl le_rfl
  | endBatch _ ih => exact ih.endBatch
  | undo _ _ hundo ih | undoFailed _ _ hundo ih =>
    have hbounded := Draft.bounded_undo ih
    rwa [hundo] at hbounded
  | redo _ _ hredo ih | redoFailed _ _ hredo ih =>
    have hbounded := Draft.bounded_redo ih
    rwa [hredo] at hbounded
  | save _ _ ih => exact ih.keep rfl le_rfl

/-- As long as no step was given up, the history follows a line of rows. -/
theorem follows (h : Drafted levels d saved lost) (hlost : lost = 0) : d.Follows saved := by
  induction h with
  | start doc hn => exact .start doc hn levels
  | apply _ happly hid ih => exact (ih hlost).apply hid happly
  | beginBatch _ hidle description ih => exact (ih hlost).beginBatch hidle description
  | endBatch _ ih => exact (ih hlost).endBatch
  | undo _ hidle hundo ih =>
    rcases (ih hlost).undo hidle with ⟨e, done, hdone, hfollows⟩ | ⟨b, hb, hstalls⟩
    · rw [hundo] at hdone
      obtain ⟨rfl, -⟩ := Prod.mk.inj hdone
      exact hfollows
    · obtain ⟨e, error, hfailed⟩ := Draft.undo_of_stalls hb hstalls
      rw [hundo] at hfailed
      simp at hfailed
  | redo _ hidle hredo ih =>
    obtain ⟨e, done, hdone, hfollows⟩ := (ih hlost).redo hidle
    rw [hredo] at hdone
    obtain ⟨rfl, -⟩ := Prod.mk.inj hdone
    exact hfollows
  | save _ hidle ih => exact (ih hlost).save hidle
  | undoFailed | redoFailed => exact absurd hlost (Nat.succ_ne_zero _)

end Drafted

/-- What a draft promises about its last save and its bound. -/
structure KeepsMark (levels : Nat) (d : Draft) (saved : List Segment) (lost : Nat) : Prop where
  depth_le : 0 < levels → d.history.undoable.length ≤ levels
  unchanged : lost = 0 → d.history.building = none → d.history.isModified = false →
    d.document.segments = saved
  /-- Undo gives up a step where it comes to an insertion of nothing within a character. -/
  undo_fails_iff : lost = 0 → d.history.building = none →
    ((∃ d' e, d.undo = (d', .error e))
      ↔ ∃ b ∈ d.history.undoable.head?, Stalls b.changes d.document)
  redo_succeeds : lost = 0 → d.history.building = none → ∃ d' done, d.redo = (d', .ok done)

/-- In every run that gave up no step, a draft without modification has the row that was saved. -/
theorem unmodified_unchanged {levels lost : Nat} {d : Draft} {saved : List Segment}
    (h : Drafted levels d saved lost) : KeepsMark levels d saved lost := by
  refine ⟨?_, ?_, ?_, ?_⟩
  · intro hpos
    have hle := h.bounded.depth_le hpos
    omega
  · intro hlost hidle hmodified
    exact (h.follows hlost).unchanged hidle hmodified
  · intro hlost hidle
    constructor
    · rintro ⟨d', e, hfailed⟩
      rcases (h.follows hlost).undo hidle with ⟨_, _, hdone, -⟩ | hstalls
      · rw [hfailed] at hdone
        simp at hdone
      · exact hstalls
    · rintro ⟨b, hb, hstalls⟩
      exact Draft.undo_of_stalls hb hstalls
  · intro hlost hidle
    obtain ⟨d', done, hdone, -⟩ := (h.follows hlost).redo hidle
    exact ⟨d', done, hdone⟩

/-- A run that comes back to the row it saved. -/
theorem unmodified_unchanged_redone :
    ∃ d : Draft, d.history.building = none ∧ d.history.isModified = false
      ∧ d.history.undoable.length = 1 ∧ KeepsMark 1 d [.text "xé".toList] 0 := by
  let doc := Document.ofSegments "/w/s.py".toList [.text "é".toList]
  obtain ⟨d₁, happly, hidle₁, hrow⟩ : ∃ d₁, Draft.apply ⟨doc, .new 1⟩ (.insertText 0 "x".toList)
      = .ok d₁ ∧ d₁.history.building = none ∧ d₁.document.segments = [.text "xé".toList] :=
    ⟨_, rfl, rfl, rfl⟩
  have happlied : Drafted 1 d₁ doc.segments 0 := .apply (.start doc rfl) happly trivial
  have hsaved : Drafted 1 { d₁ with history := d₁.history.markSaved } [.text "xé".toList] 0 := by
    rw [← hrow]
    exact .save happlied hidle₁
  cases happly
  exact ⟨_, rfl, rfl, rfl, unmodified_unchanged (.redo (.undo hsaved rfl rfl) rfl rfl)⟩

/-- Wherever a mutation leads to a row that cannot be cut at every position, a run comes to that row
and takes it for the first one. -/
theorem exists_unmodified_changed {doc e : Document} {m : Mutation} {pos : Nat} (levels : Nat)
    (hn : IsNormal doc.segments) (hid : m.BringsOwnId doc.segments) (happly : m.apply doc = .ok e)
    (hpos : pos ≤ totalLen e.segments) (huncut : ¬ ∃ x z, Cut e.segments pos pos x [] z) :
    ∃ d, Drafted levels d doc.segments 1 ∧ d.history.building = none ∧ d.history.isModified = false
      ∧ d.document = e := by
  obtain ⟨inverse, hinverse⟩ := Mutation.exists_inverse_of_apply happly
  have hvalid : ¬ e.len < pos := Nat.not_lt.2 hpos
  let begun : History := (History.new levels).beginBatch []
  let blind : Change := ⟨.insertText pos [], .removeRange pos pos⟩
  have hfirst : Draft.apply ⟨doc, begun⟩ m = .ok ⟨e, begun.record ⟨m, inverse⟩⟩ := by
    simp [Draft.apply, hinverse, happly, bind, Except.bind, pure, Except.pure]
  have hsecond : Draft.apply ⟨e, begun.record ⟨m, inverse⟩⟩ (.insertText pos [])
      = .ok ⟨e, (begun.record ⟨m, inverse⟩).record blind⟩ := by
    simp [Draft.apply, Mutation.apply_insertText hvalid, Mutation.inverse_insertText hvalid,
      Document.insertText, bind, Except.bind, pure, Except.pure, blind]
  let batch : Batch := ⟨[⟨m, inverse⟩, blind], some []⟩
  have hended : ((begun.record ⟨m, inverse⟩).record blind).endBatch
      = { History.new levels with undoable := [batch] } := by
    show (History.new levels).push batch = _
    rw [History.push_within batch (by simp only [History.new, List.length_nil]; omega)]
    rfl
  have hundo : Draft.undo ⟨e, { History.new levels with undoable := [batch] }⟩
      = (⟨e, .new levels⟩, .error (e.invalid pos)) := by
    have hback := Mutation.removeRange_uncut hpos huncut
    simp [Draft.undo, Batch.revert, batch, blind, Mutation.applyAll, hback, History.new]
  have hrun := Drafted.endBatch (.apply (.apply
    (.beginBatch (.start doc hn : Drafted levels _ _ _) rfl []) hfirst hid) hsecond trivial)
  simp only [hended] at hrun
  exact ⟨_, .undoFailed hrun rfl hundo, rfl, rfl, rfl⟩

end ImageScript
