import Mathlib
import ImageScript.Proofs.Document.Identity

/-!
# Edits in place

The edits as they change a document step by step. A cut divides a run of the row before anything is
inserted or removed, a removal cuts twice, and a replacement removes before it inserts. So a step
that fails behind another one would leave a row that is neither the old nor the new one. It never
comes to that: each edit in place is the edit of the document as a whole, and a refused one leaves
the document it was called on.

Main statements: `Segment.cutAt?_eq`, `Document.Call.run_eq`.
-/

namespace ImageScript

namespace Segment

/-- Divides a row so that a segment begins at a position; with the number of segments before it. -/
def cutAt? : Nat → List Segment → Option (Nat × List Segment)
  | 0, row => some (0, row)
  | _ + 1, [] => none
  | n + 1, s :: rest =>
    if n + 1 < s.len then
      match s with
      | text t => (Text.splitAt? (n + 1) t).map fun (a, b) => (1, text a :: text b :: rest)
      | _ => none
    else (cutAt? (n + 1 - s.len) rest).map fun (i, rest) => (i + 1, s :: rest)

/-- Dividing a row in place and cutting it in two are the same. -/
theorem cutAt?_eq (n : Nat) (row : List Segment) :
    cutAt? n row = (splitAt? n row).map fun p => (p.1.length, p.1 ++ p.2) := by
  induction row generalizing n with
  | nil => cases n <;> rfl
  | cons s rest ih =>
    cases n with
    | zero => rfl
    | succ n =>
      by_cases hs : s.len ≤ n + 1
      · simp only [cutAt?, splitAt?, if_pos hs, if_neg (Nat.not_lt.2 hs), ih, Option.map_map]
        rfl
      · simp only [cutAt?, splitAt?, if_neg hs, if_pos (Nat.lt_of_not_le hs)]
        cases s with
        | text t =>
          simp only [Option.map_map]
          rfl
        | pattern p => rfl
        | region r => rfl

/-- A cut behind some segments is a cut of the rest. -/
theorem splitAt?_append_row (a b : List Segment) {n : Nat} (hn : 0 < n) :
    splitAt? (totalLen a + n) (a ++ b) = (splitAt? n b).map fun p => (a ++ p.1, p.2) := by
  induction a with
  | nil =>
    rw [totalLen, Nat.zero_add]
    simp
  | cons s a ih =>
    obtain ⟨k, hk⟩ : ∃ k, s.len + totalLen a + n = k + 1 := ⟨s.len + totalLen a + n - 1, by omega⟩
    have hrest : k + 1 - s.len = totalLen a + n := by omega
    simp only [totalLen, hk, List.cons_append, splitAt?, if_pos (show s.len ≤ k + 1 by omega), hrest, ih,
      Option.map_map]
    rfl

end Segment

namespace Document

open Segment

/-- The outcome of an edit as a change of a document: a refused edit leaves the document. -/
def settle {α : Type} (d : Document) :
    Except EditError (α × Document) → EStateM.Result EditError Document α
  | .ok (a, e) => .ok a e
  | .error err => .error err d

namespace InPlace

/-- Makes a segment begin at a position and returns the number of segments before it. -/
def cut (pos : Nat) : EStateM EditError Document Nat := do
  let d ← get
  match cutAt? pos d.segments with
  | none => throw (d.invalid pos)
  | some (n, segments) =>
    set { d with segments }
    return n

/-- Puts segments at a position. -/
def insertAt (pos : Nat) (parts : List Segment) : EStateM EditError Document Unit := do
  let n ← cut pos
  modify fun d =>
    { d with segments := normalize (d.segments.take n ++ parts ++ d.segments.drop n) }

def insertText (pos : Nat) (s : Text) : EStateM EditError Document Unit := do
  if s = [] then return
  insertAt pos [.text s]
  modify fun d => { d with
    freshness := (d.freshness.shiftInsert pos (Text.byteLen s)).touch pos (pos + Text.byteLen s)
    version := d.version + 1 }

def insertSegments (pos : Nat) (inserted : List Segment) : EStateM EditError Document Unit := do
  if inserted = [] then return
  insertAt pos inserted
  modify fun d => { d with
    freshness := d.freshness.shiftInsert pos (totalLen inserted)
    version := d.version + 1 }

/-- Takes the segments between two positions out. -/
def takeOut (lo hi : Nat) : EStateM EditError Document (List Segment) := do
  let first ← cut lo
  let last ← cut hi
  modifyGet fun d => ((d.segments.take last).drop first,
    { d with segments := normalize (d.segments.take first ++ d.segments.drop last) })

/-- Removes a range; both ends are looked at before the row is cut. -/
def removeRange (lo hi : Nat) : EStateM EditError Document (List Segment) := do
  let d ← get
  match d.rangeError? lo hi with
  | some e => throw e
  | none =>
    if lo = hi then return []
    match d.segmentsIn lo hi with
    | .error e => throw e
    | .ok _ =>
      let removed ← takeOut lo hi
      modify fun d => { d with
        freshness := (d.freshness.shiftRemove lo hi).touch lo lo
        version := d.version + 1 }
      return removed

def replaceRange (lo hi : Nat) (s : Text) : EStateM EditError Document (List Segment) := do
  let removed ← removeRange lo hi
  insertText lo s
  return removed

variable {d : Document} {lo hi pos : Nat}

theorem cut_of_none (h : splitAt? pos d.segments = none) :
    cut pos d = .error (d.invalid pos) d := by
  have hcut : cutAt? pos d.segments = none := by rw [cutAt?_eq, h]; rfl
  simp only [cut, bind, EStateM.bind, get, getThe, MonadStateOf.get, EStateM.get, hcut]
  rfl

theorem cut_of_some {before after : List Segment}
    (h : splitAt? pos d.segments = some (before, after)) :
    cut pos d = .ok before.length { d with segments := before ++ after } := by
  have hcut : cutAt? pos d.segments = some (before.length, before ++ after) := by
    rw [cutAt?_eq, h]
    rfl
  simp only [cut, bind, EStateM.bind, get, getThe, MonadStateOf.get, EStateM.get, hcut]
  rfl

/-- A single cut, then the insertion. -/
theorem insertAt_eq (d : Document) (pos : Nat) (parts : List Segment) :
    insertAt pos parts d = match d.splice? pos pos parts with
      | none => .error (d.invalid pos) d
      | some (_, segments) => .ok () { d with segments } := by
  unfold splice?
  rw [Nat.sub_self]
  cases h : splitAt? pos d.segments with
  | none =>
    simp only [insertAt, bind, EStateM.bind, cut_of_none h]
    rfl
  | some p =>
    obtain ⟨before, after⟩ := p
    have hnothing : splitAt? 0 after = some ([], after) := by cases after <;> rfl
    simp only [insertAt, bind, EStateM.bind, cut_of_some h, Option.bind_some, hnothing]
    simp [modify, modifyGet, MonadStateOf.modifyGet, EStateM.modifyGet]

/-- The second cut finds the row that the first one left. -/
theorem takeOut_of_splice? {removed segments : List Segment} (hlt : lo < hi)
    (h : d.splice? lo hi [] = some (removed, segments)) :
    takeOut lo hi d = .ok removed { d with segments } := by
  unfold splice? at h
  simp only [Option.bind_eq_bind] at h
  obtain ⟨⟨before, rest⟩, hfirst, h⟩ := Option.bind_eq_some_iff.1 h
  obtain ⟨⟨removed', after⟩, hlast, h⟩ := Option.bind_eq_some_iff.1 h
  simp only [Option.pure_def, Option.some.injEq, Prod.mk.injEq, List.append_nil] at h
  obtain ⟨rfl, rfl⟩ := h
  obtain ⟨-, hlen⟩ := splitAt?_eq_some hfirst
  have hsecond : splitAt? hi (before ++ rest) = some (before ++ removed', after) := by
    have hbehind := splitAt?_append_row before rest (n := hi - lo) (by omega)
    rw [hlen, hlast, show lo + (hi - lo) = hi by omega] at hbehind
    exact hbehind
  have hcut := cut_of_some (d := { d with segments := before ++ rest }) hsecond
  have hbefore : (before ++ removed' ++ after).take before.length = before := by simp
  have hupto : (before ++ removed' ++ after).take (before ++ removed').length
      = before ++ removed' := List.take_left
  have hafter : (before ++ removed' ++ after).drop (before ++ removed').length = after :=
    List.drop_left
  simp only [takeOut, bind, EStateM.bind, cut_of_some hfirst, hcut, modifyGet,
    MonadStateOf.modifyGet, EStateM.modifyGet, hbefore, hupto, hafter, List.drop_left]

/-! ### The edits agree -/

theorem insertText_eq (d : Document) (pos : Nat) (s : Text) :
    insertText pos s d = d.settle ((d.insertText pos s).map ((), ·)) := by
  unfold insertText Document.insertText
  by_cases hs : s = []
  · simp only [if_pos hs]
    rfl
  · simp only [if_neg hs, bind, EStateM.bind, insertAt_eq]
    cases d.splice? pos pos [.text s] with
    | none => rfl
    | some p => rfl

theorem insertSegments_eq (d : Document) (pos : Nat) (inserted : List Segment) :
    insertSegments pos inserted d = d.settle ((d.insertSegments pos inserted).map ((), ·)) := by
  unfold insertSegments Document.insertSegments
  by_cases hs : inserted = []
  · simp only [if_pos hs]
    rfl
  · simp only [if_neg hs, bind, EStateM.bind, insertAt_eq]
    cases d.splice? pos pos inserted with
    | none => rfl
    | some p => rfl

/-- Where both ends were found good, neither cut of a removal fails. -/
theorem removeRange_eq (d : Document) (lo hi : Nat) :
    removeRange lo hi d = d.settle (d.removeRange lo hi) := by
  unfold removeRange Document.removeRange
  simp only [bind, EStateM.bind, get, getThe, MonadStateOf.get, EStateM.get]
  cases herr : d.rangeError? lo hi with
  | some e => rfl
  | none =>
    obtain ⟨hle, -⟩ := rangeError?_eq_none_iff.1 herr
    by_cases heq : lo = hi
    · simp only [if_pos heq]
      rfl
    · simp only [if_neg heq]
      cases hparts : d.segmentsIn lo hi with
      | error e => rfl
      | ok parts =>
        obtain ⟨x, z, hcut⟩ := cut_of_segmentsIn hparts
        obtain ⟨removed, hsplice, -⟩ := splice?_of_cut hcut []
        simp only [hsplice, EStateM.bind, takeOut_of_splice? (by omega) hsplice]
        rfl

end InPlace

/-- Behind a removal of something, text can be inserted where the range began. -/
theorem exists_insertText_of_removeRange {d e : Document} {lo hi : Nat} {removed : List Segment}
    (hne : lo ≠ hi) (h : d.removeRange lo hi = .ok (removed, e)) (s : Text) :
    ∃ e', e.insertText lo s = .ok e' := by
  by_cases hs : s = []
  · exact ⟨e, by unfold insertText; rw [if_pos hs]⟩
  · obtain ⟨x, z, hcut, hrow⟩ := cut_of_removeRange hne h
    have hpoint : Cut e.segments lo lo x [] z := by
      rw [hrow]
      exact hcut.removed
    obtain ⟨e', he', -⟩ := insertText_of_cut hpoint hs
    exact ⟨e', he'⟩

/-- A replacement is refused before anything is removed, or where nothing was to be removed. -/
theorem InPlace.replaceRange_eq (d : Document) (lo hi : Nat) (s : Text) :
    InPlace.replaceRange lo hi s d = d.settle (d.replaceRange lo hi s) := by
  unfold InPlace.replaceRange Document.replaceRange
  simp only [bind, EStateM.bind, Except.bind, removeRange_eq]
  cases hremove : d.removeRange lo hi with
  | error e => rfl
  | ok p =>
    obtain ⟨removed, e⟩ := p
    simp only [settle, insertText_eq]
    by_cases heq : lo = hi
    · have hsame : e = d := by
        unfold Document.removeRange at hremove
        split at hremove
        · simp at hremove
        · rw [if_pos heq] at hremove
          exact (Prod.mk.inj (Except.ok.inj hremove)).2.symm
      subst hsame
      cases e.insertText lo s with
      | error err => rfl
      | ok e' => rfl
    · obtain ⟨e', he'⟩ := exists_insertText_of_removeRange heq hremove s
      simp only [he']
      rfl

/-! ### Calls -/

/-- A call that changes the text of a document, or reads it again. -/
inductive Call (σ : Type) where
  | insertText (pos : Nat) (s : Text)
  | insertSegments (pos : Nat) (inserted : List Segment)
  | removeRange (lo hi : Nat)
  | replaceRange (lo hi : Nat) (s : Text)
  | reparse (b : Bundle) (fs : σ)

namespace Call

variable {σ : Type} [FileSystem σ]

/-- What a call returns, and the document it makes. -/
def apply (d : Document) : Call σ → Except EditError (List Segment × Document)
  | insertText pos s => (d.insertText pos s).map ([], ·)
  | insertSegments pos inserted => (d.insertSegments pos inserted).map ([], ·)
  | removeRange lo hi => d.removeRange lo hi
  | replaceRange lo hi s => d.replaceRange lo hi s
  | reparse b fs => .ok ([], (d.reparse b fs).2)

/-- Makes a call in place. -/
def run : Call σ → EStateM EditError Document (List Segment)
  | insertText pos s => do
    InPlace.insertText pos s
    return []
  | insertSegments pos inserted => do
    InPlace.insertSegments pos inserted
    return []
  | removeRange lo hi => InPlace.removeRange lo hi
  | replaceRange lo hi s => InPlace.replaceRange lo hi s
  | reparse b fs => modifyGet fun d => ([], (d.reparse b fs).2)

/-- Step by step or as a whole, a call comes to the same, and a refused one leaves the document. -/
theorem run_eq (d : Document) (c : Call σ) : c.run d = d.settle (c.apply d) := by
  cases c with
  | insertText pos s =>
    simp only [run, apply, bind, EStateM.bind, InPlace.insertText_eq]
    cases d.insertText pos s with
    | error e => rfl
    | ok e => rfl
  | insertSegments pos inserted =>
    simp only [run, apply, bind, EStateM.bind, InPlace.insertSegments_eq]
    cases d.insertSegments pos inserted with
    | error e => rfl
    | ok e => rfl
  | removeRange lo hi => exact InPlace.removeRange_eq d lo hi
  | replaceRange lo hi s => exact InPlace.replaceRange_eq d lo hi s
  | reparse b fs => rfl

end Call

end Document

end ImageScript
