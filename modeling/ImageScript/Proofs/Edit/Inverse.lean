import Mathlib
import ImageScript.Edit.History
import ImageScript.Proofs.Document.Edits

/-!
# Inverses

A mutation acts on the segments of a document alone, and its inverse takes the row it leaves back to
the row it was made for. Two mutations have no such inverse: no text inserted within a character,
which succeeds where nothing can be removed, and a replacing pattern whose id is in use.

Main statements: `Pattern.assign_assign`, `Mutation.exact_of_apply`.
-/

namespace ImageScript

namespace Pattern

open Float.Model (UnpackedFloat)

/-- Two numbers that compare as equal do so in both orders, whichever kinds they are of. -/
theorem compare_eq_symm (a b : UnpackedFloat) (h : a.compare b = some .eq) :
    b.compare a = some .eq := by
  cases a with
  | notANumber => simp [UnpackedFloat.compare] at h
  | infinity s =>
    cases b with
    | infinity t => cases s <;> cases t <;> simp_all [UnpackedFloat.compare, compare]
    | notANumber => cases s <;> simp [UnpackedFloat.compare] at h
    | zero t => cases s <;> simp [UnpackedFloat.compare] at h
    | finite t m e hm => cases s <;> simp [UnpackedFloat.compare] at h
  | zero s =>
    cases b with
    | infinity t => cases t <;> simp [UnpackedFloat.compare] at h
    | notANumber => simp [UnpackedFloat.compare] at h
    | zero t => rfl
    | finite t m e hm => cases t <;> simp [UnpackedFloat.compare] at h
  | finite s m e hm =>
    cases b with
    | infinity t => cases t <;> cases s <;> simp [UnpackedFloat.compare] at h
    | notANumber => cases s <;> simp [UnpackedFloat.compare] at h
    | zero t => cases s <;> simp [UnpackedFloat.compare] at h
    | finite t n f hn =>
      cases s <;> cases t <;> simp_all [UnpackedFloat.compare, Ordering.swap_eq_eq]

/-- Equality of numbers is symmetric, also of those that equal nothing. -/
theorem beq_comm (x y : Float) : (x == y) = (y == x) := by
  show (x.toModel.unpack.compare y.toModel.unpack == some .eq)
    = (y.toModel.unpack.compare x.toModel.unpack == some .eq)
  rw [Bool.eq_iff_iff, beq_iff_eq, beq_iff_eq]
  exact ⟨compare_eq_symm _ _, compare_eq_symm _ _⟩
theorem sameNumber_comm (x y : Option Float) : sameNumber x y = sameNumber y x := by
  cases x <;> cases y <;> simp [sameNumber, beq_comm]

theorem samePath_comm (x y : Option Path) : samePath x y = samePath y x := by
  cases x with
  | none => cases y <;> rfl
  | some p =>
    cases y with
    | none => rfl
    | some q => exact BEq.comm

theorem same_comm (p q : Pattern) : p.same q = q.same p := by
  have hpath := samePath_comm p.resolvedPath q.resolvedPath
  have hsimilarity := beq_comm p.similarity q.similarity
  have hfactor := sameNumber_comm p.resizeFactor q.resizeFactor
  unfold same
  rw [hpath, hsimilarity, hfactor]
  simp only [eq_comm]

/-- Assigning and assigning back leaves a pattern as it was. -/
theorem assign_assign (p q : Pattern) : (assign p (assign q p).2).2 = p := by
  by_cases h : p.same { q with id := p.id } = true
  · have hq : (assign q p).2 = p := by simp [assign, h]
    rw [hq]
    unfold assign
    dsimp only
    split <;> rfl
  · have hq : (assign q p).2 = { q with id := p.id } := by simp [assign, h]
    have hback : ({ q with id := p.id } : Pattern).same p = false := by
      rw [same_comm]
      simpa using h
    rw [hq]
    unfold assign
    dsimp only
    rw [hback]
    rfl

theorem id_assign (p q : Pattern) : (assign q p).2.id = p.id := by
  unfold assign
  dsimp only
  split <;> rfl

end Pattern

namespace Mutation

open Segment Document

/-- Whether a mutation takes every document with one row of segments to another row. -/
def Takes (m : Mutation) (row row' : List Segment) : Prop :=
  ∀ d : Document, d.segments = row →
    ∃ d', m.apply d = .ok d' ∧ d'.segments = row' ∧ d'.ids = d.ids

/-- Whether the inverse of a mutation takes it back. -/
def IsInvertible (row : List Segment) : Mutation → Prop
  | insertText pos s => s ≠ [] ∨ ∃ x z, Cut row pos pos x [] z
  | insertSegments pos inserted => inserted ≠ [] ∨ ∃ x z, Cut row pos pos x [] z
  | replacePattern _ q => q.id ∉ idsOf row
  | _ => True

/-- The ids that a mutation brings along. -/
def newIds : Mutation → List Text
  | insertSegments _ inserted => idsOf inserted
  | replacePattern _ q => [q.id]
  | _ => []

variable {row row' : List Segment} {m : Mutation} {d d' : Document} {pos lo hi : Nat}
  {x y z : List Atom} {id : Text}

/-! ### What a mutation does behind its check -/

theorem bind_of_ok {α β : Type} {a : Except EditError α} {f : α → Except EditError β} {v : α}
    (h : a = .ok v) : a >>= f = f v := by
  rw [h]
  rfl

theorem map_of_ok {α β : Type} {a : Except EditError α} {f : α → β} {v : α} (h : a = .ok v) :
    a.map f = .ok (f v) := by
  rw [h]
  rfl

/-- What the check refuses is neither applied nor inverted. -/
theorem refused_of_validate {e : EditError} (h : m.validate d = .error e) :
    m.apply d = .error e ∧ m.inverse d = .error e := by
  constructor
  · unfold apply
    rw [h]
    rfl
  · unfold inverse
    rw [h]
    rfl

theorem apply_insertText (h : ¬ d.len < pos) (s : Text) :
    (insertText pos s).apply d = d.insertText pos s := by
  have hvalid : (insertText pos s).validate d = .ok () := if_neg h
  exact bind_of_ok hvalid

theorem inverse_insertText (h : ¬ d.len < pos) (s : Text) :
    (insertText pos s).inverse d = .ok (removeRange pos (pos + Text.byteLen s)) := by
  have hvalid : (insertText pos s).validate d = .ok () := if_neg h
  exact bind_of_ok hvalid

theorem apply_insertSegments (h : ¬ d.len < pos) (inserted : List Segment) :
    (insertSegments pos inserted).apply d = d.insertSegments pos inserted := by
  have hvalid : (insertSegments pos inserted).validate d = .ok () := if_neg h
  exact bind_of_ok hvalid

theorem apply_removeRange {parts : List Segment} (h : d.segmentsIn lo hi = .ok parts) :
    (removeRange lo hi).apply d = (d.removeRange lo hi).map Prod.snd := by
  have hvalid : (removeRange lo hi).validate d = .ok () := map_of_ok h
  exact bind_of_ok hvalid

theorem apply_updatePattern {p : Pattern} (h : d.findPattern id = .ok p) (q : Pattern) :
    (updatePattern id q).apply d = .ok { d with
      segments := replaceFirst id (fun _ => .pattern (Pattern.assign q p).2) d.segments
      version := if (Pattern.assign q p).1 then d.version + 1 else d.version } := by
  have hvalid : (updatePattern id q).validate d = .ok () := map_of_ok h
  have hupdate : d.updatePattern id (Pattern.assign q) = .ok (_, _) := bind_of_ok h
  exact (bind_of_ok hvalid).trans (map_of_ok hupdate)

theorem inverse_updatePattern {p : Pattern} (h : d.findPattern id = .ok p) (q : Pattern) :
    (updatePattern id q).inverse d = .ok (updatePattern id p) := by
  have hvalid : (updatePattern id q).validate d = .ok () := map_of_ok h
  exact (bind_of_ok hvalid).trans (bind_of_ok h)

theorem apply_replacePattern {p : Pattern} (h : d.findPattern id = .ok p) (q : Pattern) :
    (replacePattern id q).apply d = .ok { d with
      segments := replaceFirst id (fun _ => .pattern q) d.segments
      version := d.version + 1 } := by
  have hvalid : (replacePattern id q).validate d = .ok () := map_of_ok h
  have hreplace : d.replacePattern id q = .ok (p, _) := bind_of_ok h
  exact (bind_of_ok hvalid).trans (map_of_ok hreplace)

theorem apply_updateRegion {r : Region} (h : d.findRegion id = .ok r) (q : Region) :
    (updateRegion id q).apply d = .ok { d with
      segments := replaceFirst id (fun _ => .region (Region.assign q r).2) d.segments
      version := if (Region.assign q r).1 then d.version + 1 else d.version } := by
  have hvalid : (updateRegion id q).validate d = .ok () := map_of_ok h
  have hupdate : d.updateRegion id (Region.assign q) = .ok (_, _) := bind_of_ok h
  exact (bind_of_ok hvalid).trans (map_of_ok hupdate)

theorem Takes.unique (h : m.Takes row row') (hd : d.segments = row) (ha : m.apply d = .ok d') :
    d'.segments = row' ∧ d'.ids = d.ids := by
  obtain ⟨e, he, hrow, hids⟩ := h d hd
  rw [he, Except.ok.injEq] at ha
  subst ha
  exact ⟨hrow, hids⟩

theorem takes_insertText (hn : IsNormal row) (h : Cut row pos pos x [] z) (s : Text) :
    (insertText pos s).Takes row (Atom.toRow (x ++ s.map .char ++ z)) := by
  rintro d rfl
  rw [apply_insertText (Nat.not_lt.2 h.le_totalLen)]
  by_cases hs : s = []
  · refine ⟨d, if_pos hs, ?_, rfl⟩
    rw [hs, List.map_nil, List.append_nil]
    exact hn.eq_toRow_point h
  · obtain ⟨e, he, hids, hrow⟩ := insertText_of_cut h hs
    exact ⟨e, he, hrow, hids⟩

theorem takes_insertSegments (hn : IsNormal row) (h : Cut row pos pos x [] z)
    (inserted : List Segment) :
    (insertSegments pos inserted).Takes row (Atom.toRow (x ++ atoms inserted ++ z)) := by
  rintro d rfl
  rw [apply_insertSegments (Nat.not_lt.2 h.le_totalLen)]
  by_cases hs : inserted = []
  · refine ⟨d, if_pos hs, ?_, rfl⟩
    rw [hs, atoms_nil, List.append_nil]
    exact hn.eq_toRow_point h
  · obtain ⟨e, he, hids, hrow⟩ := insertSegments_of_cut h hs
    exact ⟨e, he, hrow, hids⟩

theorem takes_removeRange (hn : IsNormal row) (h : Cut row lo hi x y z) :
    (removeRange lo hi).Takes row (Atom.toRow (x ++ z)) := by
  rintro d rfl
  obtain ⟨parts, hparts, -⟩ := segmentsIn_of_cut h
  obtain ⟨removed, e, he, hids, hrow, -⟩ := removeRange_of_cut hn h
  refine ⟨e, ?_, hrow, hids⟩
  rw [apply_removeRange hparts]
  exact map_of_ok he

theorem takes_updatePattern {before after : List Segment} {p : Pattern}
    (h : FirstWith id row before (.pattern p) after) (q : Pattern) :
    (updatePattern id q).Takes row (before ++ .pattern (Pattern.assign q p).2 :: after) := by
  rintro d rfl
  have hfind := findPattern_eq_ok.2 h.find?_eq
  exact ⟨_, apply_updatePattern hfind q, h.replaceFirst_eq _, rfl⟩

theorem takes_replacePattern {before after : List Segment} {p : Pattern}
    (h : FirstWith id row before (.pattern p) after) (q : Pattern) :
    (replacePattern id q).Takes row (before ++ .pattern q :: after) := by
  rintro d rfl
  have hfind := findPattern_eq_ok.2 h.find?_eq
  exact ⟨_, apply_replacePattern hfind q, h.replaceFirst_eq _, rfl⟩

theorem takes_updateRegion {before after : List Segment} {r : Region}
    (h : FirstWith id row before (.region r) after) (q : Region) :
    (updateRegion id q).Takes row (before ++ .region (Region.assign q r).2 :: after) := by
  rintro d rfl
  have hfind := findRegion_eq_ok.2 h.find?_eq
  exact ⟨_, apply_updateRegion hfind q, h.replaceFirst_eq _, rfl⟩

/-! ### What a successful mutation found -/

theorem ok_of_bind {α β : Type} {a : Except EditError α} {f : α → Except EditError β} {b : β}
    (h : a >>= f = .ok b) : ∃ v, a = .ok v ∧ f v = .ok b := by
  cases a with
  | error e => simp [bind, Except.bind] at h
  | ok v => exact ⟨v, rfl, h⟩

theorem ok_of_map {α β : Type} {a : Except EditError α} {f : α → β} {b : β}
    (h : a.map f = .ok b) : ∃ v, a = .ok v ∧ f v = b := by
  cases a with
  | error e => simp [Except.map] at h
  | ok v => exact ⟨v, rfl, Except.ok.inj h⟩

theorem insertText_of_apply {s : Text} (h : (insertText pos s).apply d = .ok d') :
    d.insertText pos s = .ok d' := by
  obtain ⟨-, -, h⟩ := ok_of_bind h
  exact h

theorem insertSegments_of_apply {inserted : List Segment}
    (h : (insertSegments pos inserted).apply d = .ok d') :
    d.insertSegments pos inserted = .ok d' := by
  obtain ⟨-, -, h⟩ := ok_of_bind h
  exact h

/-- What a mutation leaves: a normal row, the same source of ids, and no widget but those of the row
and those of the mutation. -/
structure Leaves (m : Mutation) (d d' : Document) : Prop where
  normal : IsNormal d'.segments
  ids_eq : d'.ids = d.ids
  idsOf_subperm : (idsOf d'.segments).Subperm (idsOf d.segments ++ m.newIds)

theorem Leaves.refl (m : Mutation) (hn : IsNormal d.segments) : m.Leaves d d :=
  ⟨hn, rfl, (List.sublist_append_left ..).subperm⟩

theorem Leaves.idsOf_subset (h : m.Leaves d d') :
    ∀ id ∈ idsOf d'.segments, id ∈ idsOf d.segments ∨ id ∈ m.newIds :=
  fun _ hid => List.mem_append.1 (h.idsOf_subperm.subset hid)

/-- Distinct ids stay so where the mutation brings along none of them, and none twice; further ids
may be told apart from them all. -/
theorem Leaves.nodup {further : List Text} (h : m.Leaves d d')
    (hd : (idsOf d.segments ++ (m.newIds ++ further)).Nodup) :
    (idsOf d'.segments ++ further).Nodup := by
  rw [← List.append_assoc] at hd
  obtain ⟨ids, hperm, hsub⟩ := h.idsOf_subperm.append (List.Subperm.refl further)
  exact hperm.nodup_iff.1 (hd.sublist hsub)

theorem leaves_of_splice {inserted : List Atom} (h : Cut d.segments lo hi x y z)
    (hrow : d'.segments = Atom.toRow (x ++ inserted ++ z)) (hids : d'.ids = d.ids)
    (hnew : inserted.filterMap Atom.id? = m.newIds) : m.Leaves d d' := by
  refine ⟨by rw [hrow]; exact isNormal_toRow _, hids, ?_⟩
  rw [hrow, idsOf_toRow, idsOf_eq_filterMap d.segments, h.atoms_eq, ← hnew]
  simp only [List.filterMap_append, List.append_assoc]
  refine (List.subperm_append_left _).2 ?_
  refine List.perm_append_comm.subperm.trans ?_
  exact (List.sublist_append_right ..).subperm

theorem leaves_of_replace {before after : List Segment} {s w : Segment} (hn : IsNormal d.segments)
    (h : FirstWith id d.segments before s after) (hw : w.isWidget = true)
    (hrow : d'.segments = before ++ w :: after) (hids : d'.ids = d.ids)
    (hnew : w.id? = some id ∨ idsOf [w] = m.newIds) : m.Leaves d d' := by
  refine ⟨?_, hids, ?_⟩
  · rw [hrow, ← h.replaceFirst_eq fun _ => w]
    exact hn.replace id hw
  · have hs : idsOf [s] = [id] := by simp [idsOf, h.id_eq]
    rw [hrow, h.row_eq, idsOf_append, idsOf_append, idsOf_cons w, idsOf_cons s, hs,
      List.append_assoc]
    refine (List.subperm_append_left _).2 ?_
    rcases hnew with hid | hnew
    · have hw' : idsOf [w] = [id] := by simp [idsOf, hid]
      rw [hw']
      exact (List.sublist_append_left ..).subperm
    · rw [hnew, List.append_assoc]
      refine List.perm_append_comm.subperm.trans ?_
      exact (List.sublist_append_right ..).subperm

theorem filterMap_id?_map_char (s : Text) : (s.map Atom.char).filterMap Atom.id? = [] := by
  simp [List.filterMap_map, Function.comp_def, Atom.id?]

theorem leaves_of_apply (hn : IsNormal d.segments) (h : m.apply d = .ok d') : m.Leaves d d' := by
  cases m with
  | insertText pos s =>
    have hinsert := insertText_of_apply h
    by_cases hs : s = []
    · simp only [hs, Document.insertText, if_true, Except.ok.injEq] at hinsert
      subst hinsert
      exact Leaves.refl _ hn
    · obtain ⟨x, z, hcut⟩ := cut_of_insertText hs hinsert
      obtain ⟨hrow, hids⟩ := (takes_insertText hn hcut s).unique rfl h
      exact leaves_of_splice hcut hrow hids (filterMap_id?_map_char s)
  | insertSegments pos inserted =>
    have hinsert := insertSegments_of_apply h
    by_cases hs : inserted = []
    · simp only [hs, Document.insertSegments, if_true, Except.ok.injEq] at hinsert
      subst hinsert
      exact Leaves.refl _ hn
    · obtain ⟨x, z, hcut⟩ := cut_of_insertSegments hs hinsert
      obtain ⟨hrow, hids⟩ := (takes_insertSegments hn hcut inserted).unique rfl h
      exact leaves_of_splice hcut hrow hids (idsOf_eq_filterMap inserted).symm
  | removeRange lo hi =>
    obtain ⟨_, hvalid, -⟩ := ok_of_bind h
    obtain ⟨parts, hparts, -⟩ := ok_of_map hvalid
    obtain ⟨x, z, hcut⟩ := cut_of_segmentsIn hparts
    obtain ⟨hrow, hids⟩ := (takes_removeRange hn hcut).unique rfl h
    have hrow' : d'.segments = Atom.toRow (x ++ [] ++ z) := by simpa using hrow
    exact leaves_of_splice hcut hrow' hids rfl
  | updatePattern id q =>
    obtain ⟨_, hvalid, -⟩ := ok_of_bind h
    obtain ⟨p, hp, -⟩ := ok_of_map hvalid
    obtain ⟨before, after, hfirst⟩ := exists_firstWith (findPattern_eq_ok.1 hp)
    obtain ⟨hrow, hids⟩ := (takes_updatePattern hfirst q).unique rfl h
    refine leaves_of_replace hn hfirst rfl hrow hids (Or.inl ?_)
    rw [← hfirst.id_eq]
    exact congrArg some (Pattern.id_assign p q)
  | replacePattern id q =>
    obtain ⟨_, hvalid, -⟩ := ok_of_bind h
    obtain ⟨p, hp, -⟩ := ok_of_map hvalid
    obtain ⟨before, after, hfirst⟩ := exists_firstWith (findPattern_eq_ok.1 hp)
    obtain ⟨hrow, hids⟩ := (takes_replacePattern hfirst q).unique rfl h
    exact leaves_of_replace hn hfirst rfl hrow hids (Or.inr rfl)
  | updateRegion id q =>
    obtain ⟨_, hvalid, -⟩ := ok_of_bind h
    obtain ⟨r, hr, -⟩ := ok_of_map hvalid
    obtain ⟨before, after, hfirst⟩ := exists_firstWith (findRegion_eq_ok.1 hr)
    obtain ⟨hrow, hids⟩ := (takes_updateRegion hfirst q).unique rfl h
    exact leaves_of_replace hn hfirst rfl hrow hids (Or.inl hfirst.id_eq)

end Mutation

/-- Whether a change takes one row to another one and its inverse takes it back. -/
structure Change.Exact (c : Change) (row row' : List Segment) : Prop where
  forth : c.mutation.Takes row row'
  back : c.inverse.Takes row' row

namespace Mutation

open Segment Document

variable {m inv : Mutation} {d d' : Document} {row : List Segment} {pos lo hi : Nat}
  {x y z : List Atom} {id : Text}

theorem exact_insertText (hn : IsNormal row) (h : Cut row pos pos x [] z) (s : Text) :
    (Change.mk (insertText pos s) (removeRange pos (pos + Text.byteLen s))).Exact row
      (Atom.toRow (x ++ s.map .char ++ z)) := by
  have hcut := h.replaced (s.map .char)
  rw [Atom.totalLen_map_char] at hcut
  refine ⟨takes_insertText hn h s, ?_⟩
  have hback := takes_removeRange (isNormal_toRow _) hcut
  rwa [← hn.eq_toRow_point h] at hback

theorem exact_insertSegments (hn : IsNormal row) (h : Cut row pos pos x [] z)
    (inserted : List Segment) :
    (Change.mk (insertSegments pos inserted)
      (removeRange pos (pos + Segment.totalLen inserted))).Exact row
      (Atom.toRow (x ++ atoms inserted ++ z)) := by
  have hcut := h.replaced (atoms inserted)
  rw [totalLen_atoms] at hcut
  refine ⟨takes_insertSegments hn h inserted, ?_⟩
  have hback := takes_removeRange (isNormal_toRow _) hcut
  rwa [← hn.eq_toRow_point h] at hback

theorem exact_removeRange {parts : List Segment} (hn : IsNormal row)
    (h : Cut row lo hi x (atoms parts) z) :
    (Change.mk (removeRange lo hi) (insertSegments lo parts)).Exact row
      (Atom.toRow (x ++ z)) := by
  refine ⟨takes_removeRange hn h, ?_⟩
  have hback := takes_insertSegments (isNormal_toRow _) h.removed parts
  rwa [← hn.eq_toRow h] at hback

theorem exact_updatePattern {before after : List Segment} {p : Pattern}
    (h : FirstWith id row before (.pattern p) after) (q : Pattern) :
    (Change.mk (updatePattern id q) (updatePattern id p)).Exact row
      (before ++ .pattern (Pattern.assign q p).2 :: after) := by
  have hid : (Segment.pattern (Pattern.assign q p).2).id? = some id := by
    rw [← h.id_eq]
    exact congrArg some (Pattern.id_assign p q)
  have hfirst : FirstWith id (before ++ .pattern (Pattern.assign q p).2 :: after) before _ after :=
    ⟨rfl, hid, h.absent⟩
  have hback := takes_updatePattern hfirst p
  rw [Pattern.assign_assign, ← h.row_eq] at hback
  exact ⟨takes_updatePattern h q, hback⟩

theorem exact_replacePattern {before after : List Segment} {p q : Pattern}
    (h : FirstWith id row before (.pattern p) after) (hq : q.id ∉ idsOf before) :
    (Change.mk (replacePattern id q) (replacePattern q.id p)).Exact row
      (before ++ .pattern q :: after) := by
  have hfirst : FirstWith q.id (before ++ .pattern q :: after) before _ after :=
    ⟨rfl, rfl, fun s hs hid => hq (List.mem_filterMap.2 ⟨s, hs, hid⟩)⟩
  have hback := takes_replacePattern hfirst p
  rw [← h.row_eq] at hback
  exact ⟨takes_replacePattern h q, hback⟩

theorem exact_updateRegion {before after : List Segment} {r : Region}
    (h : FirstWith id row before (.region r) after) (q : Region) :
    (Change.mk (updateRegion id q) (updateRegion id r)).Exact row
      (before ++ .region (Region.assign q r).2 :: after) := by
  have hid : (Segment.region (Region.assign q r).2).id? = some id := h.id_eq
  have hfirst : FirstWith id (before ++ .region (Region.assign q r).2 :: after) before _ after :=
    ⟨rfl, hid, h.absent⟩
  have hback := takes_updateRegion hfirst r
  have hassign : (Region.assign r (Region.assign q r).2).2 = r := rfl
  rw [hassign, ← h.row_eq] at hback
  exact ⟨takes_updateRegion h q, hback⟩

/-- A replacing pattern is taken back where no widget before the replaced one has its id. -/
theorem exact_of_replacePattern {q : Pattern}
    (hq : ∀ before s after, FirstWith id d.segments before s after → q.id ∉ idsOf before)
    (ha : (replacePattern id q).apply d = .ok d')
    (hinv : (replacePattern id q).inverse d = .ok inv) :
    (Change.mk (replacePattern id q) inv).Exact d.segments d'.segments := by
  obtain ⟨-, -, hinv⟩ := ok_of_bind hinv
  obtain ⟨p, hp, hinv⟩ := ok_of_bind hinv
  cases hinv
  obtain ⟨before, after, hfirst⟩ := exists_firstWith (findPattern_eq_ok.1 hp)
  have hexact := exact_replacePattern hfirst (hq _ _ _ hfirst)
  rwa [(hexact.forth.unique rfl ha).1]

/-- A mutation that succeeds where it is invertible is taken back by its inverse. -/
theorem exact_of_apply (hn : IsNormal d.segments) (hi : m.IsInvertible d.segments)
    (ha : m.apply d = .ok d') (hinv : m.inverse d = .ok inv) :
    (Change.mk m inv).Exact d.segments d'.segments := by
  have hinverse := hinv
  obtain ⟨-, -, hinv⟩ := ok_of_bind hinv
  cases m with
  | insertText pos s =>
    have hcut : ∃ x z, Cut d.segments pos pos x [] z := by
      rcases hi with hs | hcut
      · exact cut_of_insertText hs (insertText_of_apply ha)
      · exact hcut
    obtain ⟨x, z, hcut⟩ := hcut
    cases hinv
    have hexact := exact_insertText hn hcut s
    rwa [(hexact.forth.unique rfl ha).1]
  | insertSegments pos inserted =>
    have hcut : ∃ x z, Cut d.segments pos pos x [] z := by
      rcases hi with hs | hcut
      · exact cut_of_insertSegments hs (insertSegments_of_apply ha)
      · exact hcut
    obtain ⟨x, z, hcut⟩ := hcut
    cases hinv
    have hexact := exact_insertSegments hn hcut inserted
    rwa [(hexact.forth.unique rfl ha).1]
  | removeRange lo hi =>
    obtain ⟨parts, hparts, hinv⟩ := ok_of_bind hinv
    cases hinv
    obtain ⟨x, z, hcut⟩ := cut_of_segmentsIn hparts
    have hexact := exact_removeRange hn hcut
    rwa [(hexact.forth.unique rfl ha).1]
  | updatePattern id q =>
    obtain ⟨p, hp, hinv⟩ := ok_of_bind hinv
    cases hinv
    obtain ⟨before, after, hfirst⟩ := exists_firstWith (findPattern_eq_ok.1 hp)
    have hexact := exact_updatePattern hfirst q
    rwa [(hexact.forth.unique rfl ha).1]
  | replacePattern id q =>
    refine exact_of_replacePattern (fun before s after hfirst hmem => hi ?_) ha hinverse
    rw [hfirst.row_eq, idsOf_append]
    exact List.mem_append_left _ hmem
  | updateRegion id q =>
    obtain ⟨r, hr, hinv⟩ := ok_of_bind hinv
    cases hinv
    obtain ⟨before, after, hfirst⟩ := exists_firstWith (findRegion_eq_ok.1 hr)
    have hexact := exact_updateRegion hfirst q
    rwa [(hexact.forth.unique rfl ha).1]

end Mutation

end ImageScript
