import ImageScript.Proofs.Decimal.Sign
import ImageScript.Proofs.Document.KeptWidgets

/-!
# Widgets that equal themselves

There is a number that does not equal itself, and so a row of segments need not be the same as
itself. The widgets of a script hold no such number, however its document was edited. Besides, no
two of them have one id, and so a row that is the same as that of the document is that row.

Main statements: `sameAll_self`, `Synthesis.equalsItself_build`, `Document.SelfEqual.reparse`.
-/

namespace ImageScript

namespace Decimal

open Float.Model Float.Model.UnpackedFloat

theorem compare_self {a : UnpackedFloat} (h : a.isNaN = false) : a.compare a = some .eq := by
  cases a with
  | notANumber => cases h
  | infinity s => cases s <;> rfl
  | zero s => rfl
  | finite s m e hm => cases s <;> simp [UnpackedFloat.compare]

theorem beq_self {x : Float} (h : x.isNaN = false) : (x == x) = true := by
  show (x.toModel.unpack.compare x.toModel.unpack == some .eq) = true
  rw [compare_self h]
  rfl

/-- A number that compares with another one equals itself. -/
theorem beq_self_of_compare {x y : Float} {o : Ordering}
    (h : x.toModel.unpack.compare y.toModel.unpack = some o) : (y == y) = true := by
  refine beq_self ?_
  show y.toModel.unpack.isNaN = false
  cases hy : y.toModel.unpack with
  | notANumber =>
    rw [hy] at h
    cases hx : x.toModel.unpack <;> simp [hx, UnpackedFloat.compare] at h
  | infinity s => rfl
  | zero s => rfl
  | finite s m e hm => rfl

theorem beq_self_of_le {x y : Float} (h : x ≤ y) : (y == y) = true := by
  rw [le_iff] at h
  cases hc : x.toModel.unpack.compare y.toModel.unpack with
  | none => simp [UnpackedFloat.le, hc] at h
  | some o => exact beq_self_of_compare hc

theorem beq_self_of_lt {x y : Float} (h : x < y) : (y == y) = true := by
  rw [lt_iff] at h
  exact beq_self_of_compare (beq_iff_eq.1 h)

end Decimal

namespace Pattern

theorem samePath_self (path : Option Path) : samePath path path = true := by
  cases path <;> simp [samePath, Path.same]

theorem beq_self_clampSimilarity (x : Float) :
    (clampSimilarity x == clampSimilarity x) = true := by
  unfold clampSimilarity
  dsimp only
  split
  · exact Decimal.beq_self rfl
  · next h =>
    split
    · exact Decimal.beq_self_of_le exactSimilarity_settled.nonneg
    · exact Decimal.beq_self (by simpa using (not_or.1 h).2)

theorem beq_self_of_validFactor? {x f : Float} (h : validFactor? x = some f) :
    (f == f) = true := by
  unfold validFactor? at h
  dsimp only at h
  split at h
  · next hpos => exact Option.some.inj h ▸ Decimal.beq_self_of_lt hpos
  · cases h

/-- A pattern as a literal asks for it equals itself, whichever numbers stand in the literal. -/
theorem same_ofLiteral (id name : Text) (l : PatternLiteral) (path : Option Path) :
    ({ ofLiteral id name l with resolvedPath := path } : Pattern).same
      { ofLiteral id name l with resolvedPath := path } = true := by
  have hsimilarity : ((ofLiteral id name l).similarity == (ofLiteral id name l).similarity) = true := by
    unfold ofLiteral
    dsimp only
    split
    · exact Decimal.beq_self_of_le exactSimilarity_settled.nonneg
    · split
      · exact beq_self_clampSimilarity _
      · exact Decimal.beq_self_of_le defaultSimilarity_settled.nonneg
  have hfactor : sameNumber (ofLiteral id name l).resizeFactor (ofLiteral id name l).resizeFactor
      = true := by
    cases hf : (ofLiteral id name l).resizeFactor with
    | none => rfl
    | some f =>
      obtain ⟨x, -, hx⟩ := Option.bind_eq_some_iff.1 hf
      exact beq_self_of_validFactor? hx
  simp [same, samePath_self, hsimilarity, hfactor]

theorem same_pendingCapture (id : Text) :
    (pendingCapture id).same (pendingCapture id) = true := by
  have hsimilarity : (defaultSimilarity == defaultSimilarity) = true :=
    Decimal.beq_self_of_le defaultSimilarity_settled.nonneg
  simp [same, pendingCapture, new, samePath, sameNumber, hsimilarity]

end Pattern

/-- Whether an atom is the same as itself. -/
def Atom.EqualsItself (a : Atom) : Prop := a.toSegment.same a.toSegment = true

namespace Segment

open Atom (EqualsItself)

theorem same_self {s : Segment} (h : ∀ a ∈ s.atomsOf, a.EqualsItself) : same s s = true := by
  cases s with
  | text t => simp [same]
  | pattern p => exact h _ (List.mem_singleton_self _)
  | region r => exact h _ (List.mem_singleton_self _)

theorem sameAll_self {row : List Segment} (h : ∀ a ∈ atoms row, a.EqualsItself) :
    sameAll row row = true := by
  induction row with
  | nil => rfl
  | cons s rest ih =>
    rw [sameAll, same_self fun a ha => h a (List.mem_append_left _ ha),
      ih fun a ha => h a (List.mem_append_right _ ha)]
    rfl

theorem mem_atoms_iff {a : Atom} {row : List Segment} :
    a ∈ atoms row ↔ ∃ s ∈ row, a ∈ s.atomsOf := by
  induction row with
  | nil => simp [atoms]
  | cons s rest ih => simp [atoms, ih]

theorem equalsItself_of_mem_atomsOf {s : Segment} (h : s.isWidget = true → same s s = true) :
    ∀ a ∈ s.atomsOf, a.EqualsItself := by
  intro a ha
  cases s with
  | text t =>
    obtain ⟨c, -, rfl⟩ := List.mem_map.1 ha
    simp [EqualsItself, Atom.toSegment, same]
  | pattern p =>
    obtain rfl := List.mem_singleton.1 ha
    exact h rfl
  | region r =>
    obtain rfl := List.mem_singleton.1 ha
    exact h rfl

/-- A row that is the same as one with distinct ids is that row, if all its widgets with an id from
there are from there. -/
theorem eq_of_sameAll {row row' source : List Segment} (hnodup : (idsOf source).Nodup)
    (hrow : ∀ t ∈ row, t ∈ source)
    (hrow' : ∀ s ∈ row', ∀ id ∈ idsOf source, s.id? = some id → s ∈ source)
    (h : sameAll row' row = true) : row' = row := by
  induction row' generalizing row with
  | nil =>
    cases row with
    | nil => rfl
    | cons t row => cases h
  | cons s row' ih =>
    cases row with
    | nil => cases h
    | cons t row =>
      simp only [sameAll, Bool.and_eq_true] at h
      have ht := hrow t (List.mem_cons_self ..)
      have heq : s = t := by
        by_cases hs : s.isWidget = true
        · obtain ⟨htw, hid⟩ := Document.id?_of_same hs h.1
          obtain ⟨id, hsid⟩ := Document.exists_id hs
          have hmem := mem_idsOf.2 ⟨t, ht, hid.trans hsid⟩
          have hs' := hrow' s (List.mem_cons_self ..) id hmem hsid
          obtain ⟨o, ho⟩ := Document.exists_placed_of_mem hs hs' 0
          obtain ⟨o', ho'⟩ := Document.exists_placed_of_mem htw ht 0
          exact congrArg Prod.snd (Document.placed_unique_of_id hnodup 0 _ ho _ ho' hid.symm)
        · cases s with
          | text a => exact (Document.eq_of_same_text h.1).symm
          | pattern p => exact absurd rfl hs
          | region r => exact absurd rfl hs
      rw [heq, ih (fun u hu => hrow u (List.mem_cons_of_mem _ hu))
        (fun u hu => hrow' u (List.mem_cons_of_mem _ hu)) h.2]

end Segment

namespace Synthesis

open Segment

variable {σ : Type} [FileSystem σ] {b : Bundle} {fs : σ}

theorem same_of_widget? {l : Literal} {ids : IdSource} {w : Segment}
    (h : (widget? b fs l ids).1 = some w) : same w w = true := by
  have hpattern : ∀ {l}, (pattern? b fs l ids).1 = some w → same w w = true := by
    intro l h
    obtain ⟨name, path, -, -, rfl⟩ := exists_of_pattern? h
    exact Pattern.same_ofLiteral _ name l (some path)
  cases l with
  | marker =>
    obtain rfl := Option.some.inj h
    exact Pattern.same_pendingCapture _
  | region r =>
    obtain rfl := Option.some.inj h
    simp [same]
  | chain p => exact hpattern h
  | fileName name => exact hpattern h

/-- What a text is read as equals itself. -/
theorem equalsItself_build (s : Text) (hi cursor : Nat) (ms : List Match) (ids : IdSource) :
    ∀ a ∈ atoms (build b fs s hi cursor ms ids).1, a.EqualsItself := by
  intro a ha
  obtain ⟨t, ht, hat⟩ := mem_atoms_iff.1 ha
  refine equalsItself_of_mem_atomsOf (fun hw => ?_) a hat
  obtain ⟨m, -, ids', hm⟩ := exists_widget?_of_mem_build ht hw
  exact same_of_widget? hm

end Synthesis

namespace Document

open Segment

variable {σ : Type} [FileSystem σ] {d e : Document} {x y y' z : List Atom}

/-- What is built anew is either new or kept. -/
theorem mem_rebuild {b : Bundle} {fs : σ} {base stop : Nat} {old : List Segment} {t : Segment}
    (h : t ∈ rebuild b fs d base stop old) :
    t ∈ (Synthesis.segments b fs d.text base stop d.ids).1 ∨ t ∈ old := by
  rcases mem_keepIdentity h with h | ⟨o, v, h, -⟩
  · exact Or.inl h
  · exact Or.inr (placedWidgets_subset _ _ _ h)

/-- Whether everything in a document equals itself. -/
def SelfEqual (d : Document) : Prop := ∀ a ∈ atoms d.segments, a.EqualsItself

namespace SelfEqual

theorem ofText (s : Text) (b : Bundle) (fs : σ) : (Document.ofText s b fs).SelfEqual :=
  fun a ha => Synthesis.equalsItself_build _ _ _ _ _ a ha

theorem replace (h : d.SelfEqual) (hr : Replaced d e x y y' z) : e.SelfEqual := by
  have hd : ∀ a ∈ x ++ y ++ z, a.EqualsItself := by
    rw [← hr.atoms_eq]
    exact h
  intro a ha
  rw [hr.row_eq, atoms_toRow] at ha
  simp only [List.mem_append] at ha hd
  rcases ha with (ha | ha) | ha
  · exact hd a (Or.inl (Or.inl ha))
  · cases a with
    | char c => simp [Atom.EqualsItself, Atom.toSegment, same]
    | pattern p => exact absurd (hr.plain _ ha) (by simp [Atom.id?])
    | region r => exact absurd (hr.plain _ ha) (by simp [Atom.id?])
  · exact hd a (Or.inr ha)

theorem reparse (h : d.SelfEqual) (b : Bundle) (fs : σ) : (d.reparse b fs).2.SelfEqual := by
  cases hf : d.freshness with
  | clean =>
    unfold Document.reparse
    rw [hf]
    exact h
  | dirty lo hi =>
    obtain ⟨x, y, z, hcut, -⟩ := exists_cut_rereadRange d lo hi
    obtain ⟨old, rfl, -, hrow⟩ := reparse_of_cut b fs hf hcut
    have hd : ∀ a ∈ x ++ atoms old ++ z, a.EqualsItself := by
      rw [← hcut.atoms_eq]
      exact h
    rcases hrow with ⟨-, hrow⟩ | hrow
    · unfold SelfEqual
      rw [hrow]
      exact h
    · intro a ha
      rw [hrow, atoms_toRow] at ha
      simp only [List.mem_append] at ha hd
      rcases ha with (ha | ha) | ha
      · exact hd a (Or.inl (Or.inl ha))
      · obtain ⟨t, ht, hat⟩ := mem_atoms_iff.1 ha
        rcases mem_rebuild ht with ht | ht
        · exact Synthesis.equalsItself_build _ _ _ _ _ a (mem_atoms_iff.2 ⟨t, ht, hat⟩)
        · exact hd a (Or.inl (Or.inr (mem_atoms_iff.2 ⟨t, ht, hat⟩)))
      · exact hd a (Or.inr ha)

end SelfEqual

end Document

end ImageScript
