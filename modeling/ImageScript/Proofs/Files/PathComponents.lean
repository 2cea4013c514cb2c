import Mathlib.Data.List.Basic
import Mathlib.Data.List.TakeWhile
import ImageScript.Files.Path

/-!
# Paths by their components

What `parent?`, `fileName?` and `join` do to the components of a path. Main statements: a path with
a file name consists of its parent and that name, and joining a plain file name adds it as the last
component. So the children of a directory are told apart by their file names alone.
-/

namespace ImageScript.Path

/-- Whether a text can stand as one name in a path. -/
structure IsName (n : Text) : Prop where
  ne_nil : n ≠ []
  ne_here : n ≠ ['.']
  ne_up : n ≠ ['.', '.']
  no_slash : '/' ∉ n

theorem IsName.not_idle {n : Text} (h : IsName n) : isIdle n = false := by
  simp [isIdle, h.ne_nil, h.ne_here]

theorem IsName.componentOf {n : Text} (h : IsName n) : componentOf n = .name n := by
  simp [Path.componentOf, h.ne_up]

theorem eq_of_componentOf {piece n : Text} (h : Path.componentOf piece = .name n) : piece = n := by
  unfold Path.componentOf at h
  split at h
  · simp at h
  · exact Component.name.inj h

theorem isName_of_componentOf {piece n : Text} (h : Path.componentOf piece = .name n)
    (hi : isIdle piece = false) (hs : '/' ∉ piece) : IsName n := by
  simp only [isIdle, Bool.or_eq_false_iff, decide_eq_false_iff_not] at hi
  simp only [Path.componentOf] at h
  split at h
  · simp at h
  · next hu =>
    obtain rfl := Component.name.inj h
    exact ⟨hi.1, hi.2, hu, hs⟩

/-- The component that the text before the first slash stands for, if it stands for one. -/
def firstComponents (first : Text) (others : List Text) : List Component :=
  if first = [] then if others = [] then [] else [.root]
  else if first = ['.'] then [.here] else [componentOf first]

/-- The components that the other parts stand for. -/
def otherComponents (others : List Text) : List Component :=
  (others.filter (!isIdle ·)).map componentOf

theorem components_eq (p : Path) :
    p.components = firstComponents (Text.pieces '/' p.text).1 (Text.pieces '/' p.text).2
      ++ otherComponents (Text.pieces '/' p.text).2 := rfl

theorem otherComponents_append (a b : List Text) :
    otherComponents (a ++ b) = otherComponents a ++ otherComponents b := by
  simp [otherComponents]

theorem otherComponents_eq_nil {others : List Text} (h : ∀ part ∈ others, isIdle part = true) :
    otherComponents others = [] := by
  simp only [otherComponents, List.map_eq_nil_iff, List.filter_eq_nil_iff]
  intro part hpart
  simp [h part hpart]

/-- Idle parts at the end stand for no component. -/
theorem otherComponents_dropWhile_reverse (others : List Text) :
    otherComponents (others.reverse.dropWhile isIdle).reverse = otherComponents others := by
  have hsplit : others
      = (others.reverse.dropWhile isIdle).reverse ++ (others.reverse.takeWhile isIdle).reverse := by
    rw [← List.reverse_append, List.takeWhile_append_dropWhile, List.reverse_reverse]
  have hidle : otherComponents (others.reverse.takeWhile isIdle).reverse = [] := by
    apply otherComponents_eq_nil
    intro part hpart
    exact List.mem_takeWhile_imp (List.mem_reverse.1 hpart)
  calc otherComponents (others.reverse.dropWhile isIdle).reverse
      = otherComponents (others.reverse.dropWhile isIdle).reverse
        ++ otherComponents (others.reverse.takeWhile isIdle).reverse := by
        rw [hidle, List.append_nil]
    _ = otherComponents others := by rw [← otherComponents_append, ← hsplit]

/-- A path whose other parts end in `last`, idle parts apart, consists of its parent and what the
last part stands for. -/
theorem components_of_parts {p : Path} {last : Text} {before : List Text}
    (h : (Text.pieces '/' p.text).2.reverse.dropWhile isIdle = last :: before) :
    ∃ q, p.parent? = some q ∧ isIdle last = false ∧ '/' ∉ last ∧
      p.components = q.components ++ [componentOf last] := by
  obtain ⟨hf, ho⟩ := Text.not_mem_pieces '/' p.text
  have hmem : ∀ part ∈ last :: before, '/' ∉ part := by
    intro part hpart
    rw [← h] at hpart
    exact ho part (List.mem_reverse.1 ((List.dropWhile_sublist _).subset hpart))
  have hidle : isIdle last = false := by
    have := List.head_dropWhile_not isIdle (l := (Text.pieces '/' p.text).2.reverse) (by simp [h])
    simpa [h] using this
  have hothers : otherComponents (Text.pieces '/' p.text).2
      = otherComponents (before.dropWhile isIdle).reverse ++ [componentOf last] := by
    rw [← otherComponents_dropWhile_reverse, h, List.reverse_cons, otherComponents_append]
    have hb := otherComponents_dropWhile_reverse before.reverse
    rw [List.reverse_reverse] at hb
    rw [hb]
    simp [otherComponents, hidle]
  have hne : (Text.pieces '/' p.text).2 ≠ [] := by
    intro h0
    simp [h0] at h
  have hkept : ∀ part ∈ (before.dropWhile isIdle).reverse, '/' ∉ part := by
    intro part hpart
    have := (List.dropWhile_sublist _).subset (List.mem_reverse.1 hpart)
    exact hmem part (List.mem_cons_of_mem _ this)
  have hparent : p.parent? = some ⟨if (Text.pieces '/' p.text).1 = [] ∧
      (before.dropWhile isIdle).reverse = [] then ['/']
      else Text.joinPieces '/' (Text.pieces '/' p.text).1 (before.dropWhile isIdle).reverse⟩ := by
    simp [parent?, h]
  refine ⟨_, hparent, hidle, hmem last (List.mem_cons_self ..), ?_⟩
  rw [components_eq p, hothers, ← List.append_assoc]
  congr 1
  split
  · next hroot =>
    rw [components_eq]
    simp [hroot.1, hroot.2, Text.pieces, firstComponents, otherComponents, hne, isIdle]
  · next hroot =>
    rw [components_eq, Text.pieces_joinPieces hf hkept]
    simp only [firstComponents, hne, if_false]
    split
    · next h0 => simp only [h0, true_and] at hroot; simp [hroot]
    · rfl

theorem getLast?_of_fileName? {p : Path} {n : Text} (h : p.fileName? = some n) :
    p.components.getLast? = some (.name n) := by
  unfold fileName? at h
  split at h
  · next m hm => rw [hm, Option.some.inj h]
  · simp at h

/-- A path with a file name has a parent, and consists of it and the name. -/
theorem components_of_fileName? {p : Path} {n : Text} (h : p.fileName? = some n) :
    ∃ q, p.parent? = some q ∧ IsName n ∧ p.components = q.components ++ [.name n] := by
  have hlast := getLast?_of_fileName? h
  cases hd : (Text.pieces '/' p.text).2.reverse.dropWhile isIdle with
  | nil =>
    have hidle : ∀ part ∈ (Text.pieces '/' p.text).2, isIdle part = true := by
      intro part hpart
      exact List.dropWhile_eq_nil_iff.1 hd part (List.mem_reverse.2 hpart)
    have hcomps : p.components
        = firstComponents (Text.pieces '/' p.text).1 (Text.pieces '/' p.text).2 := by
      rw [components_eq, otherComponents_eq_nil hidle, List.append_nil]
    rw [hcomps] at hlast ⊢
    simp only [firstComponents] at hlast ⊢
    split at hlast
    · split at hlast <;> simp at hlast
    · next hf =>
      split at hlast
      · simp at hlast
      · next hh =>
        simp only [List.getLast?_singleton, Option.some.injEq] at hlast
        have hname : IsName n :=
          isName_of_componentOf hlast (by simp [isIdle, hf, hh]) (Text.not_mem_pieces '/' p.text).1
        refine ⟨⟨[]⟩, by simp [parent?, hd, hf], hname, ?_⟩
        simp [hf, hh, hlast, components, componentsOf, Text.pieces]
  | cons last before =>
    obtain ⟨q, hq, hidle, hslash, hcomps⟩ := components_of_parts hd
    rw [hcomps, List.getLast?_concat, Option.some.injEq] at hlast
    exact ⟨q, hq, isName_of_componentOf hlast hidle hslash, by rw [hcomps, hlast]⟩

theorem firstComponents_append {first : Text} {others : List Text} (more : List Text)
    (h : first ≠ [] ∨ others ≠ []) :
    firstComponents first (others ++ more) = firstComponents first others := by
  simp only [firstComponents]
  rcases h with h | h <;> simp [h]

/-- Joining a plain name adds it as the last component. -/
theorem components_join (q : Path) {n : Text} (h : IsName n) :
    (q.join n).components = q.components ++ [.name n] := by
  have hhead : n.head? ≠ some '/' := fun hn => h.no_slash (List.mem_of_mem_head? hn)
  have hn : otherComponents [n] = [.name n] := by
    simp [otherComponents, h.not_idle, h.componentOf]
  simp only [join, hhead, if_false]
  by_cases h0 : q.text = []
  · simp [h0, components, componentsOf, Text.pieces_of_not_mem h.no_slash, h.ne_nil, h.ne_here,
      h.componentOf, Text.pieces]
  by_cases hslash : q.text.getLast? = some '/'
  · obtain ⟨a, ha⟩ := List.getLast?_eq_some_iff.1 hslash
    rw [if_pos (Or.inr hslash)]
    simp only [components_eq, ha, List.append_assoc, List.singleton_append,
      Text.pieces_append_sep, Text.pieces_of_not_mem h.no_slash, Text.pieces]
    have hempty : otherComponents [[]] = [] := by simp [otherComponents, isIdle]
    rw [otherComponents_append, otherComponents_append, hn, hempty, List.append_nil,
      ← List.append_assoc]
    simp [firstComponents]
  · rw [if_neg (by simp [h0, hslash])]
    have hne : (Text.pieces '/' q.text).1 ≠ [] ∨ (Text.pieces '/' q.text).2 ≠ [] := by
      by_contra hc
      simp only [not_or, not_not] at hc
      have hj := Text.joinPieces_pieces '/' q.text
      rw [hc.1, hc.2] at hj
      exact h0 hj.symm
    rw [components_eq, Text.pieces_append_sep, Text.pieces_of_not_mem h.no_slash,
      firstComponents_append _ hne, otherComponents_append, hn, ← List.append_assoc,
      ← components_eq]

theorem Component.key_injective : Function.Injective Component.key := by
  intro a b h
  cases a <;> cases b <;> simp_all [Component.key]
  exact List.map_injective_iff.2 (fun _ _ => Char.toNat_inj.1) h

/-- Paths are looked up by their components. -/
theorem key_eq_iff {p q : Path} : p.key = q.key ↔ p.components = q.components :=
  ⟨fun h => List.map_injective_iff.2 Component.key_injective h, fun h => by rw [key, key, h]⟩

theorem same_iff {p q : Path} : p.same q = true ↔ p.key = q.key := by
  rw [key_eq_iff]
  exact beq_iff_eq

/-- Whether a path lies directly in a directory. -/
def IsChildOf (p dir : Path) : Prop := p.parent?.any (·.same dir) = true

theorem isName_of_fileName? {p : Path} {n : Text} (h : p.fileName? = some n) : IsName n := by
  obtain ⟨_, _, hname, _⟩ := components_of_fileName? h
  exact hname

theorem fileName?_join (dir : Path) {n : Text} (h : IsName n) :
    (dir.join n).fileName? = some n := by
  simp [fileName?, components_join dir h]

/-- The children of a directory are what their file names lead to from there. -/
theorem isChildOf_iff {p : Path} {n : Text} (hn : p.fileName? = some n) (dir : Path) :
    p.IsChildOf dir ↔ p.key = (dir.join n).key := by
  obtain ⟨q, hq, hname, hcomps⟩ := components_of_fileName? hn
  rw [key_eq_iff, hcomps, components_join dir hname, List.append_left_inj, IsChildOf, hq,
    Option.any_some, same_iff, key_eq_iff]

/-- Whether a path lies in a directory, and its file name, are a matter of its components. -/
theorem fileName?_congr {p q : Path} (h : p.key = q.key) : p.fileName? = q.fileName? := by
  rw [fileName?, fileName?, key_eq_iff.1 h]

end ImageScript.Path
