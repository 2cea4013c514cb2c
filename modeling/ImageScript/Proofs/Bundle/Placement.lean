import ImageScript.Edit.Clipboard
import ImageScript.Proofs.Bundle.CleanupEffect

/-!
# Placing images and taking them back

An image is copied only to a place where there was nothing, so that deleting the copies restores the
files as they were. Placing several images deletes the copies by itself where one of them fails.

Main statements: `Bundle.findPlace_spec`, `Bundle.copyInto_spec`, `Clipboard.placeImages_spec`,
`Clipboard.prepare_spec`.
-/

namespace ImageScript

namespace Store

/-- Whether two stores hold the same files and directories. -/
structure Same (fs fs' : Store) : Prop where
  files_eq : ∀ k : Path.Key, fs'.files[k]? = fs.files[k]?
  dirs_eq : fs'.dirs = fs.dirs
  refused_eq : fs'.refused = fs.refused

theorem Same.refl (fs : Store) : fs.Same fs := ⟨fun _ => rfl, rfl, rfl⟩

/-- Removing a file leaves the store without it; where it is not there, nothing changes. -/
theorem removeFile_spec (fs : Store) (p : Path) :
    ∃ fs', fs.Without [p.key] fs' ∧ (removeFile p fs = .ok () fs'
      ∨ removeFile p fs = .error (.missing p) fs') := by
  by_cases h : p.key ∈ fs.files
  · obtain ⟨fs', hrun, hwithout⟩ := removeFile_of_mem h
    exact ⟨fs', hwithout, Or.inl hrun⟩
  · have hc : fs.files.contains p.key = false := by
      rw [← Bool.not_eq_true]
      exact h
    refine ⟨fs, ⟨?_, rfl, rfl⟩, Or.inr ?_⟩
    · intro k
      by_cases hk : k = p.key
      · rw [if_pos (by simp [hk]), hk]
        exact Std.TreeMap.getElem?_eq_none h
      · rw [if_neg (by simp [hk])]
    · simp [removeFile, bind, EStateM.bind, get, getThe, MonadStateOf.get, EStateM.get, hc]
      rfl

theorem contents?_of_read {fs : Store} {p : Path} {bytes : Bytes} (h : fs.read p = .ok bytes) :
    fs.contents? p = some bytes := by
  unfold read at h
  split at h
  · next found hfound => rw [hfound, Except.ok.inj h]
  · simp at h

theorem has_of_contents? {fs : Store} {p : Path} {bytes : Bytes}
    (h : fs.contents? p = some bytes) : fs.has p = true := by
  have hmem : p.key ∈ fs.files := contents?_isSome_iff.1 (by rw [h]; rfl)
  rw [has, Std.TreeMap.contains_iff_mem.2 hmem, Bool.true_or]

/-- A copy puts the contents of a file at its target, or changes nothing. -/
theorem copy_spec (fs : Store) (source target : Path) :
    (∃ bytes, fs.contents? source = some bytes
        ∧ copy source target fs = .ok () (fs.put target bytes))
      ∨ ∃ e, copy source target fs = .error e fs := by
  simp only [copy, bind, EStateM.bind, get, getThe, MonadStateOf.get, EStateM.get]
  cases hread : fs.read source with
  | error e => exact Or.inr ⟨e, rfl⟩
  | ok bytes =>
    simp only [write, bind, EStateM.bind, get, getThe, MonadStateOf.get, EStateM.get]
    cases fs.writeError? target with
    | some e => exact Or.inr ⟨e, rfl⟩
    | none => exact Or.inl ⟨bytes, contents?_of_read hread, rfl⟩

end Store

namespace Bundle

variable {b : Bundle} {fs fs' : Store} {source : Path}

/-- What copying an image into a bundle does to the files: it puts one where there was nothing, or
uses what is there. In either case the place holds the image. -/
inductive Copied (fs : Store) (source : Path) (placed : Placed) : Store → Prop where
  | put (bytes : Bytes) (hsource : fs.contents? source = some bytes)
      (hcopied : placed.copied = true) (hfree : fs.has placed.path = false) :
      Copied fs source placed (fs.put placed.path bytes)
  | reused (bytes : Bytes) (hsource : fs.contents? source = some bytes)
      (hcopied : placed.copied = false) (hheld : fs.contents? placed.path = some bytes) :
      Copied fs source placed fs

/-- A place that is found lies in the bundle under its name; a place to copy to is free, and any
other holds the image. -/
theorem findPlace_spec {contents : Bytes} {steps : Nat} {name : Text} {placed : Placed}
    (hsource : fs.contents? source = some contents)
    (h : b.findPlace fs source contents steps name = .ok placed) :
    placed.path = b.imagePath placed.name
      ∧ (placed.copied = true → fs.has placed.path = false)
      ∧ (placed.copied = false → fs.contents? placed.path = some contents) := by
  fun_induction findPlace b fs source contents steps name with
  | case1 steps name target hsame =>
    cases h
    refine ⟨rfl, by simp, fun _ => ?_⟩
    rw [← hsource]
    exact fs.contents?_congr (Path.same_iff.1 hsame)
  | case2 steps name target hsame hfree =>
    cases h
    rw [Bool.not_eq_true'] at hfree
    exact ⟨rfl, fun _ => hfree, by simp⟩
  | case3 => simp at h
  | case4 steps name target _ _ hfound =>
    cases h
    exact ⟨rfl, by simp, fun _ => Store.contents?_of_read hfound⟩
  | case5 => simp at h
  | case6 name target hsame hfree found hfound hother steps ih => exact ih h

/-- An image is copied under its name in the bundle; one that cannot be copied leaves the files as
they were. -/
theorem copyInto_spec (b : Bundle) (source : Path) (fs : Store) :
    (∃ placed fs', b.copyInto source fs = .ok placed fs'
        ∧ placed.path = b.imagePath placed.name ∧ Copied fs source placed fs')
      ∨ ∃ e, b.copyInto source fs = .error e fs := by
  simp only [copyInto, bind, EStateM.bind, get, getThe, MonadStateOf.get, EStateM.get]
  cases imageFileName? source with
  | none => exact Or.inr ⟨_, rfl⟩
  | some name =>
    dsimp only
    cases hread : FileSystem.read fs source with
    | error e => exact Or.inr ⟨_, rfl⟩
    | ok contents =>
      have hsource := Store.contents?_of_read hread
      dsimp only
      cases hplace : b.findPlace fs source contents (FileSystem.size fs) name with
      | error e => exact Or.inr ⟨_, rfl⟩
      | ok placed =>
        obtain ⟨hpath, hfree, hheld⟩ := findPlace_spec hsource hplace
        dsimp only
        by_cases hcopied : placed.copied = true
        · simp only [if_pos hcopied, EStateM.bind, EStateM.adaptExcept, FileSystem.copy]
          rcases Store.copy_spec fs source placed.path with ⟨bytes, hbytes, hcopy⟩ | ⟨e, hcopy⟩
          · rw [hcopy]
            exact Or.inl ⟨placed, _, rfl, hpath, .put bytes hbytes hcopied (hfree hcopied)⟩
          · rw [hcopy]
            exact Or.inr ⟨_, rfl⟩
        · simp only [if_neg hcopied]
          have hreused : placed.copied = false := by simpa using hcopied
          exact Or.inl ⟨placed, fs, rfl, hpath,
            .reused contents hsource hreused (hheld hreused)⟩

end Bundle

namespace Clipboard

/-- The keys under which images were copied. -/
def Prepared.copiedKeys (p : Prepared) : List Path.Key :=
  (p.placed.filter (·.copied)).map fun image => image.path.key

/-- Whether a store holds, besides what another one holds, the copies of some images, each at a place
that was free. -/
structure HoldsCopies (fs : Store) (p : Prepared) (fs' : Store) : Prop where
  kept : ∀ k, k ∉ p.copiedKeys → fs'.files[k]? = fs.files[k]?
  free : ∀ k ∈ p.copiedKeys, fs.files[k]? = none
  dirs_eq : fs'.dirs = fs.dirs
  refused_eq : fs'.refused = fs.refused

variable {fs fs' : Store} {p : Prepared}

theorem HoldsCopies.empty (fs : Store) : HoldsCopies fs .empty fs := by
  refine ⟨fun _ _ => rfl, ?_, rfl, rfl⟩
  intro k hk
  simp [Prepared.copiedKeys, Prepared.empty] at hk

theorem copiedKeys_add (p : Prepared) (name : Text) (image : Bundle.Placed) :
    (p.add name image).copiedKeys
      = p.copiedKeys ++ if image.copied then [image.path.key] else [] := by
  unfold Prepared.copiedKeys Prepared.add
  by_cases h : image.copied = true <;> simp [h]

/-- One more image that was placed. -/
theorem HoldsCopies.add {source : Path} {image : Bundle.Placed} {after : Store}
    (h : HoldsCopies fs p fs') (hcopied : Bundle.Copied fs' source image after) (name : Text) :
    HoldsCopies fs (p.add name image) after := by
  have hkeys := copiedKeys_add p name image
  cases hcopied with
  | reused bytes _ hreused _ =>
    rw [if_neg (by simp [hreused]), List.append_nil] at hkeys
    exact ⟨by rw [hkeys]; exact h.kept, by rw [hkeys]; exact h.free, h.dirs_eq, h.refused_eq⟩
  | put bytes _ hnew hfree =>
    rw [if_pos hnew] at hkeys
    have habsent : fs'.files[image.path.key]? = none := by
      unfold Store.has at hfree
      rw [Bool.or_eq_false_iff] at hfree
      rw [Std.TreeMap.getElem?_eq_none]
      exact Bool.not_eq_true _ ▸ hfree.1
    refine ⟨?_, ?_, h.dirs_eq, h.refused_eq⟩
    · intro k hk
      rw [hkeys, List.mem_append, not_or, List.mem_singleton] at hk
      rw [Store.getElem?_put, if_neg hk.2, h.kept k hk.1]
    · intro k hk
      rw [hkeys, List.mem_append, List.mem_singleton] at hk
      rcases hk with hk | rfl
      · exact h.free k hk
      · by_cases hold : image.path.key ∈ p.copiedKeys
        · exact h.free _ hold
        · rw [← h.kept _ hold]
          exact habsent

/-- Taking images back leaves the store without their copies. -/
theorem without_rollback (p : Prepared) (fs : Store) : fs.Without p.copiedKeys (p.rollback fs) := by
  unfold Prepared.rollback Prepared.copiedKeys
  generalize p.placed.filter (·.copied) = images
  induction images generalizing fs with
  | nil => exact ⟨by simp, rfl, rfl⟩
  | cons image images ih =>
    obtain ⟨fs', hwithout, hrun⟩ := Store.removeFile_spec fs image.path
    have hrest := hwithout.cons (ih fs')
    rw [List.foldl_cons]
    rcases hrun with hrun | hrun
    · have hremove : FileSystem.removeFile image.path fs = .ok () fs' := hrun
      simp only [hremove]
      exact hrest
    · have hremove : FileSystem.removeFile image.path fs = .error (.missing image.path) fs' := hrun
      simp only [hremove]
      exact hrest

/-- Taking all copies back restores the store. -/
theorem HoldsCopies.rollback (h : HoldsCopies fs p fs') : fs.Same (p.rollback fs') := by
  have hwithout := without_rollback p fs'
  refine ⟨?_, hwithout.dirs_eq.trans h.dirs_eq, hwithout.refused_eq.trans h.refused_eq⟩
  intro k
  rw [hwithout.files]
  by_cases hk : k ∈ p.copiedKeys
  · rw [if_pos hk, h.free k hk]
  · rw [if_neg hk, h.kept k hk]

/-- Images are placed all or none. -/
theorem placeImages_spec (b : Bundle) (images : List (Text × Path)) {fs₀ : Store}
    (h : HoldsCopies fs₀ p fs) :
    (∃ q fs', placeImages b images p fs = .ok q fs' ∧ HoldsCopies fs₀ q fs')
      ∨ ∃ e fs', placeImages b images p fs = .error e fs' ∧ fs₀.Same fs' := by
  induction images generalizing p fs with
  | nil => exact Or.inl ⟨p, fs, rfl, h⟩
  | cons entry images ih =>
    obtain ⟨name, source⟩ := entry
    unfold placeImages
    by_cases hhas : FileSystem.has fs source = true
    · simp only [if_pos hhas]
      rcases Bundle.copyInto_spec b source fs with ⟨image, fs', hcopy, -, hcopied⟩ | ⟨e, hcopy⟩
      · rw [hcopy]
        exact ih (h.add hcopied name)
      · rw [hcopy]
        exact Or.inr ⟨e, _, rfl, h.rollback⟩
    · simp only [if_neg hhas]
      exact ih h

theorem prepare_spec (payload : ClipboardPayload) (b : Bundle) (fs : Store) :
    (∃ p fs', prepare payload b fs = .ok p fs' ∧ HoldsCopies fs p fs')
      ∨ ∃ e fs', prepare payload b fs = .error e fs' ∧ fs.Same fs' := by
  simp only [prepare, bind, EStateM.bind, EStateM.adaptExcept]
  rcases placeImages_spec b payload.images.toList (HoldsCopies.empty fs) with
    ⟨q, fs', hplace, hcopies⟩ | ⟨e, fs', hplace, hsame⟩
  · rw [hplace]
    exact Or.inl ⟨_, fs', rfl, hcopies.kept, hcopies.free, hcopies.dirs_eq, hcopies.refused_eq⟩
  · rw [hplace]
    exact Or.inr ⟨_, fs', rfl, hsame⟩

end Clipboard

end ImageScript
