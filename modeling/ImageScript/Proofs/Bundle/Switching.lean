import Mathlib
import ImageScript.Bundle.Basic
import ImageScript.Files.Store
import ImageScript.Proofs.Files.PathComponents

/-!
# Switching bundles

What `Bundle.activate` does to files in memory. A temporary bundle that is left behind takes its
folder with it, whole, and nothing outside of that folder changes. So of what stands in the folder of
the next bundle only a temporary folder that lies within it is lost.

Main statement: `Bundle.activate_spares`.
-/

namespace ImageScript

namespace Path

variable {p q base other : Path}

theorem isWithin_iff : p.isWithin base = true ↔ base.components <+: p.components :=
  List.isPrefixOf_iff_prefix

theorem isWithin_congr (h : p.key = q.key) (base : Path) : p.isWithin base = q.isWithin base := by
  unfold isWithin
  rw [key_eq_iff.1 h]

/-- Whether a path lies within a folder and is not the folder itself. -/
def IsBelow (p base : Path) : Prop := p.isWithin base = true ∧ p.same base = false

theorem same_comm (p q : Path) : p.same q = q.same p := by
  unfold same
  exact Bool.beq_comm

/-- Of two folders with a path in common, one lies within the other. -/
theorem isWithin_or_isWithin (h : p.isWithin base = true) (h' : p.isWithin other = true) :
    base.isWithin other = true ∨ other.isWithin base = true := by
  rcases List.prefix_or_prefix_of_prefix (isWithin_iff.1 h) (isWithin_iff.1 h') with h | h
  · exact Or.inr (isWithin_iff.2 h)
  · exact Or.inl (isWithin_iff.2 h)

end Path

namespace Store

variable {fs fs' : Store} {p folder : Path}

/-- Whether what stands at a path is the same in two stores: the file with its bytes and the
directory, each in its spelling. -/
structure SameAt (fs fs' : Store) (p : Path) : Prop where
  file_eq : fs'.files[p.key]? = fs.files[p.key]?
  dir_eq : fs'.dirs[p.key]? = fs.dirs[p.key]?

theorem SameAt.refl (fs : Store) (p : Path) : SameAt fs fs p := ⟨rfl, rfl⟩

/-- A store without a folder and everything in it. -/
structure WithoutFolder (fs : Store) (folder : Path) (fs' : Store) : Prop where
  outside : ∀ p, p.isWithin folder = false → SameAt fs fs' p
  inside : ∀ p, p.isWithin folder = true → fs'.has p = false

/-- A directory that is there is removed with everything in it. -/
theorem removeDir_of_hasDir (h : fs.hasDir folder = true) :
    ∃ fs', removeDir folder fs = .ok () fs' ∧ WithoutFolder fs folder fs' := by
  have hrun : removeDir folder fs = .ok () { fs with
      files := fs.files.filter fun _ f => !f.1.isWithin folder
      dirs := fs.dirs.filter fun _ d => !d.isWithin folder
      files_keyed := fs.files_keyed.filter _
      dirs_keyed := fs.dirs_keyed.filter _ } := by
    simp [removeDir, bind, EStateM.bind, get, getThe, MonadStateOf.get, EStateM.get, h]
    rfl
  have hfile : ∀ (p : Path) f, fs.files[p.key]? = some f →
      f.1.isWithin folder = p.isWithin folder :=
    fun p f hf => Path.isWithin_congr (fs.files_keyed _ _ hf) folder
  have hdir : ∀ (p d : Path), fs.dirs[p.key]? = some d → d.isWithin folder = p.isWithin folder :=
    fun p d hd => Path.isWithin_congr (fs.dirs_keyed _ _ hd) folder
  refine ⟨_, hrun, ?_, ?_⟩
  · intro p hp
    constructor
    · rw [Std.TreeMap.getElem?_filter']
      cases hf : fs.files[p.key]? with
      | none => rfl
      | some f => simp [hfile p f hf, hp]
    · rw [Std.TreeMap.getElem?_filter']
      cases hd : fs.dirs[p.key]? with
      | none => rfl
      | some d => simp [hdir p d hd, hp]
  · intro p hp
    unfold has hasDir
    rw [Std.TreeMap.contains_eq_isSome_getElem?, Std.TreeMap.contains_eq_isSome_getElem?,
      Std.TreeMap.getElem?_filter', Std.TreeMap.getElem?_filter', Bool.or_eq_false_iff]
    constructor
    · cases hf : fs.files[p.key]? with
      | none => rfl
      | some f => simp [hfile p f hf, hp]
    · cases hd : fs.dirs[p.key]? with
      | none => rfl
      | some d => simp [hdir p d hd, hp]

theorem removeDir_of_lacks (h : fs.hasDir folder = false) :
    removeDir folder fs = .error (.missing folder) fs := by
  simp [removeDir, bind, EStateM.bind, get, getThe, MonadStateOf.get, EStateM.get, h]
  rfl

end Store

namespace Bundle

variable {previous next : Bundle} {fs fs' : Store}

/-- Whether leaving a bundle for another one takes its folder along. -/
structure Discards (previous next : Bundle) (fs : Store) : Prop where
  temporary : previous.temporary = true
  other : previous.folder.same next.folder = false
  hasDir : fs.hasDir previous.folder = true

theorem switch_of_discards (h : previous.Discards next fs) :
    fs.WithoutFolder previous.folder (previous.switch next fs) := by
  obtain ⟨fs', hrun, hwithout⟩ := Store.removeDir_of_hasDir h.hasDir
  have hrun' : FileSystem.removeDir previous.folder fs = .ok () fs' := hrun
  unfold switch
  rw [h.temporary, h.other, hrun']
  exact hwithout

theorem switch_of_not_discards (h : ¬ previous.Discards next fs) : previous.switch next fs = fs := by
  unfold switch
  split
  · next hguard =>
    rw [Bool.and_eq_true, Bool.not_eq_true'] at hguard
    have hdir : fs.hasDir previous.folder = false := by
      by_contra hdir
      exact h ⟨hguard.1, hguard.2, Bool.not_eq_false _ ▸ hdir⟩
    have hrun : FileSystem.removeDir previous.folder fs = .error _ fs :=
      Store.removeDir_of_lacks hdir
    rw [hrun]
  · rfl

/-- What a switch from one bundle to another leaves of the files. What is discarded is the whole
folder of the previous bundle, so that nothing is said of a next bundle that lies below it. -/
structure Switched (previous next : Bundle) (fs fs' : Store) : Prop where
  outside : ∀ p, p.isWithin previous.folder = false → fs.SameAt fs' p
  unchanged : ¬ previous.Discards next fs → fs' = fs
  disappears : ∀ p, fs.has p = true → fs'.has p = false → previous.temporary = true
  discarded : previous.Discards next fs → ¬ next.folder.IsBelow previous.folder →
    ∀ p, p.isWithin previous.folder = true → fs'.has p = false
  spares : ¬ next.folder.IsBelow previous.folder → ∀ p, p.isWithin next.folder = true →
    ¬ (previous.temporary = true ∧ previous.folder.IsBelow next.folder
      ∧ p.isWithin previous.folder = true) → fs.SameAt fs' p

theorem switched_of_discards (h : previous.Discards next fs)
    (hwithout : fs.WithoutFolder previous.folder fs') : Switched previous next fs fs' := by
  refine ⟨hwithout.outside, fun hnot => absurd h hnot, fun _ _ _ => h.temporary,
    fun _ _ => hwithout.inside, ?_⟩
  intro hbelow p hp hspared
  by_cases hprevious : p.isWithin previous.folder = true
  · rcases Path.isWithin_or_isWithin hprevious hp with hnested | hnested
    · exact absurd ⟨h.temporary, ⟨hnested, h.other⟩, hprevious⟩ hspared
    · exact absurd ⟨hnested, (Path.same_comm ..).trans h.other⟩ hbelow
  · exact hwithout.outside p (Bool.not_eq_true _ ▸ hprevious)

theorem switched_of_not_discards (h : ¬ previous.Discards next fs) :
    Switched previous next fs fs := by
  refine ⟨fun p _ => .refl fs p, fun _ => rfl, ?_, fun hdiscards => absurd hdiscards h,
    fun _ p _ _ => .refl fs p⟩
  intro p hp hp'
  rw [hp] at hp'
  cases hp'

/-- The next bundle becomes active and the previous one is returned. Only what lies in the folder of
the previous one can go, and only if that is temporary; of what lies in the folder of the next one
nothing goes but a temporary folder within it. -/
theorem activate_spares (previous next : Bundle) (fs : Store) :
    ∃ fs', next.activate (previous, fs) = (previous, next, fs')
      ∧ Switched previous next fs fs' := by
  refine ⟨previous.switch next fs, rfl, ?_⟩
  by_cases h : previous.Discards next fs
  · exact switched_of_discards h (switch_of_discards h)
  · rw [switch_of_not_discards h]
    exact switched_of_not_discards h

/-- A temporary folder is discarded from within the folder of the next bundle. -/
theorem not_spares_enclosed : ¬ ∀ (previous next : Bundle) (fs : Store) (p : Path),
    p.isWithin next.folder = true → fs.SameAt (next.activate (previous, fs)).2.2 p := by
  intro h
  let previous : Bundle := ⟨.ofString "/w/t.sikuli", .ofString "/w/t.sikuli/t.py", true⟩
  let next := ofScript (.ofString "/w/s.py")
  let fs := Store.empty.addFile previous.script []
  have hsame := (h previous next fs previous.script (by decide +kernel)).file_eq
  have hthere : (fs.files[previous.script.key]?).isSome = true := by decide +kernel
  have hgone : ((next.activate (previous, fs)).2.2.files[previous.script.key]?).isSome = false := by
    decide +kernel
  rw [hsame, hthere] at hgone
  cases hgone

end Bundle

end ImageScript
