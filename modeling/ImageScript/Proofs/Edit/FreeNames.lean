import ImageScript.Edit.Session
import ImageScript.Proofs.Bundle.Searching

/-!
# Free names

Where a name is taken, the next one in its row is tried. No name comes twice as long as no number is
counted up beyond 64 bits, whatever would happen there, and behind the names of images and files
stand names of images and files. So each search for a free name comes to an end among the files and
directories there are, that for the place of a new capture at a path in the folder of the bundle
that is free.

Main statements: `ImageName.iterate_eq_next`, `Session.vacant_iff`, `free_names_found`.
-/

namespace ImageScript

/-! ### Names -/

namespace ImageName

/-- Whether the number behind the last dash of a name is the greatest one of 64 bits. -/
def IsLast (name : Text) : Prop :=
  ∃ base digits, Text.splitLast? '-' (splitExtension name).1 = some (base, digits)
    ∧ Text.toNat? digits = some (UInt64.size - 1)

/-- A way from name to name that leaves open only what becomes of a last number leads along the row
up to there. -/
theorem iterate_eq_next {step : Text → Text} (hstep : ∀ name, ¬ IsLast name → step name = next name)
    {name : Text} {n : Nat} (hn : ∀ i < n, ¬ IsLast (step^[i] name)) :
    ∀ i ≤ n, step^[i] name = next^[i] name := by
  intro i hi
  induction i with
  | zero => rfl
  | succ i ih =>
    rw [Function.iterate_succ_apply', Function.iterate_succ_apply', hstep _ (hn i hi),
      ih (Nat.le_of_succ_le hi)]

theorem isImage_iterate {name : Text} (h : isImage name = true) (k : Nat) :
    isImage (next^[k] name) = true := by
  induction k with
  | zero => exact h
  | succ k ih =>
    rw [Function.iterate_succ_apply']
    exact isImage_next ih

theorem isLeaf_iff {name : Text} :
    isLeaf name = true ↔ Path.IsName name ∧ '\\' ∉ name := by
  simp only [isLeaf, Bool.and_eq_true, decide_eq_true_eq, Bool.not_eq_true', List.contains_eq_mem,
    decide_eq_false_iff_not]
  constructor
  · rintro ⟨⟨⟨⟨hne, hhere⟩, hup⟩, hslash⟩, hback⟩
    exact ⟨⟨hne, hhere, hup, hslash⟩, hback⟩
  · rintro ⟨⟨hne, hhere, hup, hslash⟩, hback⟩
    exact ⟨⟨⟨⟨hne, hhere⟩, hup⟩, hslash⟩, hback⟩

/-- Behind a file name without directories stand such names. -/
theorem isLeaf_iterate {name : Text} (h : isLeaf name = true) (k : Nat) :
    isLeaf (next^[k] name) = true := by
  obtain ⟨hname, hback⟩ := isLeaf_iff.1 h
  refine isLeaf_iff.2 ⟨hname.iterate k, ?_⟩
  induction k with
  | zero => exact hback
  | succ k ih =>
    rw [Function.iterate_succ_apply']
    intro hmem
    rcases mem_next hmem with hmem | hmem | hmem
    · exact ih hmem
    · exact absurd hmem (by decide)
    · exact absurd hmem (by decide)

end ImageName

/-! ### Places -/

namespace Session

variable {b : Bundle} {fs : Store} {name : Text} {p : Path}

/-- The search for a free place without a bound on its steps, from a name on. -/
inductive Vacant (b : Bundle) (fs : Store) : Text → Path → Prop where
  | here {name : Text} (free : fs.has (b.imagePath name) = false) :
      Vacant b fs name (b.imagePath name)
  | later {name : Text} {p : Path} (taken : fs.has (b.imagePath name) = true)
      (search : Vacant b fs (ImageName.next name) p) : Vacant b fs name p

theorem Vacant.unique {q : Path} (h : Vacant b fs name p) (h' : Vacant b fs name q) : p = q := by
  induction h with
  | here free =>
    cases h' with
    | here => rfl
    | later taken => simp [free] at taken
  | later taken search ih =>
    cases h' with
    | here free => simp [free] at taken
    | later _ search' => exact ih search'

/-- The place that is found is free, and that of a name in the row. -/
theorem Vacant.spec (h : Vacant b fs name p) :
    fs.has p = false ∧ ∃ k, p = b.imagePath (ImageName.next^[k] name) := by
  induction h with
  | here free => exact ⟨free, 0, rfl⟩
  | later taken search ih =>
    obtain ⟨hfree, k, hp⟩ := ih
    exact ⟨hfree, k + 1, hp⟩

/-- Where one of the names that are tried is free, the search ends with it or before. -/
theorem vacant_freeImage {steps : Nat}
    (h : ∃ k ≤ steps, fs.has (b.imagePath (ImageName.next^[k] name)) = false) :
    Vacant b fs name (freeImage b fs steps name) := by
  induction steps generalizing name with
  | zero =>
    obtain ⟨k, hk, hfree⟩ := h
    obtain rfl := Nat.le_zero.1 hk
    exact .here hfree
  | succ steps ih =>
    have hhas : FileSystem.has fs (b.imagePath name) = fs.has (b.imagePath name) := rfl
    rw [freeImage, hhas]
    split
    · next htaken =>
      obtain ⟨k, hk, hfree⟩ := h
      cases k with
      | zero =>
        rw [Function.iterate_zero_apply, htaken] at hfree
        cases hfree
      | succ k => exact .later htaken (ih ⟨k, Nat.le_of_succ_le_succ hk, hfree⟩)
    · next hfree => exact .here (Bool.eq_false_iff.2 hfree)

/-- As many names as there are files and directories cannot all be taken. -/
theorem exists_free (b : Bundle) (fs : Store) (hname : Path.IsName name) :
    ∃ k ≤ FileSystem.size fs, fs.has (b.imagePath (ImageName.next^[k] name)) = false := by
  obtain ⟨k, hk, hkey⟩ := b.exists_key_not_mem hname (fs.files.keys ++ fs.dirs.keys)
  rw [List.length_append, Std.TreeMap.length_keys, Std.TreeMap.length_keys] at hk
  refine ⟨k, hk, Bool.eq_false_iff.2 fun htaken => hkey ?_⟩
  rw [Store.has, Bool.or_eq_true] at htaken
  exact List.mem_append.2 (htaken.imp Std.TreeMap.mem_keys.2 Std.TreeMap.mem_keys.2)

/-- The search without a bound ends, and finds what is found within the steps it is given. -/
theorem vacant_iff (b : Bundle) (fs : Store) (hname : Path.IsName name) :
    Vacant b fs name p ↔ p = freeImage b fs (FileSystem.size fs) name := by
  have hfound := vacant_freeImage (exists_free b fs hname)
  constructor
  · exact fun h => h.unique hfound
  · rintro rfl
    exact hfound

end Session

/-- The path of a name lies in the folder of the bundle. -/
theorem Bundle.contains_imagePath (b : Bundle) {name : Text} (h : Path.IsName name) :
    b.contains (b.imagePath name) = true :=
  (Path.isChildOf_iff (Path.fileName?_join b.folder h) b.folder).2 rfl

/-- Whether the searches for a name that is not taken come to an end among some files. -/
structure SearchesEnd (fs : Store) : Prop where
  /-- A copy into a bundle finds its place, or a path that cannot be read. -/
  copy : ∀ (b : Bundle) (source : Path) (contents : Bytes) (name : Text)
    (found : Except BundleError Bundle.Placed), Bundle.imageFileName? source = some name →
    (b.Search fs source contents name found
      ↔ found = b.findPlace fs source contents (FileSystem.size fs) name)
  /-- A capture finds a place, -/
  capture : ∀ (s : Session) (p : Path), Session.Vacant s.bundle fs "capture.png".toList p
    ↔ p = s.captureTarget fs
  /-- which lies in the folder of the active bundle and is free. -/
  captureTarget : ∀ s : Session,
    s.bundle.contains (s.captureTarget fs) = true ∧ fs.has (s.captureTarget fs) = false

theorem searchesEnd (fs : Store) : SearchesEnd fs := by
  have hcapture : Path.IsName "capture.png".toList :=
    ⟨by decide, by decide, by decide, by decide⟩
  refine ⟨?_, ?_, ?_⟩
  · intro b source contents name found hname
    exact b.search_iff fs source contents (Bundle.isName_of_imageFileName? hname)
  · intro s p
    exact Session.vacant_iff s.bundle fs hcapture
  · intro s
    have hvacant := (Session.vacant_iff s.bundle fs hcapture).2 rfl
    obtain ⟨hfree, k, hp⟩ := hvacant.spec
    refine ⟨?_, hfree⟩
    rw [Session.captureTarget, hp]
    exact s.bundle.contains_imagePath (hcapture.iterate k)

/-- The names to try where one is taken are all different, and names of images and files where the
first is one, as long as no last number is counted up; and the searches among them end. -/
theorem free_names_found {step : Text → Text}
    (hstep : ∀ name, ¬ ImageName.IsLast name → step name = ImageName.next name) {name : Text}
    {n : Nat} (hn : ∀ i < n, ¬ ImageName.IsLast (step^[i] name)) :
    (∀ i ≤ n, ∀ j ≤ n, step^[i] name = step^[j] name → i = j)
      ∧ (∀ i ≤ n, (ImageName.isImage name = true → ImageName.isImage (step^[i] name) = true)
        ∧ (ImageName.isLeaf name = true → ImageName.isLeaf (step^[i] name) = true))
      ∧ ∀ fs, SearchesEnd fs := by
  have hrow := ImageName.iterate_eq_next hstep hn
  refine ⟨?_, ?_, searchesEnd⟩
  · intro i hi j hj heq
    rw [hrow i hi, hrow j hj] at heq
    exact ImageName.next_iterate_injective name heq
  · intro i hi
    rw [hrow i hi]
    exact ⟨fun h => ImageName.isImage_iterate h i, fun h => ImageName.isLeaf_iterate h i⟩

/-- The numbers are counted up to the greatest one, whatever becomes of that. -/
theorem free_names_found_greatest :
    let first := "img-18446744073709551614.png".toList
    let last := "img-18446744073709551615.png".toList
    let step := fun name => if name = last then "img-0.png".toList else ImageName.next name
    ImageName.IsLast last
      ∧ (∀ name, ¬ ImageName.IsLast name → step name = ImageName.next name)
      ∧ (∀ i < 1, ¬ ImageName.IsLast (step^[i] first))
      ∧ step^[1] first = last ∧ step^[0] first ≠ step^[1] first
      ∧ ImageName.isImage (step^[1] first) = true ∧ ∀ fs, SearchesEnd fs := by
  intro first last step
  have hlast : ImageName.IsLast last := ⟨"img".toList, "18446744073709551615".toList, rfl, rfl⟩
  have hstep : ∀ name, ¬ ImageName.IsLast name → step name = ImageName.next name := by
    intro name hname
    refine if_neg fun heq => hname ?_
    rw [heq]
    exact hlast
  have hsplit : Text.splitLast? '-' (ImageName.splitExtension first).1
      = some ("img".toList, "18446744073709551614".toList) := rfl
  have hn : ∀ i < 1, ¬ ImageName.IsLast (step^[i] first) := by
    rintro i hi ⟨base, digits, hname, hdigits⟩
    obtain rfl := Nat.lt_one_iff.1 hi
    rw [Function.iterate_zero_apply, hsplit] at hname
    obtain ⟨-, rfl⟩ := Prod.mk.inj (Option.some.inj hname)
    exact absurd hdigits (by decide)
  obtain ⟨hdistinct, hkept, hsearches⟩ := free_names_found hstep hn
  refine ⟨hlast, hstep, hn, by decide, ?_, ?_, hsearches⟩
  · intro heq
    exact absurd (hdistinct 0 (by decide) 1 (by decide) heq) (by decide)
  · exact (hkept 1 (by decide)).1 rfl

end ImageScript
