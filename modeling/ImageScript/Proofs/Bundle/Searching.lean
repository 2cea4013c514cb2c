import ImageScript.Proofs.Edit.Pasting
import ImageScript.Proofs.Script.NameRow

/-!
# The search for a place

An image is placed under the first name of its row that is the image itself, is free or holds the
same bytes. The search has no bound of its own: it ends because the names in the row are all
different and a file system has finitely many files, and it ends within the steps it is given.

Main statements: `Bundle.search_iff`, `Bundle.copyInto_places`.
-/

namespace ImageScript

/-- Behind the name of a file stand names of files. -/
theorem Path.IsName.next {name : Text} (h : IsName name) : IsName (ImageName.next name) := by
  have hdash := ImageName.dash_mem_next name
  refine ⟨List.ne_nil_of_mem hdash, ?_, ?_, ?_⟩
  · intro heq
    rw [heq] at hdash
    exact absurd hdash (by decide)
  · intro heq
    rw [heq] at hdash
    exact absurd hdash (by decide)
  · intro hslash
    rcases ImageName.mem_next hslash with hslash | hslash | hslash
    · exact h.no_slash hslash
    · exact absurd hslash (by decide)
    · exact absurd hslash (by decide)

theorem Path.IsName.iterate {name : Text} (h : IsName name) (k : Nat) :
    IsName (ImageName.next^[k] name) := by
  induction k with
  | zero => exact h
  | succ k ih =>
    rw [Function.iterate_succ_apply']
    exact ih.next

namespace Bundle

variable {b : Bundle} {fs fs' : Store} {source : Path} {contents : Bytes} {name : Text}

/-- The names of a row lead to different places. -/
theorem imagePath_iterate_injective (b : Bundle) (hname : Path.IsName name) :
    Function.Injective fun k => (b.imagePath (ImageName.next^[k] name)).key := by
  intro i j heq
  have hcomponents := Path.key_eq_iff.1 heq
  rw [imagePath, imagePath, Path.components_join _ (hname.iterate i),
    Path.components_join _ (hname.iterate j), List.append_cancel_left_eq] at hcomponents
  obtain ⟨hnames⟩ := List.cons.inj hcomponents
  exact ImageName.next_iterate_injective name (Path.Component.name.inj hnames)

/-- Whether a path can serve for an image: it is the image, there is nothing, or it holds the same
bytes. -/
def Suits (fs : Store) (source p : Path) : Prop :=
  p.same source = true ∨ fs.has p = false
    ∨ ∃ bytes, fs.contents? p = some bytes ∧ fs.contents? source = some bytes

/-- Whether the search goes on at a path: it is a file of other bytes. -/
def Differs (fs : Store) (source : Path) (contents : Bytes) (p : Path) : Prop :=
  p.same source = false ∧ ∃ found, fs.contents? p = some found ∧ found ≠ contents

/-- The search without a bound on its steps, from a name on. -/
inductive Search (b : Bundle) (fs : Store) (source : Path) (contents : Bytes) :
    Text → Except BundleError Placed → Prop where
  | itself {name : Text} (hsame : (b.imagePath name).same source = true) :
      Search b fs source contents name (.ok ⟨name, b.imagePath name, false⟩)
  | free {name : Text} (hother : (b.imagePath name).same source = false)
      (hfree : fs.has (b.imagePath name) = false) :
      Search b fs source contents name (.ok ⟨name, b.imagePath name, true⟩)
  | reused {name : Text} (hother : (b.imagePath name).same source = false)
      (hheld : fs.contents? (b.imagePath name) = some contents) :
      Search b fs source contents name (.ok ⟨name, b.imagePath name, false⟩)
  | unreadable {name : Text} {e : FileError} (hother : (b.imagePath name).same source = false)
      (htaken : fs.has (b.imagePath name) = true) (herror : fs.read (b.imagePath name) = .error e) :
      Search b fs source contents name (.error (.file (b.imagePath name) e))
  | later {name : Text} {found : Except BundleError Placed}
      (hdiffers : Differs fs source contents (b.imagePath name))
      (hsearch : Search b fs source contents (ImageName.next name) found) :
      Search b fs source contents name found

/-- Where one of the names that are tried is not that of another file, the search ends with it or
before. -/
theorem search_of_not_differs {steps : Nat}
    (h : ∃ k ≤ steps, ¬ Differs fs source contents (b.imagePath (ImageName.next^[k] name))) :
    Search b fs source contents name (b.findPlace fs source contents steps name) := by
  fun_induction findPlace b fs source contents steps name with
  | case1 steps name target hsame => exact .itself hsame
  | case2 steps name target hsame hfree =>
    rw [Bool.not_eq_true'] at hfree
    exact .free (by simpa using hsame) hfree
  | case3 steps name target hsame htaken e herror =>
    rw [Bool.not_eq_true, Bool.not_eq_false'] at htaken
    exact .unreadable (by simpa using hsame) htaken herror
  | case4 steps name target hsame _ hfound =>
    exact .reused (by simpa using hsame) (Store.contents?_of_read hfound)
  | case5 name target hsame _ found hfound hother =>
    obtain ⟨k, hk, hstops⟩ := h
    obtain rfl := Nat.le_zero.1 hk
    exact absurd ⟨by simpa using hsame, found, Store.contents?_of_read hfound, hother⟩ hstops
  | case6 name target hsame _ found hfound hother steps ih =>
    have hdiffers : Differs fs source contents (b.imagePath name) :=
      ⟨by simpa using hsame, found, Store.contents?_of_read hfound, hother⟩
    obtain ⟨k, hk, hstops⟩ := h
    cases k with
    | zero => exact absurd hdiffers hstops
    | succ k => exact .later hdiffers (ih ⟨k, Nat.le_of_succ_le_succ hk, hstops⟩)

/-- Not all of the names in a row lead to places that are among finitely many. -/
theorem exists_key_not_mem (b : Bundle) (hname : Path.IsName name) (keys : List Path.Key) :
    ∃ k ≤ keys.length, (b.imagePath (ImageName.next^[k] name)).key ∉ keys := by
  by_contra hall
  push Not at hall
  let places := (Finset.range (keys.length + 1)).image
    fun k => (b.imagePath (ImageName.next^[k] name)).key
  have hplaces : places ⊆ keys.toFinset := by
    intro key hkey
    obtain ⟨k, hk, rfl⟩ := Finset.mem_image.1 hkey
    exact List.mem_toFinset.2 (hall k (Nat.le_of_lt_succ (Finset.mem_range.1 hk)))
  have hcard : places.card = keys.length + 1 := by
    rw [Finset.card_image_of_injective _ (b.imagePath_iterate_injective hname), Finset.card_range]
  have hle : places.card ≤ keys.length :=
    (Finset.card_le_card hplaces).trans (List.toFinset_card_le _)
  omega

/-- As many names as there are files cannot all be those of other files. -/
theorem exists_not_differs (b : Bundle) (fs : Store) (source : Path) (contents : Bytes)
    (hname : Path.IsName name) :
    ∃ k ≤ fs.files.size, ¬ Differs fs source contents (b.imagePath (ImageName.next^[k] name)) := by
  obtain ⟨k, hk, hkey⟩ := b.exists_key_not_mem hname fs.files.keys
  rw [Std.TreeMap.length_keys] at hk
  refine ⟨k, hk, ?_⟩
  rintro ⟨-, found, hfound, -⟩
  refine hkey (Std.TreeMap.mem_keys.2 (Store.contents?_isSome_iff.1 ?_))
  rw [hfound]
  rfl

/-- With enough steps the search finds what it finds without a bound. -/
theorem Search.findPlace_eq {found : Except BundleError Placed}
    (h : Search b fs source contents name found) :
    ∃ n, ∀ steps, n ≤ steps → b.findPlace fs source contents steps name = found := by
  have hhas : ∀ p, FileSystem.has fs p = fs.has p := fun _ => rfl
  have hread : ∀ p, FileSystem.read fs p = fs.read p := fun _ => rfl
  induction h with
  | itself hsame =>
    refine ⟨0, fun steps _ => ?_⟩
    unfold findPlace
    simp [hsame]
  | free hother hfree =>
    refine ⟨0, fun steps _ => ?_⟩
    unfold findPlace
    simp [hother, hhas, hfree]
  | reused hother hheld =>
    refine ⟨0, fun steps _ => ?_⟩
    unfold findPlace
    simp [hother, hhas, hread, Store.has_of_contents? hheld, Store.read, hheld]
  | unreadable hother htaken herror =>
    refine ⟨0, fun steps _ => ?_⟩
    unfold findPlace
    simp [hother, hhas, hread, htaken, herror]
  | later hdiffers hsearch ih =>
    obtain ⟨n, hn⟩ := ih
    obtain ⟨hother, found, hfound, hne⟩ := hdiffers
    refine ⟨n + 1, fun steps hsteps => ?_⟩
    obtain ⟨steps, rfl⟩ := Nat.exists_eq_add_of_lt hsteps
    rw [← hn (n + steps) (Nat.le_add_right n steps), findPlace]
    simp [hother, hhas, hread, Store.has_of_contents? hfound, Store.read, hfound, hne]

/-- What the search finds within the steps it is given is what it finds without a bound, and this
is one thing. -/
theorem search_iff (b : Bundle) (fs : Store) (source : Path) (contents : Bytes)
    (hname : Path.IsName name) {found : Except BundleError Placed} :
    Search b fs source contents name found
      ↔ found = b.findPlace fs source contents (FileSystem.size fs) name := by
  obtain ⟨k, hk, hstops⟩ := b.exists_not_differs fs source contents hname
  have hends : ∀ steps, fs.files.size ≤ steps →
      Search b fs source contents name (b.findPlace fs source contents steps name) :=
    fun steps hsteps => search_of_not_differs ⟨k, hk.trans hsteps, hstops⟩
  have hsize := hends (FileSystem.size fs) (Nat.le_add_right _ _)
  refine ⟨fun h => ?_, fun h => h ▸ hsize⟩
  obtain ⟨n, hn⟩ := h.findPlace_eq
  obtain ⟨m, hm⟩ := hsize.findPlace_eq
  rw [← hn (max n m) (Nat.le_max_left n m), ← hm (max n m) (Nat.le_max_right n m)]

/-- Whether a name is the first one of a row whose place suits an image. -/
def IsFirst (b : Bundle) (fs : Store) (source : Path) (name found : Text) : Prop :=
  ∃ k, found = ImageName.next^[k] name ∧ Suits fs source (b.imagePath found)
    ∧ ∀ j < k, ¬ Suits fs source (b.imagePath (ImageName.next^[j] name))

/-- A path where the search goes on does not suit. -/
theorem Differs.not_suits {p : Path} (h : Differs fs source contents p)
    (hsource : fs.contents? source = some contents) : ¬ Suits fs source p := by
  obtain ⟨hother, found, hfound, hne⟩ := h
  rintro (hsame | hfree | ⟨bytes, hbytes, hsame⟩)
  · rw [hother] at hsame
    exact Bool.false_ne_true hsame
  · rw [Store.has_of_contents? hfound] at hfree
    exact Bool.false_ne_true hfree.symm
  · rw [hfound] at hbytes
    rw [hsource] at hsame
    exact hne ((Option.some.inj hbytes).trans (Option.some.inj hsame).symm)

/-- A search that finds a place finds the first one that suits, and tells whether it was free. -/
theorem Search.isFirst {placed : Placed} (h : Search b fs source contents name (.ok placed))
    (hsource : fs.contents? source = some contents) :
    IsFirst b fs source name placed.name
      ∧ (placed.copied = true ↔ fs.has (b.imagePath placed.name) = false) := by
  generalize hfound : Except.ok placed = found at h
  induction h with
  | itself hsame =>
    obtain rfl := Except.ok.inj hfound
    rw [← fs.contents?_congr (Path.same_iff.1 hsame)] at hsource
    exact ⟨⟨0, rfl, Or.inl hsame, by simp⟩, by simp [Store.has_of_contents? hsource]⟩
  | free hother hfree =>
    obtain rfl := Except.ok.inj hfound
    exact ⟨⟨0, rfl, Or.inr (Or.inl hfree), by simp⟩, by simp [hfree]⟩
  | reused hother hheld =>
    obtain rfl := Except.ok.inj hfound
    exact ⟨⟨0, rfl, Or.inr (Or.inr ⟨contents, hheld, hsource⟩), by simp⟩,
      by simp [Store.has_of_contents? hheld]⟩
  | unreadable => simp at hfound
  | later hdiffers hsearch ih =>
    obtain ⟨⟨k, hk, hsuits, hbefore⟩, hcopied⟩ := ih hfound
    refine ⟨⟨k + 1, hk, hsuits, ?_⟩, hcopied⟩
    intro j hj
    cases j with
    | zero => exact hdiffers.not_suits hsource
    | succ j => exact hbefore j (Nat.lt_of_succ_lt_succ hj)

/-- A copy that succeeds was preceded by a search that found its place. -/
theorem exists_findPlace_of_copyInto {placed : Placed} (h : b.copyInto source fs = .ok placed fs') :
    ∃ name contents, imageFileName? source = some name ∧ fs.read source = .ok contents
      ∧ b.findPlace fs source contents (FileSystem.size fs) name = .ok placed := by
  simp only [copyInto, bind, EStateM.bind, get, getThe, MonadStateOf.get, EStateM.get] at h
  cases hname : imageFileName? source with
  | none => simp [hname, throw, throwThe, MonadExceptOf.throw, EStateM.throw] at h
  | some name =>
    cases hread : FileSystem.read fs source with
    | error e => simp [hname, hread, throw, throwThe, MonadExceptOf.throw, EStateM.throw] at h
    | ok contents =>
      refine ⟨name, contents, rfl, hread, ?_⟩
      simp only [hname, hread] at h
      cases hplace : b.findPlace fs source contents (FileSystem.size fs) name with
      | error e => simp [hplace, throw, throwThe, MonadExceptOf.throw, EStateM.throw] at h
      | ok found =>
        simp only [hplace, pure] at h
        split at h
        · unfold EStateM.bind at h
          split at h
          · obtain ⟨rfl, -⟩ := EStateM.Result.ok.inj h
            rfl
          · simp at h
        · obtain ⟨rfl, -⟩ := EStateM.Result.ok.inj h
          rfl

/-- What a copy into a bundle leaves where it succeeds: the image under the first name whose place
suits it, with its bytes, and every file that was there before as it was. -/
structure Placing (b : Bundle) (source : Path) (fs : Store) (placed : Placed) (fs' : Store) :
    Prop where
  first : ∃ name, imageFileName? source = some name ∧ b.IsFirst fs source name placed.name
  path_eq : placed.path = b.imagePath placed.name
  held : ∃ bytes, fs.contents? source = some bytes ∧ fs'.contents? placed.path = some bytes
  copied_iff : placed.copied = true ↔ fs.has placed.path = false
  kept : ∀ path bytes, fs.contents? path = some bytes → fs'.contents? path = some bytes
  dirs_eq : fs'.dirs = fs.dirs

/-- What a copy into a bundle promises. -/
structure PlacesSafely (b : Bundle) (source : Path) (fs : Store) : Prop where
  /-- The search needs no more steps than it is given. -/
  ends : ∀ name contents, imageFileName? source = some name → fs.read source = .ok contents →
    Search b fs source contents name (b.findPlace fs source contents (FileSystem.size fs) name)
  /-- Where a place is found, only a copy that cannot be written fails. -/
  succeeds : ∀ name contents placed, imageFileName? source = some name →
    fs.read source = .ok contents → Search b fs source contents name (.ok placed) →
    (placed.copied = true → fs.writeError? placed.path = none) →
    ∃ fs', b.copyInto source fs = .ok placed fs'
  placed : ∀ placed fs', b.copyInto source fs = .ok placed fs' → Placing b source fs placed fs'
  failed : ∀ e fs', b.copyInto source fs = .error e fs' → fs' = fs

/-- A place that is found is used where it needs no copy or can be written. -/
theorem copyInto_of_findPlace {placed : Placed} (hname : imageFileName? source = some name)
    (hread : fs.read source = .ok contents)
    (hplace : b.findPlace fs source contents (FileSystem.size fs) name = .ok placed)
    (hwrite : placed.copied = true → fs.writeError? placed.path = none) :
    ∃ fs', b.copyInto source fs = .ok placed fs' := by
  have hread' : FileSystem.read fs source = .ok contents := hread
  simp only [copyInto, bind, EStateM.bind, get, getThe, MonadStateOf.get, EStateM.get, hname, hread',
    hplace]
  by_cases hcopied : placed.copied = true
  · have hcopy : Store.copy source placed.path fs = .ok () (fs.put placed.path contents) := by
      simp only [Store.copy, Store.write, bind, EStateM.bind, get, getThe, MonadStateOf.get,
        EStateM.get, hread, hwrite hcopied]
      rfl
    rw [if_pos hcopied]
    refine ⟨fs.put placed.path contents, ?_⟩
    simp only [EStateM.bind, EStateM.adaptExcept, FileSystem.copy, hcopy]
    rfl
  · rw [if_neg hcopied]
    exact ⟨fs, rfl⟩

theorem isName_of_imageFileName? (h : imageFileName? source = some name) : Path.IsName name :=
  Path.isName_of_fileName? (Option.filter_eq_some_iff.1 h).1

/-- A copy into a bundle never overwrites a file, and what it leaves under the name it gives back is
the image. -/
theorem copyInto_places (b : Bundle) (source : Path) (fs : Store) : PlacesSafely b source fs := by
  refine ⟨?_, ?_, ?_, ?_⟩
  · intro name contents hname _
    exact (b.search_iff fs source contents (isName_of_imageFileName? hname)).2 rfl
  · intro name contents placed hname hread hsearch hwrite
    have hplace := (b.search_iff fs source contents (isName_of_imageFileName? hname)).1 hsearch
    exact copyInto_of_findPlace hname hread hplace.symm hwrite
  · intro placed fs' h
    obtain ⟨name, contents, hname, hread, hplace⟩ := exists_findPlace_of_copyInto h
    have hsource := Store.contents?_of_read hread
    have hsearch := (b.search_iff fs source contents (isName_of_imageFileName? hname)).2
      hplace.symm
    obtain ⟨hfirst, hcopied⟩ := hsearch.isFirst hsource
    rcases b.copyInto_spec source fs with ⟨placed', after, hcopy, hpath, hdone⟩ | ⟨e, hcopy⟩
    · rw [h] at hcopy
      obtain ⟨rfl, rfl⟩ := EStateM.Result.ok.inj hcopy
      refine ⟨⟨name, hname, hfirst⟩, hpath, ⟨contents, hsource, ?_⟩, ?_, hdone.kept, ?_⟩
      · rw [hdone.held, hsource]
      · rwa [hpath]
      · cases hdone <;> rfl
    · rw [h] at hcopy
      simp at hcopy
  · intro e fs' h
    rcases b.copyInto_spec source fs with ⟨placed, after, hcopy, -⟩ | ⟨e', hcopy⟩
    · rw [h] at hcopy
      simp at hcopy
    · rw [h] at hcopy
      exact (EStateM.Result.error.inj hcopy).2

end Bundle

end ImageScript
