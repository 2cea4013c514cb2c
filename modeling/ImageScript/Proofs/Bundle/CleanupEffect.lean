import Mathlib
import ImageScript.Bundle.Cleanup
import ImageScript.Proofs.Files.Listing
import ImageScript.Proofs.Script.LiteralScan

/-!
# The exact effect of a cleanup

What `Bundle.cleanUp` does to files in memory. Main statement: where a string of the text is left
open nothing changes; otherwise exactly the unused images of the folder go, and every other path
keeps its bytes. The report is the one that was planned, it lists each image once, and another
cleanup with the same text finds nothing to delete.
-/

namespace ImageScript

namespace Store

theorem contents?_isSome_iff {fs : Store} {p : Path} :
    (fs.contents? p).isSome = true ↔ p.key ∈ fs.files := by
  rw [contents?, Option.isSome_map, Std.TreeMap.isSome_getElem?_iff_mem]

theorem contents?_congr (fs : Store) {p q : Path} (h : p.key = q.key) :
    fs.contents? p = fs.contents? q := by
  rw [contents?, contents?, h]

theorem hasDir_congr (fs : Store) {p q : Path} (h : p.key = q.key) :
    fs.hasDir p = fs.hasDir q := by
  rw [hasDir, hasDir, h]

/-- A store without the files under some keys. -/
structure Without (fs : Store) (ks : List Path.Key) (fs' : Store) : Prop where
  files : ∀ k, fs'.files[k]? = if k ∈ ks then none else fs.files[k]?
  dirs_eq : fs'.dirs = fs.dirs
  refused_eq : fs'.refused = fs.refused

theorem Without.contents? {fs fs' : Store} {ks : List Path.Key} (h : Without fs ks fs')
    (p : Path) : fs'.contents? p = if p.key ∈ ks then none else fs.contents? p := by
  rw [Store.contents?, h.files]
  split <;> rfl

theorem Without.hasDir {fs fs' : Store} {ks : List Path.Key} (h : Without fs ks fs')
    (p : Path) : fs'.hasDir p = fs.hasDir p := by
  rw [Store.hasDir, Store.hasDir, h.dirs_eq]

theorem Without.cons {fs mid fs' : Store} {k : Path.Key} {ks : List Path.Key}
    (h : Without fs [k] mid) (h' : Without mid ks fs') : Without fs (k :: ks) fs' := by
  refine ⟨?_, h'.dirs_eq.trans h.dirs_eq, h'.refused_eq.trans h.refused_eq⟩
  intro j
  rw [h'.files, h.files]
  by_cases hj : j = k <;> simp [hj]

/-- A file that is there can be removed. -/
theorem removeFile_of_mem {fs : Store} {p : Path} (h : p.key ∈ fs.files) :
    ∃ fs', removeFile p fs = .ok () fs' ∧ Without fs [p.key] fs' := by
  have hc : fs.files.contains p.key = true := h
  refine ⟨{ fs with files := fs.files.erase p.key, files_keyed := fs.files_keyed.erase p.key },
    ?_, ?_, rfl, rfl⟩
  · simp [removeFile, bind, EStateM.bind, get, getThe, MonadStateOf.get, EStateM.get, hc]
    rfl
  · intro k
    have hk : compare p.key k = .eq ↔ k = p.key := Std.compare_eq_iff_eq.trans eq_comm
    rw [Std.TreeMap.getElem?_erase]
    simp only [hk, List.mem_singleton]

end Store

namespace Bundle

/-- Whether a path is an image file with a certain name, directly in the folder of a bundle. -/
structure IsImageFile (b : Bundle) (fs : Store) (p : Path) (n : Text) : Prop where
  name_eq : p.fileName? = some n
  isImage : ImageName.isImage n = true
  isChild : p.IsChildOf b.folder
  isFile : (fs.contents? p).isSome = true
  not_dir : fs.hasDir p = false

/-- Whether a cleanup keeps every image with a name: the name is exempt, or the text mentions it. -/
def isUsed (b : Bundle) (s n : Text) : Bool := isExempt n || (b.mentionedImages s).contains n

/-- Whether a path is an image file that a cleanup may delete. -/
def IsUnused (b : Bundle) (s : Text) (fs : Store) (p : Path) : Prop :=
  ∃ n, b.IsImageFile fs p n ∧ b.isUsed s n = false

/-- The text mentions the names that its strings before the first open one stand for. -/
theorem contains_mentionedImages_iff {b : Bundle} {s n : Text} :
    (b.mentionedImages s).contains n = true ↔
      ∃ t ∈ (deepTokens s).takeWhile (!·.isOpen), t.content?.bind b.mentioned? = some n := by
  have hnames : ((scanLiterals s).literals.filterMap fun l => b.mentioned? l.content)
      = ((deepTokens s).takeWhile (!·.isOpen)).filterMap fun t => t.content?.bind b.mentioned? := by
    have h := congrArg (List.filterMap b.mentioned?) (contents_scanLiterals s)
    rw [List.filterMap_map, List.filterMap_filterMap] at h
    exact h
  rw [mentionedImages, hnames, Std.TreeSet.contains_ofList, List.contains_iff_mem,
    List.mem_filterMap]

variable {b : Bundle} {s : Text} {fs : Store}

theorem IsImageFile.congr {p q : Path} {n : Text} (hp : b.IsImageFile fs p n)
    (h : p.key = q.key) : b.IsImageFile fs q n := by
  have hname : q.fileName? = some n := (Path.fileName?_congr h) ▸ hp.name_eq
  refine ⟨hname, hp.isImage, ?_, ?_, ?_⟩
  · rw [Path.isChildOf_iff hname, ← h, ← Path.isChildOf_iff hp.name_eq]
    exact hp.isChild
  · rw [← fs.contents?_congr h]
    exact hp.isFile
  · rw [← fs.hasDir_congr h]
    exact hp.not_dir

/-- An image file is found under its name in the folder. -/
theorem IsImageFile.key_eq {p : Path} {n : Text} (hp : b.IsImageFile fs p n) :
    p.key = (b.imagePath n).key :=
  (Path.isChildOf_iff hp.name_eq _).1 hp.isChild

/-- The names of the image files in the folder, in order. -/
def imageNames (b : Bundle) (fs : Store) : List Text :=
  ((fs.entriesIn b.folder).filter fun p =>
    !fs.hasDir p && p.fileName?.any ImageName.isImage).filterMap Path.fileName?

theorem isImageFile_of_mem {p : Path} (h : p ∈ fs.entriesIn b.folder)
    (hp : (!fs.hasDir p && p.fileName?.any ImageName.isImage) = true) :
    ∃ n, b.IsImageFile fs p n := by
  obtain ⟨hchild, hhas⟩ := Store.of_mem_entriesIn h
  simp only [Bool.and_eq_true, Bool.not_eq_true', Option.any_eq_true] at hp
  obtain ⟨hdir, n, hn, himage⟩ := hp
  refine ⟨n, hn, himage, hchild, ?_, hdir⟩
  simp only [Store.has, hdir, Bool.or_false] at hhas
  exact Store.contents?_isSome_iff.2 hhas

/-- Every image file of the folder is listed by its name. -/
theorem mem_imageNames_iff {n : Text} :
    n ∈ b.imageNames fs ↔ ∃ p, b.IsImageFile fs p n := by
  simp only [imageNames, List.mem_filterMap, List.mem_filter]
  constructor
  · rintro ⟨p, ⟨hmem, hp⟩, hn⟩
    obtain ⟨m, hm⟩ := isImageFile_of_mem hmem hp
    obtain rfl := Option.some.inj (hm.name_eq.symm.trans hn)
    exact ⟨p, hm⟩
  · rintro ⟨p, hp⟩
    obtain ⟨⟨q, bytes⟩, hq⟩ := Option.isSome_iff_exists.1
      (Std.TreeMap.isSome_getElem?_iff_mem.2 (Store.contents?_isSome_iff.1 hp.isFile))
    have hkey : q.key = p.key := fs.files_keyed _ _ hq
    have hqi := hp.congr hkey.symm
    refine ⟨q, ⟨Store.mem_entriesIn_of_file (hkey ▸ hq) hqi.isChild, ?_⟩, hqi.name_eq⟩
    simp [hqi.not_dir, hqi.name_eq, hqi.isImage]

/-- The names lead to different files. -/
theorem nodup_imageNames (b : Bundle) (fs : Store) :
    ((b.imageNames fs).map fun n => (b.imagePath n).key).Nodup := by
  have hkeys : (b.imageNames fs).map (fun n => (b.imagePath n).key)
      = ((fs.entriesIn b.folder).filter fun p =>
        !fs.hasDir p && p.fileName?.any ImageName.isImage).map Path.key := by
    rw [imageNames, List.map_filterMap, ← List.filterMap_eq_map]
    apply List.filterMap_congr
    intro p hp
    obtain ⟨hmem, hp⟩ := List.mem_filter.1 hp
    obtain ⟨n, hn⟩ := isImageFile_of_mem hmem hp
    simp [hn.name_eq, hn.key_eq]
  rw [hkeys]
  exact ((List.filter_sublist).map _).nodup (fs.nodup_entriesIn b.folder)

/-- Deleting images that are there removes their files and nothing else. -/
theorem deleteImages_without {names : List Text} {fs : Store}
    (hnodup : (names.map fun n => (b.imagePath n).key).Nodup)
    (hfiles : ∀ n ∈ names, (b.imagePath n).key ∈ fs.files) :
    ∃ fs', b.deleteImages names fs = .ok () fs' ∧
      fs.Without (names.map fun n => (b.imagePath n).key) fs' := by
  induction names generalizing fs with
  | nil => exact ⟨fs, rfl, by simp, rfl, rfl⟩
  | cons n names ih =>
    obtain ⟨hn, hnodup⟩ := List.nodup_cons.1 hnodup
    obtain ⟨mid, hmid, hwithout⟩ := Store.removeFile_of_mem (hfiles n (List.mem_cons_self ..))
    have hrest : ∀ m ∈ names, (b.imagePath m).key ∈ mid.files := by
      intro m hm
      have hne : (b.imagePath m).key ≠ (b.imagePath n).key := by
        intro h
        exact hn (List.mem_map.2 ⟨m, hm, h⟩)
      rw [← Std.TreeMap.isSome_getElem?_iff_mem, hwithout.files, if_neg (by simpa using hne),
        Std.TreeMap.isSome_getElem?_iff_mem]
      exact hfiles m (List.mem_cons_of_mem _ hm)
    obtain ⟨fs', hfs', hwithout'⟩ := ih hnodup hrest
    refine ⟨fs', ?_, hwithout.cons hwithout'⟩
    have hdoing : doing (b.imagePath n) (FileSystem.removeFile (b.imagePath n)) fs
        = .ok () mid := by
      simp only [doing, FileSystem.removeFile, EStateM.adaptExcept, hmid]
    simp only [deleteImages, bind, EStateM.bind, hdoing]
    exact hfs'

/-- What a cleanup plans for the images of a folder that is there. -/
theorem planCleanup_of_hasDir (hdir : fs.hasDir b.folder = true) :
    b.planCleanup s fs = .ok (match (scanLiterals s).openString with
      | some o => ⟨b.imageNames fs, [], some o⟩
      | none => ⟨(b.imageNames fs).filter (b.isUsed s),
          (b.imageNames fs).filter (!b.isUsed s ·), none⟩) := by
  have himages : b.imageFiles fs = .ok ((fs.entriesIn b.folder).filter fun p =>
      !fs.hasDir p && p.fileName?.any ImageName.isImage) := by
    simp only [imageFiles, naming, FileSystem.list, hdir, if_true]
    rfl
  simp only [planCleanup, himages]
  cases (scanLiterals s).openString with
  | some o => rfl
  | none =>
    show Except.ok _ = Except.ok _
    simp only [List.partition_eq_filter_filter]
    rfl

theorem planCleanup_of_open {t : Token} {r : CleanupReport} (hdir : fs.hasDir b.folder = true)
    (ht : (deepTokens s).find? Token.isOpen = some t) (hr : b.planCleanup s fs = .ok r) :
    r = ⟨b.imageNames fs, [], some (LiteralScan.place s t)⟩ := by
  have hopen := openString_scanLiterals s
  rw [ht, Option.map_some] at hopen
  rw [planCleanup_of_hasDir hdir, hopen] at hr
  exact (Except.ok.inj hr).symm

theorem planCleanup_of_closed {r : CleanupReport} (hdir : fs.hasDir b.folder = true)
    (hs : ∀ t ∈ deepTokens s, t.isOpen = false) (hr : b.planCleanup s fs = .ok r) :
    r = ⟨(b.imageNames fs).filter (b.isUsed s), (b.imageNames fs).filter (!b.isUsed s ·), none⟩ := by
  have hnone : (deepTokens s).find? Token.isOpen = none := by
    rw [List.find?_eq_none]
    intro t ht
    simp [hs t ht]
  have hopen := openString_scanLiterals s
  rw [hnone, Option.map_none] at hopen
  rw [planCleanup_of_hasDir hdir, hopen] at hr
  exact (Except.ok.inj hr).symm

/-- Either some string is left open, or none is. -/
theorem open_or_closed (s : Text) : (∃ t, (deepTokens s).find? Token.isOpen = some t) ∨
    ∀ t ∈ deepTokens s, t.isOpen = false := by
  cases h : (deepTokens s).find? Token.isOpen with
  | some t => exact Or.inl ⟨t, rfl⟩
  | none =>
    right
    intro t ht
    simpa using List.find?_eq_none.1 h t ht

/-- The report distributes the images of the folder. -/
theorem planCleanup_perm {r : CleanupReport} (hdir : fs.hasDir b.folder = true)
    (hr : b.planCleanup s fs = .ok r) : (r.kept ++ r.deleted).Perm (b.imageNames fs) := by
  rcases open_or_closed s with ⟨t, ht⟩ | hs
  · rw [planCleanup_of_open hdir ht hr, List.append_nil]
  · rw [planCleanup_of_closed hdir hs hr]
    exact List.filter_append_perm _ _

/-- A cleanup of a folder that is there succeeds, and removes the files it planned to delete. -/
theorem cleanUp_without (s : Text) (hdir : fs.hasDir b.folder = true) :
    ∃ r fs', b.cleanUp s fs = .ok r fs' ∧ b.planCleanup s fs = .ok r ∧
      fs.Without (r.deleted.map fun n => (b.imagePath n).key) fs' ∧
      (r.deleted = [] → fs' = fs) := by
  obtain ⟨r, hplan⟩ : ∃ r, b.planCleanup s fs = .ok r := ⟨_, planCleanup_of_hasDir hdir⟩
  have hperm := planCleanup_perm hdir hplan
  have hfiles : ∀ n ∈ r.deleted, (b.imagePath n).key ∈ fs.files := by
    intro n hn
    obtain ⟨p, hp⟩ := mem_imageNames_iff.1 (hperm.subset (List.mem_append_right _ hn))
    rw [← hp.key_eq]
    exact Store.contents?_isSome_iff.1 hp.isFile
  have hnodup : (r.deleted.map fun n => (b.imagePath n).key).Nodup := by
    have h := (hperm.map fun n => (b.imagePath n).key).nodup_iff.2 (b.nodup_imageNames fs)
    rw [List.map_append] at h
    exact h.of_append_right
  obtain ⟨fs', hdel, hwithout⟩ := deleteImages_without hnodup hfiles
  refine ⟨r, fs', ?_, hplan, hwithout, ?_⟩
  · simp [cleanUp, bind, EStateM.bind, get, getThe, MonadStateOf.get, EStateM.get, hplan, hdel]
    rfl
  · intro h0
    rw [h0] at hdel
    exact (EStateM.Result.ok.inj hdel).2.symm

/-- Where no string is left open, the files that go are the unused images. -/
theorem isUnused_iff {p : Path} :
    b.IsUnused s fs p ↔
      p.key ∈ ((b.imageNames fs).filter (!b.isUsed s ·)).map fun n => (b.imagePath n).key := by
  simp only [List.mem_map, List.mem_filter]
  constructor
  · rintro ⟨n, himage, hunused⟩
    exact ⟨n, ⟨mem_imageNames_iff.2 ⟨p, himage⟩, by simp [hunused]⟩, himage.key_eq.symm⟩
  · rintro ⟨n, ⟨hmem, hunused⟩, hkey⟩
    obtain ⟨q, hq⟩ := mem_imageNames_iff.1 hmem
    exact ⟨n, hq.congr (hq.key_eq.trans hkey), by simpa using hunused⟩

/-- What a cleanup does to a store, and what it reports. -/
structure CleanupEffect (b : Bundle) (s : Text) (fs : Store) (r : CleanupReport) (fs' : Store) :
    Prop where
  planned : b.planCleanup s fs = .ok r
  dirs_eq : fs'.dirs = fs.dirs
  /-- Where a string is left open, nothing changes and the report tells where the first one is. -/
  ambiguous : ∀ t, (deepTokens s).find? Token.isOpen = some t →
    fs' = fs ∧ r.deleted = [] ∧ r.openString = some ⟨t.offset, Text.lineNumber s t.offset⟩
  /-- Otherwise exactly the unused images go. -/
  certain : (∀ t ∈ deepTokens s, t.isOpen = false) → r.openString = none ∧
    ∀ p, (b.IsUnused s fs p → fs'.contents? p = none) ∧
      (¬ b.IsUnused s fs p → fs'.contents? p = fs.contents? p)
  nodup : (r.kept ++ r.deleted).Nodup
  /-- Each image file of the folder is kept or deleted. -/
  listed : ∀ n, n ∈ r.kept ++ r.deleted ↔ ∃ p, b.IsImageFile fs p n
  settled : ∃ r', b.cleanUp s fs' = .ok r' fs' ∧ r'.deleted = []

theorem IsImageFile.of_without {ks : List Path.Key} {fs' : Store} {p : Path} {n : Text}
    (h : fs.Without ks fs') (hp : b.IsImageFile fs' p n) : b.IsImageFile fs p n := by
  have hfile := hp.isFile
  rw [h.contents?] at hfile
  split at hfile
  · simp at hfile
  · exact ⟨hp.name_eq, hp.isImage, hp.isChild, hfile, by rw [← h.hasDir]; exact hp.not_dir⟩

/-- After a cleanup there is nothing more to delete. -/
theorem deleted_eq_nil_of_without {r r' : CleanupReport} {fs' : Store}
    (hdir : fs.hasDir b.folder = true) (hr : b.planCleanup s fs = .ok r)
    (h : fs.Without (r.deleted.map fun n => (b.imagePath n).key) fs')
    (hr' : b.planCleanup s fs' = .ok r') : r'.deleted = [] := by
  have hdir' : fs'.hasDir b.folder = true := by rw [h.hasDir]; exact hdir
  rcases open_or_closed s with ⟨t, ht⟩ | hs
  · rw [planCleanup_of_open hdir' ht hr']
  · have hdeleted := planCleanup_of_closed hdir hs hr
    have hdeleted' := planCleanup_of_closed hdir' hs hr'
    rw [hdeleted', List.eq_nil_iff_forall_not_mem]
    intro n hn
    obtain ⟨hmem, hunused⟩ := List.mem_filter.1 hn
    obtain ⟨p, hp⟩ := mem_imageNames_iff.1 hmem
    have hgone : b.IsUnused s fs p := ⟨n, hp.of_without h, by simpa using hunused⟩
    have hfile := hp.isFile
    rw [h.contents?, hdeleted, if_pos (isUnused_iff.1 hgone)] at hfile
    simp at hfile

/-- A cleanup of a folder that is there succeeds with exactly the effect it should have. -/
theorem cleanUp_effect (b : Bundle) (s : Text) (fs : Store) (hdir : fs.hasDir b.folder = true) :
    ∃ r fs', b.cleanUp s fs = .ok r fs' ∧ b.CleanupEffect s fs r fs' := by
  obtain ⟨r, fs', hrun, hplan, hwithout, hnil⟩ := cleanUp_without s hdir
  have hdir' : fs'.hasDir b.folder = true := by rw [hwithout.hasDir]; exact hdir
  have hperm := planCleanup_perm hdir hplan
  refine ⟨r, fs', hrun, hplan, hwithout.dirs_eq, ?_, ?_, ?_, ?_, ?_⟩
  · intro t ht
    have hr := planCleanup_of_open hdir ht hplan
    have h0 : r.deleted = [] := by rw [hr]
    exact ⟨hnil h0, h0, by rw [hr]; rfl⟩
  · intro hs
    have hr := planCleanup_of_closed hdir hs hplan
    refine ⟨by rw [hr], fun p => ?_⟩
    have hiff : b.IsUnused s fs p ↔ p.key ∈ r.deleted.map fun n => (b.imagePath n).key := by
      rw [hr]
      exact isUnused_iff
    rw [hwithout.contents?]
    exact ⟨fun h => if_pos (hiff.1 h), fun h => if_neg (hiff.not.1 h)⟩
  · exact hperm.nodup_iff.2 (List.Nodup.of_map _ (b.nodup_imageNames fs))
  · intro n
    rw [hperm.mem_iff, mem_imageNames_iff]
  · obtain ⟨r', fs'', hrun', hplan', _, hnil'⟩ := cleanUp_without s hdir'
    have h0 := deleted_eq_nil_of_without hdir hplan hwithout hplan'
    rw [hnil' h0] at hrun'
    exact ⟨r', hrun', h0⟩

/-- A folder with a mentioned image and an unused one. -/
theorem cleanUp_effect_folder :
    let fs := (Store.empty.addFile (.ofString "/w/a.png") [1]).addFile (.ofString "/w//b.png") [2]
    let b := Bundle.ofScript (.ofString "/w/s.py")
    let s := "# \"/w/a.png\"".toList
    fs.hasDir b.folder = true ∧
      ∃ r fs', b.cleanUp s fs = .ok r fs' ∧ b.CleanupEffect s fs r fs' :=
  ⟨by decide, cleanUp_effect _ _ _ (by decide)⟩

end Bundle

end ImageScript
