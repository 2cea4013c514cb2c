import ImageScript.Proofs.Bundle.CleanupEffect
import ImageScript.Proofs.Edit.Operations
import ImageScript.Proofs.Script.ImageMentions

/-!
# Saving and the images in use

A save writes the canonical text and, where the options say so, deletes the images that this text
does not mention. The cleanup reads the text again and never sees the widgets. So an image in use is
lost exactly where the text that its widget stands in mentions it nowhere, which no widget that a
fresh reading of the text shows can bring about.

Main statements: `save_files`, `save_destroys_iff`.
-/

namespace ImageScript

namespace Bundle

/-- Whether a closed string of a text, also in a comment or a doc string, stands for an image of a
bundle. -/
def Mentions (b : Bundle) (s n : Text) : Prop :=
  ∃ t ∈ deepTokens s, t.content?.bind b.mentioned? = some n

/-- Where no string is left open, every mention counts. -/
theorem isUsed_iff {b : Bundle} {s n : Text} (hs : ∀ t ∈ deepTokens s, t.isOpen = false) :
    b.isUsed s n = true ↔ isExempt n = true ∨ b.Mentions s n := by
  have hall : (deepTokens s).takeWhile (!·.isOpen) = deepTokens s := by
    rw [List.takeWhile_eq_self_iff]
    intro t ht
    rw [hs t ht]
    rfl
  unfold isUsed Mentions
  rw [Bool.or_eq_true, contains_mentionedImages_iff, hall]

/-- Whether a cleanup with a text deletes a file: no string of the text is left open, and the file is
an image directly in the folder that is not exempt and mentioned nowhere. -/
structure IsCollected (b : Bundle) (s : Text) (fs : Store) (p : Path) : Prop where
  folder : fs.hasDir b.folder = true
  closed : ∀ t ∈ deepTokens s, t.isOpen = false
  image : ∃ n, b.IsImageFile fs p n ∧ isExempt n = false ∧ ¬ b.Mentions s n

theorem isCollected_iff {b : Bundle} {s : Text} {fs : Store} {p : Path}
    (hdir : fs.hasDir b.folder = true) (hs : ∀ t ∈ deepTokens s, t.isOpen = false) :
    b.IsCollected s fs p ↔ b.IsUnused s fs p := by
  constructor
  · rintro ⟨-, -, n, himage, hexempt, hmentions⟩
    refine ⟨n, himage, ?_⟩
    rw [← Bool.not_eq_true, isUsed_iff hs]
    rintro (h | h)
    · rw [hexempt] at h
      simp at h
    · exact hmentions h
  · rintro ⟨n, himage, hunused⟩
    rw [← Bool.not_eq_true, isUsed_iff hs, not_or, Bool.not_eq_true] at hunused
    exact ⟨hdir, hs, n, himage, hunused⟩

/-- A cleanup deletes what it collects and leaves every other file as it is. -/
theorem cleanUp_contents? (b : Bundle) (s : Text) (fs : Store) (p : Path) :
    (b.IsCollected s fs p → (stateOf (b.cleanUp s fs)).contents? p = none)
      ∧ (¬ b.IsCollected s fs p → (stateOf (b.cleanUp s fs)).contents? p = fs.contents? p) := by
  by_cases hdir : fs.hasDir b.folder = true
  · obtain ⟨r, fs', hrun, hplan, hwithout, hnil⟩ := cleanUp_without s hdir
    rw [hrun]
    rcases open_or_closed s with ⟨t, ht⟩ | hs
    · have hsame : fs' = fs := hnil (by rw [planCleanup_of_open hdir ht hplan])
      refine ⟨fun h => ?_, fun _ => congrArg (·.contents? p) hsame⟩
      have hopen := List.find?_some ht
      rw [h.closed t (List.mem_of_find?_eq_some ht)] at hopen
      simp at hopen
    · rw [planCleanup_of_closed hdir hs hplan] at hwithout
      rw [isCollected_iff hdir hs, isUnused_iff]
      show (_ → fs'.contents? p = none) ∧ (_ → fs'.contents? p = fs.contents? p)
      rw [hwithout.contents?]
      exact ⟨fun h => if_pos h, fun h => if_neg h⟩
  · refine ⟨fun h => absurd h.folder hdir, fun _ => ?_⟩
    have hlist : b.planCleanup s fs = .error (.file b.folder (.missing b.folder)) := by
      simp only [planCleanup, imageFiles, naming, FileSystem.list, if_neg hdir]
      rfl
    have hrun : b.cleanUp s fs = .error (.file b.folder (.missing b.folder)) fs := by
      simp only [cleanUp, bind, EStateM.bind, get, getThe, MonadStateOf.get, EStateM.get, hlist]
      rfl
    rw [hrun]
    rfl

end Bundle

/-! ### What a save does -/

namespace Session

/-- The files behind a save of a script that cannot be written, and of one that can. -/
theorem save_files (desk : Desk Store) (hclean : desk.session.options.cleanBundleOnSave = true) :
    (∀ e, desk.files.writeError? desk.session.bundle.script = some e →
        (stateOf (save desk)).files = desk.files)
      ∧ (desk.files.writeError? desk.session.bundle.script = none →
        (stateOf (save desk)).files = stateOf (desk.session.bundle.cleanUp desk.session.document.text
          (desk.files.put desk.session.bundle.script (Text.encode desk.session.document.text)))) := by
  generalize hb : desk.session.bundle = b
  generalize ht : desk.session.document.text = s
  constructor
  · intro e he
    have hwrite : b.writeScript s desk.files = .error (.file b.script e) desk.files := by
      simp [Bundle.writeScript, Bundle.doing, FileSystem.write, Store.write, EStateM.adaptExcept,
        bind, EStateM.bind, get, getThe, MonadStateOf.get, EStateM.get, he, throw, throwThe,
        MonadExceptOf.throw, EStateM.throw]
    simp only [save, bind, EStateM.bind, get, getThe, MonadStateOf.get, EStateM.get, onFiles,
      EStateM.adaptExcept, hb, ht, hwrite]
    rfl
  · intro he
    have hwrite : b.writeScript s desk.files = .ok () (desk.files.put b.script (Text.encode s)) := by
      simp [Bundle.writeScript, Bundle.doing, FileSystem.write, Store.write, EStateM.adaptExcept,
        bind, EStateM.bind, get, getThe, MonadStateOf.get, EStateM.get, he, modify, modifyGet,
        MonadStateOf.modifyGet, EStateM.modifyGet]
    simp only [save, bind, EStateM.bind, get, getThe, MonadStateOf.get, EStateM.get, onFiles,
      EStateM.adaptExcept, hb, ht, hwrite, if_pos hclean, Functor.map, EStateM.map]
    cases b.cleanUp s (desk.files.put b.script (Text.encode s)) with
    | ok r fs => rfl
    | error e fs => rfl

end Session

/-! ### Widgets that reading shows -/

namespace Synthesis

variable {σ : Type} [FileSystem σ] {b : Bundle} {fs : σ}

/-- The name of a widget is a file name, and stands for a file of that name. -/
theorem fileName?_of_candidate? {image name : Text} {path : Path}
    (hname : widgetName? b image = some name) (hcandidate : b.candidate? name = some path) :
    path.fileName? = some name := by
  have hleaf : Path.IsName name := by
    unfold widgetName? at hname
    split at hname
    · split at hname
      · exact Path.isName_of_fileName? hname
      · simp at hname
    · split at hname
      · next h =>
        obtain rfl := Option.some.inj hname
        simp only [ImageName.isLeaf, Bool.and_eq_true, decide_eq_true_eq, Bool.not_eq_true',
          List.contains_eq_mem, decide_eq_false_iff_not] at h
        obtain ⟨⟨⟨⟨hnil, hhere⟩, hup⟩, hslash⟩, -⟩ := h
        exact ⟨hnil, hhere, hup, hslash⟩
      · simp at hname
  have hrelative : Path.isAbsolute ⟨name⟩ = false := by
    simp only [Path.isAbsolute, decide_eq_false_iff_not]
    intro hhead
    exact hleaf.no_slash (List.mem_of_mem_head? hhead)
  have hpath : path = b.imagePath name := by
    unfold Bundle.candidate? at hcandidate
    simp only [hrelative] at hcandidate
    split at hcandidate
    · simp at hcandidate
    · split at hcandidate
      · simp at *
      · split at hcandidate
        · exact (Option.some.inj hcandidate).symm
        · simp at hcandidate
  rw [hpath]
  exact Path.fileName?_join _ hleaf

theorem resolvedPath_eq {image name : Text} {path : Path} (hname : widgetName? b image = some name)
    (hresolve : b.resolve fs name = .ok path) : path.fileName? = some name := by
  unfold Bundle.resolve at hresolve
  split at hresolve
  · simp at hresolve
  · next q hcandidate =>
    split at hresolve
    · obtain rfl := Except.ok.inj hresolve
      exact fileName?_of_candidate? hname hcandidate
    · simp at hresolve

/-- The image of a pattern that reading shows is the content of a closed string. -/
theorem exists_match_of_pattern {s : Text} {hi cursor : Nat} {ms : List Match} {ids : IdSource}
    {p : Pattern} {path : Path} (h : .pattern p ∈ (build b fs s hi cursor ms ids).1)
    (hpath : p.resolvedPath = some path) :
    ∃ m ∈ ms, ∃ image name, m.literal.image? = some image ∧ widgetName? b image = some name
      ∧ b.resolve fs name = .ok path := by
  have hpattern : ∀ l ids, (pattern? b fs l ids).1 = some (.pattern p) →
      ∃ name, widgetName? b l.image = some name ∧ b.resolve fs name = .ok path := by
    intro l ids hl
    obtain ⟨name, path', hname, hresolve, heq⟩ := exists_of_pattern? hl
    obtain rfl := Segment.pattern.inj heq
    obtain rfl := Option.some.inj hpath
    exact ⟨name, hname, hresolve⟩
  obtain ⟨m, hm, ids', hw⟩ := exists_widget?_of_mem_build h rfl
  refine ⟨m, hm, ?_⟩
  cases hl : m.literal with
  | marker =>
    rw [hl] at hw
    obtain rfl := Segment.pattern.inj (Option.some.inj hw)
    simp [Pattern.pendingCapture, Pattern.new] at hpath
  | region r =>
    rw [hl] at hw
    exact Segment.noConfusion (Option.some.inj hw)
  | chain l =>
    rw [hl] at hw
    obtain ⟨name, hname, hresolve⟩ := hpattern l ids' hw
    exact ⟨l.image, name, rfl, hname, hresolve⟩
  | fileName image =>
    rw [hl] at hw
    obtain ⟨name, hname, hresolve⟩ := hpattern (.bare image) ids' hw
    exact ⟨image, name, rfl, hname, hresolve⟩

end Synthesis

/-- A name under which reading shows a widget is mentioned. -/
theorem Bundle.mentions_of_widgetName? {b : Bundle} {s image name : Text} {t : Token}
    (ht : t ∈ tokenize s) (himage : Recognition.imageName? t = some image)
    (hname : Synthesis.widgetName? b image = some name) : b.Mentions s name := by
  obtain ⟨hcontent, hisImage⟩ := Option.filter_eq_some_iff.1 himage
  refine ⟨t, tokenize_subset_deepTokens s t ht, ?_⟩
  rw [hcontent, Option.bind_some]
  unfold Bundle.mentioned?
  unfold Synthesis.widgetName? at hname
  rw [if_neg (by simp [hisImage])]
  split at hname
  · next habsolute =>
    rw [if_pos habsolute]
    exact hname
  · next habsolute =>
    rw [if_neg habsolute]
    split at hname
    · exact hname
    · simp at hname

namespace Document

theorem pattern_mem_of_mem_patterns {d : Document} {w : Pattern} (h : w ∈ d.patterns) :
    .pattern w ∈ d.segments := by
  obtain ⟨segment, hsegment, heq⟩ := List.mem_filterMap.1 h
  cases segment with
  | text t => simp at heq
  | region r => simp at heq
  | pattern q =>
    obtain rfl := Option.some.inj heq
    exact hsegment

end Document

/-- No image that a fresh reading of a text shows is collected with that text. -/
theorem not_isCollected_of_ofText {b : Bundle} {s : Text} {fs : Store} {w : Pattern} {p : Path}
    (hw : w ∈ (Document.ofText s b fs).patterns) (hp : w.resolvedPath = some p) :
    ¬ b.IsCollected s fs p := by
  rintro ⟨-, -, n, himage, -, hmentions⟩
  obtain ⟨m, hm, image, name, hliteral, hname, hresolve⟩ :=
    Synthesis.exists_match_of_pattern (Document.pattern_mem_of_mem_patterns hw) hp
  obtain ⟨t, ht, hcontent⟩ := exists_token_of_recognize hm hliteral
  have hfile := Synthesis.resolvedPath_eq hname hresolve
  have heq : n = name := Option.some.inj (himage.name_eq.symm.trans hfile)
  rw [heq] at hmentions
  exact hmentions (Bundle.mentions_of_widgetName? ht hcontent hname)

/-! ### Images in use -/

/-- Whether a path is the image of a pattern in the document, and a file directly in the folder. -/
structure ImageInUse (desk : Desk Store) (p : Path) : Prop where
  shown : ∃ w ∈ desk.session.document.patterns, w.resolvedPath = some p
  isChild : p.IsChildOf desk.session.bundle.folder
  isFile : (desk.files.contents? p).isSome = true

/-- Whether a path is the script itself, with other contents than the canonical text. -/
def IsOverwritten (desk : Desk Store) (p : Path) : Prop :=
  p.key = desk.session.bundle.script.key
    ∧ desk.files.contents? p ≠ some (Text.encode desk.session.document.text)

/-- What a save with a cleanup does to the images in use. Where the script can be written, it
destroys those that it collects with the canonical text and an image that is the script itself, and
no others; what a fresh reading of the canonical text shows is not collected. -/
structure SaveEffect (desk : Desk Store) : Prop where
  destroyed : ∀ p, ImageInUse desk p →
    ((stateOf (Session.save desk)).files.contents? p ≠ desk.files.contents? p ↔
      desk.files.writeError? desk.session.bundle.script = none
        ∧ (IsOverwritten desk p
          ∨ desk.session.bundle.IsCollected desk.session.document.text desk.files p))
  kept : ∀ p, (∃ w ∈ (Document.ofText desk.session.document.text desk.session.bundle
      desk.files).patterns, w.resolvedPath = some p) →
    ¬ desk.session.bundle.IsCollected desk.session.document.text desk.files p

theorem Bundle.isCollected_put {b : Bundle} {s : Text} {fs : Store} {p script : Path}
    {bytes : Bytes} (hfile : (fs.contents? p).isSome = true) :
    b.IsCollected s (fs.put script bytes) p ↔ b.IsCollected s fs p := by
  have hput : ((fs.put script bytes).contents? p).isSome = true := by
    rw [Store.contents?_put]
    split
    · rfl
    · exact hfile
  constructor
  · rintro ⟨hfolder, hclosed, n, himage, hrest⟩
    exact ⟨hfolder, hclosed, n,
      ⟨himage.name_eq, himage.isImage, himage.isChild, hfile, himage.not_dir⟩, hrest⟩
  · rintro ⟨hfolder, hclosed, n, himage, hrest⟩
    exact ⟨hfolder, hclosed, n,
      ⟨himage.name_eq, himage.isImage, himage.isChild, hput, himage.not_dir⟩, hrest⟩

/-- A save destroys an image in use exactly where the canonical text does not mention it, or where
the image is the script. -/
theorem save_destroys_iff (desk : Desk Store)
    (hclean : desk.session.options.cleanBundleOnSave = true) : SaveEffect desk := by
  refine ⟨?_, fun p ⟨w, hw, hp⟩ => not_isCollected_of_ofText hw hp⟩
  intro p huse
  obtain ⟨hfail, hwrite⟩ := Session.save_files desk hclean
  cases he : desk.files.writeError? desk.session.bundle.script with
  | some e =>
    rw [hfail e he]
    simp
  | none =>
    rw [hwrite he]
    obtain ⟨hgone, hstays⟩ := Bundle.cleanUp_contents? desk.session.bundle
      desk.session.document.text (desk.files.put desk.session.bundle.script
        (Text.encode desk.session.document.text)) p
    rw [Bundle.isCollected_put huse.isFile] at hgone hstays
    obtain ⟨bytes, hbytes⟩ := Option.isSome_iff_exists.1 huse.isFile
    by_cases hcollected :
        desk.session.bundle.IsCollected desk.session.document.text desk.files p
    · rw [hgone hcollected, hbytes]
      simp [hcollected]
    · rw [hstays hcollected, Store.contents?_put]
      unfold IsOverwritten
      by_cases hscript : p.key = desk.session.bundle.script.key
      · simp [hscript, hcollected, eq_comm]
      · simp [hscript, hcollected]

/-- A script whose canonical text begins a doc string where its image stood. -/
theorem save_destroys_glued :
    let script := "\"\"Pattern(\"a.png\") \" y\"\"\"".toList
    let image := Path.ofString "/w/a.png"
    let fs := (Store.empty.addFile (.ofString "/w/s.py") (Text.encode script)).addFile image [65]
    let b := Bundle.ofScript (.ofString "/w/s.py")
    let desk : Desk Store := ⟨⟨b, ⟨.ofText script b fs, .new Session.undoLevels⟩, .default⟩, fs⟩
    ImageInUse desk image ∧ (stateOf (Session.save desk)).files.contents? image = none
      ∧ desk.session.options.cleanBundleOnSave = true ∧ SaveEffect desk := by
  intro script image fs b desk
  have hshown : ∃ w ∈ desk.session.document.patterns, w.resolvedPath = some image := by
    decide +kernel
  have hchild : image.IsChildOf desk.session.bundle.folder := by
    unfold Path.IsChildOf
    decide
  have hfile : (desk.files.contents? image).isSome = true := by decide
  have hgone : (stateOf (Session.save desk)).files.contents? image = none := by decide +kernel
  exact ⟨⟨hshown, hchild, hfile⟩, hgone, rfl, save_destroys_iff desk rfl⟩

end ImageScript
