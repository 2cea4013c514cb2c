import ImageScript.Proofs.Edit.Save

/-!
# A cleanup does not change how the script is read

The two readers of a script agree on its images. Whatever the recognizer takes for the image of a
literal, or for the image of its mask, is the content of a closed string, and the collector counts
every closed string as a mention. So a cleanup keeps each file that the bundle resolves a literal to,
and reading the script again takes the same decision at each literal, down to the ids.

Main statements: `Synthesis.build_eq_of_resolve_eq`, `exists_token_of_mask`, `cleanUp_reading`.
-/

namespace ImageScript

namespace CallArguments

/-- The arguments of a call hold tokens that stand in the call. -/
theorem mem_of_mem_readTail? {depth : Nat} {ts : List Token} {r : Tail}
    (h : readTail? depth ts = some r) : ∀ g ∈ r.head :: r.others, ∀ t ∈ g, t ∈ ts := by
  induction ts generalizing depth r with
  | nil => simp [readTail?] at h
  | cons u ts ih =>
    simp only [readTail?] at h
    split at h
    · obtain rfl := Option.some.inj h
      simp
    · split at h
      · obtain ⟨r', hr, rfl⟩ := Option.map_eq_some_iff.1 h
        intro g hg t ht
        rcases List.mem_cons.1 hg with rfl | hg
        · exact absurd ht List.not_mem_nil
        · exact List.mem_cons_of_mem _ (ih hr g hg t ht)
      · obtain ⟨r', hr, rfl⟩ := Option.map_eq_some_iff.1 h
        intro g hg t ht
        rcases List.mem_cons.1 hg with rfl | hg
        · rcases List.mem_cons.1 ht with rfl | ht
          · exact List.mem_cons_self ..
          · exact List.mem_cons_of_mem _ (ih hr _ (List.mem_cons_self ..) t ht)
        · exact List.mem_cons_of_mem _ (ih hr g (List.mem_cons_of_mem _ hg) t ht)

theorem mem_of_mem_read? {ts : List Token} {a : CallArguments} (h : read? ts = some a) :
    ∀ g ∈ a.groups, ∀ t ∈ g, t ∈ ts := by
  obtain ⟨r, hr, rfl⟩ := Option.map_eq_some_iff.1 h
  intro g hg
  dsimp only at hg
  split at hg
  · exact absurd hg List.not_mem_nil
  · exact mem_of_mem_readTail? hr g hg

end CallArguments

/-! ### Masks are mentioned -/

/-- The image that the mask of a literal names. -/
def Literal.maskImage? : Literal → Option Text
  | .chain p =>
    match p.mask with
    | some (.image name) => some name
    | _ => none
  | .marker | .region _ | .fileName _ => none

namespace Recognition

variable {n : Text}

/-- A suffix leaves the image of the mask as it was, or takes it from a string among its
arguments. -/
theorem mask_applySuffix {p q : PatternLiteral} {suffix : Suffix} {pos : Nat}
    {args : List (List Token)} (h : applySuffix p suffix pos args = .ok q)
    (hmask : q.mask = some (.image n)) (hn : ImageName.isImage n = true) :
    p.mask = some (.image n) ∨ ∃ arg ∈ args, ∃ t ∈ arg, t.content? = some n := by
  have hstring : ∀ t : Token, t.content?.getD [] = n → t.content? = some n := by
    intro t ht
    cases hc : t.content? with
    | none =>
      rw [hc] at ht
      rw [← ht] at hn
      exact absurd hn (by decide)
    | some c =>
      rw [hc] at ht
      exact congrArg some ht
  unfold applySuffix at h
  repeat' split at h
  all_goals cases h
  all_goals first | exact Or.inl hmask | skip
  · simp at hmask
  · exact Or.inr ⟨_, List.mem_singleton.2 rfl, _, List.mem_singleton.2 rfl,
      hstring _ (Mask.image.inj (Option.some.inj hmask))⟩

/-- The image of the mask of a chain stood in the pattern already, or in a string behind it. -/
theorem mask_readSuffixes {start stop : Nat} {p : PatternLiteral} {ts : List Token} {m : Match}
    (h : (readSuffixes start p stop ts).finding = .literal m)
    (hmask : m.literal.maskImage? = some n) (hn : ImageName.isImage n = true) :
    p.mask = some (.image n) ∨ ∃ t ∈ ts, t.content? = some n := by
  fun_induction readSuffixes start p stop ts with
  | case1 p stop ts hcall =>
    obtain rfl := Finding.literal.inj h
    left
    unfold Literal.maskImage? at hmask
    dsimp only at hmask
    split at hmask
    · next hp => rw [hp, Option.some.inj hmask]
    · simp at hmask
  | case2 => simp at h
  | case3 => simp at h
  | case4 p stop ts suffix name opening rest hcall args hargs q hq ih =>
    have hsuffix := suffixCall?_suffix hcall
    rcases ih h with hp | ⟨t, ht, hcontent⟩
    · rcases mask_applySuffix hq hp hn with hp | ⟨arg, harg, t, ht, hcontent⟩
      · exact Or.inl hp
      · exact Or.inr ⟨t, hsuffix.subset (CallArguments.mem_of_mem_read? hargs arg harg t ht),
          hcontent⟩
    · exact Or.inr ⟨t, hsuffix.subset ((CallArguments.read?_suffix hargs).subset ht), hcontent⟩

/-- Only chains have masks, and their images stand in strings. -/
theorem mask_here? {ts : List Token} {s : Step} {m : Match} (h : here? ts = some s)
    (hm : s.finding = .literal m) (hmask : m.literal.maskImage? = some n)
    (hn : ImageName.isImage n = true) : ∃ t ∈ ts, t.content? = some n := by
  cases reads_of_here? h with
  | quoted quoted literal =>
    obtain rfl := Finding.literal.inj hm
    rcases cases_of_quoted? literal with ⟨rfl, -⟩ | ⟨name, rfl, -⟩ <;> cases hmask
  | chain head_word opening_sign content close_sign suffixes =>
    rw [← suffixes] at hm
    rcases mask_readSuffixes hm hmask hn with hp | ⟨t, ht, hcontent⟩
    · cases hp
    · exact ⟨t, by simp [ht], hcontent⟩
  | region =>
    obtain rfl := Finding.literal.inj hm
    cases hmask
  | offset =>
    obtain rfl := Finding.literal.inj hm
    cases hmask

end Recognition

/-- The image of a recognized mask is the content of a closed string. -/
theorem exists_token_of_mask {s n : Text} {m : Match} (h : m ∈ recognizeAll s)
    (hmask : m.literal.maskImage? = some n) (hn : ImageName.isImage n = true) :
    ∃ t ∈ tokenize s, t.content? = some n := by
  obtain ⟨us, step, hus, hstep, hfinding⟩ := exists_here?_of_recognize h
  obtain ⟨t, ht, hcontent⟩ := Recognition.mask_here? hstep hfinding hmask hn
  exact ⟨t, hus.subset ht, hcontent⟩

/-! ### Reading depends on the resolved images only -/

namespace Synthesis

variable {σ : Type} [FileSystem σ] {b : Bundle}

/-- Two file systems under which a bundle resolves the image of a literal alike show the same
widget. -/
theorem widget?_eq_of_resolve_eq {fs fs' : σ} {l : Literal}
    (h : ∀ image name, l.image? = some image → widgetName? b image = some name →
      b.resolve fs' name = b.resolve fs name) (ids : IdSource) :
    widget? b fs' l ids = widget? b fs l ids := by
  have hpattern : ∀ p : PatternLiteral, l.image? = some p.image →
      pattern? b fs' p ids = pattern? b fs p ids := by
    intro p himage
    unfold pattern?
    cases hname : widgetName? b p.image with
    | none => rfl
    | some name =>
      dsimp only
      rw [h p.image name himage hname]
  cases l with
  | marker => rfl
  | region r => rfl
  | chain p => exact hpattern p rfl
  | fileName name => exact hpattern (.bare name) rfl

theorem build_eq_of_resolve_eq {fs fs' : σ} {ms : List Match}
    (h : ∀ m ∈ ms, ∀ image name, m.literal.image? = some image →
      widgetName? b image = some name → b.resolve fs' name = b.resolve fs name)
    (s : Text) (hi cursor : Nat) (ids : IdSource) :
    build b fs' s hi cursor ms ids = build b fs s hi cursor ms ids := by
  induction ms generalizing cursor ids with
  | nil => rfl
  | cons m ms ih =>
    have hrest := ih fun m' hm' => h m' (List.mem_cons_of_mem _ hm')
    have hwidget := widget?_eq_of_resolve_eq (h m (List.mem_cons_self ..)) ids
    unfold build
    rw [hwidget]
    cases widget? b fs m.literal ids with
    | mk w ids' =>
      cases w with
      | none => exact hrest cursor ids'
      | some w =>
        dsimp only
        rw [hrest m.stop ids']

/-- A pattern takes its mask from its literal. -/
theorem maskImage?_of_widget? {fs : σ} {l : Literal} {ids : IdSource} {w : Pattern} {n : Text}
    (h : (widget? b fs l ids).1 = some (.pattern w)) (hmask : w.mask = some (.image n)) :
    l.maskImage? = some n := by
  have hpattern : ∀ p : PatternLiteral, (pattern? b fs p ids).1 = some (.pattern w) →
      p.mask = some (.image n) := by
    intro p hp
    obtain ⟨name, path, -, -, heq⟩ := exists_of_pattern? hp
    obtain rfl := Segment.pattern.inj heq
    exact hmask
  cases l with
  | marker =>
    obtain rfl := Segment.pattern.inj (Option.some.inj h)
    simp [Pattern.pendingCapture, Pattern.new] at hmask
  | region r => exact Segment.noConfusion (Option.some.inj h)
  | chain p => simp [Literal.maskImage?, hpattern p h]
  | fileName name =>
    have hbare := hpattern (.bare name) h
    simp [PatternLiteral.bare] at hbare

end Synthesis

/-! ### What a cleanup keeps -/

namespace Bundle

/-- What a cleanup that went through leaves: the same directories, and of the files all that it did
not collect. -/
structure Cleaned (b : Bundle) (s : Text) (fs fs' : Store) : Prop where
  hasDir_eq : ∀ p, fs'.hasDir p = fs.hasDir p
  contents : ∀ p, fs'.contents? p = fs.contents? p
    ∨ fs'.contents? p = none ∧ b.IsCollected s fs p

variable {b : Bundle} {s : Text} {fs fs' : Store}

theorem cleaned_of_cleanUp {r : CleanupReport} (h : b.cleanUp s fs = .ok r fs') :
    b.Cleaned s fs fs' := by
  have hstate : stateOf (b.cleanUp s fs) = fs' := by rw [h]; rfl
  constructor
  · intro p
    by_cases hdir : fs.hasDir b.folder = true
    · obtain ⟨r', fs'', hrun, -, hwithout, -⟩ := cleanUp_without s hdir
      rw [h] at hrun
      obtain ⟨-, rfl⟩ := EStateM.Result.ok.inj hrun
      exact hwithout.hasDir p
    · have hlist : b.planCleanup s fs = .error (.file b.folder (.missing b.folder)) := by
        simp only [planCleanup, imageFiles, naming, FileSystem.list, if_neg hdir]
        rfl
      simp only [cleanUp, bind, EStateM.bind, get, getThe, MonadStateOf.get, EStateM.get, hlist]
        at h
      cases h
  · intro p
    obtain ⟨hgone, hstays⟩ := cleanUp_contents? b s fs p
    rw [hstate] at hgone hstays
    by_cases hp : b.IsCollected s fs p
    · exact Or.inr ⟨hgone hp, hp⟩
    · exact Or.inl (hstays hp)

/-- A file whose name is mentioned is kept. -/
theorem Cleaned.contents?_of_mentions (h : b.Cleaned s fs fs') {n : Text} {p : Path}
    (hmentions : b.Mentions s n) (hp : p.fileName? = some n) :
    fs'.contents? p = fs.contents? p := by
  rcases h.contents p with hsame | ⟨-, -, -, m, himage, -, hunmentioned⟩
  · exact hsame
  · obtain rfl := Option.some.inj (himage.name_eq.symm.trans hp)
    exact absurd hmentions hunmentioned

/-- A name that the script mentions is resolved as before. -/
theorem Cleaned.resolve_eq (h : b.Cleaned s fs fs') {image name : Text}
    (hmentions : b.Mentions s name) (hname : Synthesis.widgetName? b image = some name) :
    b.resolve fs' name = b.resolve fs name := by
  unfold resolve
  split
  · rfl
  · next p hcandidate =>
    have hfile := h.contents?_of_mentions hmentions
      (Synthesis.fileName?_of_candidate? hname hcandidate)
    have hdir : FileSystem.isDir fs' p = FileSystem.isDir fs p := h.hasDir_eq p
    have hhas : FileSystem.has fs' p = FileSystem.has fs p := by
      show (fs'.files.contains p.key || fs'.hasDir p) = (fs.files.contains p.key || fs.hasDir p)
      have hkey := congrArg Option.isSome hfile
      rw [Store.contents?, Store.contents?, Option.isSome_map, Option.isSome_map,
        Std.TreeMap.isSome_getElem?_eq_contains, Std.TreeMap.isSome_getElem?_eq_contains] at hkey
      rw [hkey, h.hasDir_eq p]
    rw [hdir, hhas]

/-- Reading the script behind a cleanup gives the same document. -/
theorem Cleaned.ofText_eq (h : b.Cleaned s fs fs') :
    Document.ofText s b fs' = Document.ofText s b fs := by
  have hresolve : ∀ m ∈ recognizeAll s, ∀ image name, m.literal.image? = some image →
      Synthesis.widgetName? b image = some name → b.resolve fs' name = b.resolve fs name := by
    intro m hm image name himage hname
    obtain ⟨t, ht, hcontent⟩ := exists_token_of_recognize hm himage
    exact h.resolve_eq (mentions_of_widgetName? ht hcontent hname) hname
  unfold Document.ofText Synthesis.allSegments Synthesis.segments
  dsimp only
  rw [← recognizeAll, Synthesis.build_eq_of_resolve_eq hresolve]

/-- The name of a closed string that is no absolute path is mentioned. -/
theorem mentions_of_content? {t : Token} {n : Text} (ht : t ∈ tokenize s)
    (hcontent : t.content? = some n) (hn : ImageName.isImage n = true)
    (hrelative : Path.isAbsolute ⟨n⟩ = false) : b.Mentions s n := by
  refine ⟨t, tokenize_subset_deepTokens s t ht, ?_⟩
  rw [hcontent, Option.bind_some]
  unfold mentioned?
  simp [hn, hrelative]

/-- The images of masks stay as they are. -/
theorem Cleaned.mask_kept (h : b.Cleaned s fs fs') {w : Pattern} {n : Text} {p : Path}
    (hw : w ∈ (Document.ofText s b fs).patterns) (hmask : w.mask = some (.image n))
    (hp : b.IsImageFile fs p n) :
    b.IsImageFile fs' p n ∧ fs'.contents? p = fs.contents? p := by
  obtain ⟨m, hm, ids, hwidget⟩ :=
    Synthesis.exists_widget?_of_mem_build (Document.pattern_mem_of_mem_patterns hw) rfl
  have hliteral := Synthesis.maskImage?_of_widget? hwidget hmask
  obtain ⟨t, ht, hcontent⟩ := exists_token_of_mask hm hliteral hp.isImage
  have hleaf := Path.isName_of_fileName? hp.name_eq
  have hrelative : Path.isAbsolute ⟨n⟩ = false := by
    simp only [Path.isAbsolute, decide_eq_false_iff_not]
    intro hhead
    exact hleaf.no_slash (List.mem_of_mem_head? hhead)
  have hmentions := mentions_of_content? (b := b) ht hcontent hp.isImage hrelative
  have hkept := h.contents?_of_mentions hmentions hp.name_eq
  refine ⟨⟨hp.name_eq, hp.isImage, hp.isChild, ?_, ?_⟩, hkept⟩
  · rw [hkept]
    exact hp.isFile
  · rw [h.hasDir_eq]
    exact hp.not_dir

/-- What reading a script shows is left alone by a cleanup with that script: the document is the
same, and so is every image that a mask names. -/
structure ReadingKept (b : Bundle) (s : Text) (fs fs' : Store) : Prop where
  document_eq : Document.ofText s b fs' = Document.ofText s b fs
  masks : ∀ w ∈ (Document.ofText s b fs).patterns, ∀ n, w.mask = some (.image n) →
    ∀ p, b.IsImageFile fs p n → b.IsImageFile fs' p n ∧ fs'.contents? p = fs.contents? p

/-- A cleanup changes neither how its script is read nor the images of its masks. -/
theorem cleanUp_reading {r : CleanupReport} (h : b.cleanUp s fs = .ok r fs') :
    b.ReadingKept s fs fs' := by
  have hcleaned := cleaned_of_cleanUp h
  exact ⟨hcleaned.ofText_eq, fun w hw n hmask p hp => hcleaned.mask_kept hw hmask hp⟩

/-- A folder with an image, the image of its mask and one that goes. -/
theorem cleanUp_reading_folder :
    let s := "Pattern(\"a.png\").mask(\"m.png\")".toList
    let fs := ((Store.empty.addFile (.ofString "/w/a.png") [1]).addFile (.ofString "/w/m.png")
      [2]).addFile (.ofString "/w/b.png") [3]
    let b := Bundle.ofScript (.ofString "/w/s.py")
    ∃ r fs', b.cleanUp s fs = .ok r fs' ∧ r.deleted = ["b.png".toList]
      ∧ (Document.ofText s b fs).patterns.map (·.mask) = [some (.image "m.png".toList)]
      ∧ b.IsImageFile fs (.ofString "/w/m.png") "m.png".toList ∧ b.ReadingKept s fs fs' := by
  intro s fs b
  have hchild : (Path.ofString "/w/m.png").IsChildOf b.folder := by
    unfold Path.IsChildOf
    decide
  have hmasks : (Document.ofText s b fs).patterns.map (·.mask) = [some (.image "m.png".toList)] := by
    decide +kernel
  have hplan : b.planCleanup s fs
      = .ok ⟨["a.png".toList, "m.png".toList], ["b.png".toList], none⟩ := by
    decide +kernel
  obtain ⟨r, fs', hrun, hr, -⟩ := cleanUp_without s (show fs.hasDir b.folder = true by decide)
  obtain rfl := Except.ok.inj (hr.symm.trans hplan)
  exact ⟨_, fs', hrun, rfl, hmasks, ⟨by decide, by decide, hchild, by decide, by decide⟩,
    cleanUp_reading hrun⟩

end Bundle

end ImageScript
