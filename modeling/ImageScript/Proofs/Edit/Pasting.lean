import ImageScript.Proofs.Bundle.Placement
import ImageScript.Proofs.Script.NestedTokens

/-!
# What a paste brings

Pasted text names images of the bundle it is pasted into. Every image that was there to be copied is
found in the bundle under the name that the pasted text has for it, with the same bytes; no file is
changed for that; and of the text nothing is changed but the strings whose image has a new name, each
once and all at the same time.

Main statements: `placeImages_serves`, `rewritten_renameLiterals`, `prepare_delivers`.
-/

namespace ImageScript

/-! ### Images -/

namespace Bundle

variable {fs fs' : Store} {source : Path} {placed : Placed}

/-- A file is copied to a free place only, so that every other file stays as it was. -/
theorem Copied.kept (h : Copied fs source placed fs') :
    ∀ path bytes, fs.contents? path = some bytes → fs'.contents? path = some bytes := by
  intro path bytes hpath
  cases h with
  | reused => exact hpath
  | put found _ _ hfree =>
    rw [Store.contents?_put, if_neg]
    · exact hpath
    · intro hkey
      rw [fs.contents?_congr hkey] at hpath
      rw [Store.has_of_contents? hpath] at hfree
      exact Bool.false_ne_true hfree.symm

theorem Copied.held (h : Copied fs source placed fs') :
    fs'.contents? placed.path = fs.contents? source := by
  cases h with
  | reused bytes hsource _ hheld => rw [hheld, hsource]
  | put bytes hsource _ _ => rw [Store.contents?_put, if_pos rfl, hsource]

end Bundle

namespace Clipboard

/-- The name that an image goes by in the bundle. -/
def Prepared.nameOf (p : Prepared) (name : Text) : Text := p.renamed.getD name name

variable {b : Bundle} {fs fs' : Store} {images : List (Text × Path)} {p : Prepared}

/-- What holds of a store when some images were placed: every file is as it was before, and those of
the images are found in the bundle under their names. -/
structure Serves (b : Bundle) (fs : Store) (images : List (Text × Path)) (p : Prepared)
    (fs' : Store) : Prop where
  kept : ∀ path bytes, fs.contents? path = some bytes → fs'.contents? path = some bytes
  served : ∀ image ∈ images, ∀ bytes, fs.contents? image.2 = some bytes →
    fs'.contents? (b.imagePath (p.nameOf image.1)) = some bytes
  renamed : ∀ name ∈ p.renamed, name ∈ images.map Prod.fst

theorem Serves.empty (b : Bundle) (fs : Store) : Serves b fs [] .empty fs :=
  ⟨fun _ _ h => h, by simp, fun name h => absurd h Std.TreeMap.not_mem_emptyc⟩

/-- An image whose file is gone was not there before either. -/
theorem Serves.skip (h : Serves b fs images p fs') {name : Text} {source : Path}
    (hgone : FileSystem.has fs' source = false) : Serves b fs (images ++ [(name, source)]) p fs' := by
  refine ⟨h.kept, ?_, fun n hn => ?_⟩
  · intro image himage bytes hbytes
    rcases List.mem_append.1 himage with himage | himage
    · exact h.served image himage bytes hbytes
    · rw [List.mem_singleton.1 himage] at hbytes
      have hthere := h.kept source bytes hbytes
      have hhas : fs'.has source = false := hgone
      rw [Store.has_of_contents? hthere] at hhas
      exact absurd hhas.symm Bool.false_ne_true
  · rw [List.map_append]
    exact List.mem_append_left _ (h.renamed n hn)

/-- One more image that was placed, under a name that none of the others has. -/
theorem Serves.add (h : Serves b fs images p fs') {name : Text} {source : Path}
    {placed : Bundle.Placed} {after : Store} (hname : name ∉ images.map Prod.fst)
    (hpath : placed.path = b.imagePath placed.name)
    (hcopied : Bundle.Copied fs' source placed after) :
    Serves b fs (images ++ [(name, source)]) (p.add name placed) after := by
  have hold : ∀ n, n ≠ name → (p.add name placed).nameOf n = p.nameOf n := by
    intro n hn
    unfold Prepared.nameOf Prepared.add
    dsimp only
    split
    · rfl
    · rw [Std.TreeMap.getD_insert, if_neg]
      intro heq
      exact hn (Std.LawfulEqCmp.eq_of_compare heq).symm
  have hnew : (p.add name placed).nameOf name = placed.name := by
    have habsent : name ∉ p.renamed := fun hmem => hname (h.renamed name hmem)
    unfold Prepared.nameOf Prepared.add
    dsimp only
    split
    · next heq => rw [Std.TreeMap.getD_eq_fallback habsent, heq]
    · rw [Std.TreeMap.getD_insert_self]
  refine ⟨fun path bytes hp => hcopied.kept path bytes (h.kept path bytes hp), ?_, ?_⟩
  · intro image himage bytes hbytes
    rcases List.mem_append.1 himage with himage | himage
    · have hne : image.1 ≠ name := fun heq => hname (heq ▸ List.mem_map_of_mem himage)
      rw [hold _ hne]
      exact hcopied.kept _ bytes (h.served image himage bytes hbytes)
    · rw [List.mem_singleton.1 himage] at hbytes ⊢
      rw [hnew, ← hpath, hcopied.held]
      exact h.kept source bytes hbytes
  · intro n hn
    rw [List.map_append, List.mem_append]
    unfold Prepared.add at hn
    dsimp only at hn
    split at hn
    · exact Or.inl (h.renamed n hn)
    · rcases Std.TreeMap.mem_insert.1 hn with heq | hn
      · exact Or.inr (List.mem_singleton.2 (Std.LawfulEqCmp.eq_of_compare heq).symm)
      · exact Or.inl (h.renamed n hn)

theorem placeImages_serves {done rest : List (Text × Path)} {q : Prepared} {before : Store}
    (h : Serves b before done p fs) (hnames : ((done ++ rest).map Prod.fst).Nodup)
    (hplace : placeImages b rest p fs = .ok q fs') : Serves b before (done ++ rest) q fs' := by
  induction rest generalizing done p fs with
  | nil =>
    obtain ⟨rfl, rfl⟩ := EStateM.Result.ok.inj hplace
    rwa [List.append_nil]
  | cons image rest ih =>
    obtain ⟨name, source⟩ := image
    have hsplit : done ++ (name, source) :: rest = (done ++ [(name, source)]) ++ rest := by simp
    rw [hsplit] at hnames ⊢
    unfold placeImages at hplace
    by_cases hhas : FileSystem.has fs source = true
    · simp only [if_pos hhas] at hplace
      have hname : name ∉ done.map Prod.fst := by
        rw [List.map_append, List.map_append] at hnames
        have hfirst := (List.nodup_append.1 hnames).1
        exact fun hmem => (List.nodup_append.1 hfirst).2.2 name hmem name (by simp) rfl
      rcases Bundle.copyInto_spec b source fs with ⟨placed, after, hcopy, hpath, hcopied⟩ | ⟨e, hcopy⟩
      · rw [hcopy] at hplace
        exact ih (h.add hname hpath hcopied) hnames hplace
      · simp [hcopy] at hplace
    · simp only [if_neg hhas] at hplace
      exact ih (h.skip (by simpa using hhas)) hnames hplace

/-! ### Text -/

/-- Whether a token is a string whose content has a new name. -/
def isRenamed (renamed : Std.TreeMap Text Text) (t : Token) : Bool :=
  (t.content?.bind (renamed[·]?)).isSome

theorem isRenamed_eq_false {renamed : Std.TreeMap Text Text} {t : Token} :
    isRenamed renamed t = false ↔ ∀ content, t.content? = some content → renamed[content]? = none := by
  rw [isRenamed, Option.isSome_eq_false_iff, Option.isNone_iff_eq_none, Option.bind_eq_none_iff]

/-- A string that is renamed has its content replaced by the new name. -/
theorem exists_replacement {renamed : Std.TreeMap Text Text} {t : Token} {content : Text}
    (h : isRenamed renamed t = true) (hc : t.content? = some content) :
    ∃ name, renamed[content]? = some name
      ∧ replacement? renamed t = some ⟨t.offset + 1, t.stop - 1, name⟩ := by
  rw [isRenamed, hc, Option.bind_some, Option.isSome_iff_exists] at h
  obtain ⟨name, hname⟩ := h
  exact ⟨name, hname, by simp [replacement?, hc, hname]⟩

theorem replacement?_eq_none {renamed : Std.TreeMap Text Text} {t : Token}
    (h : isRenamed renamed t = false) : replacement? renamed t = none := by
  cases hc : t.content? with
  | none => simp [replacement?, hc]
  | some content =>
    have hname : renamed[content]? = none := isRenamed_eq_false.1 h content hc
    simp [replacement?, hc, hname]

/-- A text that begins at the offset `o`, and what it becomes when the contents of some strings are
exchanged for their new names: all that stands before, between and behind them stays. -/
inductive Rewritten (renamed : Std.TreeMap Text Text) : Nat → List Token → Text → Text → Prop where
  | done (o : Nat) (s : Text) : Rewritten renamed o [] s s
  | next {o : Nat} {gap content name rest rest' : Text} {t : Token} {ts : List Token}
      (content_eq : t.content? = some content) (name_eq : renamed[content]? = some name)
      (start_eq : t.offset + 1 = o + Text.byteLen gap)
      (later : Rewritten renamed (o + Text.byteLen gap + Text.byteLen content) ts rest rest') :
      Rewritten renamed o (t :: ts) (gap ++ content ++ rest) (gap ++ name ++ rest')

variable {renamed : Std.TreeMap Text Text}

theorem rewritten_replaceFrom {o : Nat} {ts : List Token} {s : Text} (h : Standing o ts s)
    (hrenamed : ∀ t ∈ ts, isRenamed renamed t = true) (before : Text)
    (hbefore : Text.byteLen before = o) :
    Rewritten renamed o ts s
      (replaceFrom (before ++ s) o (ts.filterMap (replacement? renamed))) := by
  induction h generalizing before with
  | done o s =>
    have hslice := Text.slice_append before s []
    rw [List.append_nil, hbefore] at hslice
    rw [List.filterMap_nil, replaceFrom, hslice]
    exact .done o s
  | next content_eq start_eq stop_eq later ih =>
    rename_i o gap content rest t ts
    obtain ⟨name, hname, hreplacement⟩ :=
      exists_replacement (hrenamed t (List.mem_cons_self ..)) content_eq
    have hslice := Text.slice_append before gap (content ++ rest)
    rw [Text.byteLen_append, hbefore] at hslice
    have hrest := ih (fun u hu => hrenamed u (List.mem_cons_of_mem _ hu))
      (before ++ gap ++ content) (by simp only [Text.byteLen_append]; omega)
    have hwhole : before ++ (gap ++ content ++ rest) = before ++ gap ++ (content ++ rest) := by simp
    have hwhole' : before ++ (gap ++ content ++ rest) = before ++ gap ++ content ++ rest := by simp
    rw [List.filterMap_cons_some hreplacement, replaceFrom, start_eq, stop_eq, hwhole, hslice,
      ← hwhole, hwhole']
    exact .next content_eq hname start_eq hrest

/-- The strings that are renamed stand in the text one behind another. -/
theorem standing_filter_isRenamed (renamed : Std.TreeMap Text Text) (s : Text) :
    Standing 0 ((deepTokens s).filter (isRenamed renamed)) s := by
  have hfilter : (deepTokens s).filter (isRenamed renamed)
      = ((deepTokens s).filter (·.content?.isSome)).filter (isRenamed renamed) := by
    rw [List.filter_filter]
    refine List.filter_congr fun t _ => ?_
    cases hc : t.content? <;> simp [isRenamed, hc]
  rw [hfilter]
  exact (standing_deepTokens s).filter _

/-- Only strings that are renamed have a replacement. -/
theorem filterMap_replacement? (renamed : Std.TreeMap Text Text) (ts : List Token) :
    ts.filterMap (replacement? renamed)
      = (ts.filter (isRenamed renamed)).filterMap (replacement? renamed) := by
  rw [List.filterMap_filter]
  refine List.filterMap_congr fun t _ => ?_
  by_cases ht : isRenamed renamed t = true
  · rw [if_pos ht]
  · rw [if_neg ht, replacement?_eq_none (Bool.eq_false_iff.2 ht)]

/-- Of a text the contents of the renamed strings are exchanged, at any depth. -/
theorem rewritten_renameLiterals (s : Text) (renamed : Std.TreeMap Text Text) :
    Rewritten renamed 0 ((deepTokens s).filter (isRenamed renamed)) s
      (renameLiterals s renamed) := by
  have hwritten := rewritten_replaceFrom (standing_filter_isRenamed renamed s)
    (fun t ht => (List.mem_filter.1 ht).2) [] rfl
  rw [renameLiterals, filterMap_replacement?]
  exact hwritten

/-! ### Both -/

/-- What a prepared paste promises: the images of the payload that were there are in the bundle under
the names that the prepared text has for them, no file was changed, and the text is that of the
payload with the renamed strings rewritten. -/
structure Delivers (payload : ClipboardPayload) (b : Bundle) (fs : Store) (p : Prepared)
    (fs' : Store) : Prop where
  served : ∀ name source bytes, payload.images[name]? = some source →
    fs.contents? source = some bytes → fs'.contents? (b.imagePath (p.nameOf name)) = some bytes
  kept : ∀ path bytes, fs.contents? path = some bytes → fs'.contents? path = some bytes
  rewritten : Rewritten p.renamed 0 ((deepTokens payload.text).filter (isRenamed p.renamed))
    payload.text p.text

/-- Every paste that is prepared keeps its promises. -/
theorem prepare_delivers {payload : ClipboardPayload} (h : prepare payload b fs = .ok p fs') :
    Delivers payload b fs p fs' := by
  simp only [prepare, bind, EStateM.bind, EStateM.adaptExcept] at h
  cases hplace : placeImages b payload.images.toList .empty fs with
  | error e after => simp [hplace] at h
  | ok q after =>
    rw [hplace] at h
    obtain ⟨rfl, rfl⟩ := EStateM.Result.ok.inj h
    have hnames : (([] ++ payload.images.toList).map Prod.fst).Nodup := by
      rw [List.nil_append, List.Nodup, List.pairwise_map]
      refine Std.TreeMap.distinct_keys_toList.imp ?_
      intro x y hxy heq
      exact hxy (by rw [heq]; exact Std.ReflCmp.compare_self)
    have hserves := placeImages_serves (Serves.empty b fs) hnames hplace
    refine ⟨?_, hserves.kept, rewritten_renameLiterals payload.text q.renamed⟩
    intro name source bytes himage hbytes
    have hmem : (name, source) ∈ [] ++ payload.images.toList :=
      Std.TreeMap.mem_toList_iff_getElem?_eq_some.2 himage
    exact hserves.served _ hmem bytes hbytes

/-- Two images of one paste that exchange their names. -/
theorem prepare_delivers_exchange :
    let fs := ((Store.empty.addFile (.ofString "/w/s.py") []).addFile (.ofString "/x/a.png")
      [1]).addFile (.ofString "/x/b.png") [2]
    let b := Bundle.ofScript (.ofString "/w/s.py")
    let payload : ClipboardPayload := ⟨"\"a.png\" \"b.png\"".toList, .ofList
      [("a.png".toList, Path.ofString "/x/b.png"), ("b.png".toList, Path.ofString "/x/a.png")]⟩
    ∃ p fs', prepare payload b fs = .ok p fs' ∧ p.text = "\"b.png\" \"a.png\"".toList
      ∧ Delivers payload b fs p fs' := by
  intro fs b payload
  have htext : ((prepare payload b).run' fs).map (·.text) = some "\"b.png\" \"a.png\"".toList := by
    decide +kernel
  unfold EStateM.run' EStateM.run at htext
  cases hrun : prepare payload b fs with
  | ok p fs' =>
    rw [hrun] at htext
    exact ⟨p, fs', rfl, Option.some.inj htext, prepare_delivers hrun⟩
  | error e fs' =>
    rw [hrun] at htext
    simp at htext

end Clipboard

end ImageScript
