import Mathlib
import ImageScript.Files.Disk
import ImageScript.Proofs.Files.Listing

/-!
# Writing a file that is there

Writing a file that can be read changes its bytes and nothing else: every path leads where it led,
every directory lists what it listed, and files of other names keep their bytes. This holds of the
files in memory and of those of an operating system.

Main statements: the instances of `LawfulFileSystem`.
-/

namespace ImageScript

/-- Two maps that agree on their keys, and on their values as far as `f` can tell, are listed in the
same way. -/
theorem map_toList_eq {α β γ : Type} [Ord α] [Std.TransOrd α] [Std.LawfulEqOrd α]
    {m m' : Std.TreeMap α β} {f : β → γ} (h : ∀ k : α, m'[k]?.map f = m[k]?.map f) :
    m'.toList.map (fun e => (e.1, f e.2)) = m.toList.map (fun e => (e.1, f e.2)) := by
  have hequiv : (m'.map fun _ v => f v).Equiv (m.map fun _ v => f v) := by
    refine .of_forall_constGet?_eq fun k => ?_
    rw [Std.TreeMap.getElem?_map, Std.TreeMap.getElem?_map, h]
  have hlist := hequiv.toList_eq
  rwa [Std.TreeMap.toList_map, Std.TreeMap.toList_map] at hlist

variable {σ : Type} [FileSystem σ]

/-- What is left when a file was written over: the same entries, one with new bytes. -/
structure Overwritten (p : Path) (bytes : Bytes) (fs fs' : σ) : Prop where
  has_eq : ∀ q, FileSystem.has fs' q = FileSystem.has fs q
  isDir_eq : ∀ q, FileSystem.isDir fs' q = FileSystem.isDir fs q
  list_eq : ∀ q, FileSystem.list fs' q = FileSystem.list fs q
  read_self : FileSystem.read fs' p = .ok bytes
  read_other : ∀ q n n', p.fileName? = some n → q.fileName? = some n' → n ≠ n' →
    FileSystem.read fs' q = FileSystem.read fs q

/-- A file system in which a file that can be read is there, and writing it changes nothing but its
bytes. -/
class LawfulFileSystem (σ : Type) [FileSystem σ] : Prop where
  has_of_read : ∀ {p : Path} {bytes : Bytes} {fs : σ}, FileSystem.read fs p = .ok bytes →
    FileSystem.has fs p = true
  overwritten : ∀ {p : Path} {old bytes : Bytes} {fs fs' : σ}, FileSystem.read fs p = .ok old →
    FileSystem.write p bytes fs = .ok () fs' → Overwritten p bytes fs fs'

namespace Store

theorem eq_put_of_write {p : Path} {bytes : Bytes} {s s' : Store}
    (h : write p bytes s = .ok () s') : s' = s.put p bytes := by
  simp only [write, bind, EStateM.bind, get, getThe, MonadStateOf.get, EStateM.get] at h
  cases he : s.writeError? p with
  | some e =>
    rw [he] at h
    cases h
  | none =>
    rw [he] at h
    cases h
    rfl

variable {s : Store} {p : Path}

/-- The spellings of the files, one by one, when a file that is there is written. -/
theorem map_spelling_put (h : p.key ∈ s.files) (bytes : Bytes) (k : Path.Key) :
    (s.put p bytes).files[k]?.map Prod.fst = s.files[k]?.map Prod.fst := by
  rw [getElem?_put]
  split
  · next hk =>
    subst hk
    unfold spelling
    cases hfile : s.files[p.key]? with
    | none => exact absurd h (by simpa using hfile)
    | some f => rfl
  · rfl

theorem has_put (h : p.key ∈ s.files) (bytes : Bytes) (q : Path) :
    (s.put p bytes).has q = s.has q := by
  have hspelling := congrArg Option.isSome (map_spelling_put h bytes q.key)
  rw [Option.isSome_map, Option.isSome_map, Std.TreeMap.isSome_getElem?_eq_contains,
    Std.TreeMap.isSome_getElem?_eq_contains] at hspelling
  rw [has, has, hspelling]
  rfl

theorem filesIn_eq (s : Store) (dir : Path) :
    s.filesIn dir = ((s.files.toList.map fun e => (e.1, e.2.1)).map Prod.snd).filter (isChild dir) := by
  rw [filesIn, KeyedBy.values_eq, List.filterMap_map, List.map_map, List.filter_map,
    ← List.filterMap_eq_filter, List.map_filterMap]
  refine List.filterMap_congr fun e _ => ?_
  simp [Option.guard]

theorem entriesIn_put (h : p.key ∈ s.files) (bytes : Bytes) (dir : Path) :
    (s.put p bytes).entriesIn dir = s.entriesIn dir := by
  have hfiles : (s.put p bytes).filesIn dir = s.filesIn dir := by
    rw [filesIn_eq, filesIn_eq, map_toList_eq (map_spelling_put h bytes)]
  rw [entriesIn, entriesIn, hfiles]
  rfl

theorem mem_files_of_read {old : Bytes} (h : s.read p = .ok old) : p.key ∈ s.files := by
  unfold read contents? at h
  cases hfile : s.files[p.key]? with
  | none => simp [hfile] at h
  | some f => exact Std.TreeMap.mem_iff_isSome_getElem?.2 (by rw [hfile]; rfl)

instance : LawfulFileSystem Store where
  has_of_read {p old s} hread := by
    show (s.files.contains p.key || s.hasDir p) = true
    have hmem := mem_files_of_read hread
    rw [Std.TreeMap.contains_iff_mem.2 hmem, Bool.true_or]
  overwritten {p old bytes s s'} hread hwrite := by
    obtain rfl := eq_put_of_write hwrite
    have hmem := mem_files_of_read hread
    refine ⟨has_put hmem bytes, fun q => rfl, fun q => ?_, ?_, ?_⟩
    · show (if (s.put p bytes).hasDir q then _ else _) = if s.hasDir q then _ else _
      rw [entriesIn_put hmem]
      rfl
    · show read (s.put p bytes) p = _
      rw [read, contents?_put, if_pos rfl]
    · intro q n n' hn hn' hne
      show read (s.put p bytes) q = read s q
      have hkey : q.key ≠ p.key := by
        intro hkey
        rw [Path.fileName?_congr hkey, hn] at hn'
        exact hne (Option.some.inj hn')
      rw [read, contents?_put, if_neg hkey, read]

end Store

namespace Disk

/-- A path with a file name takes the step to that name last, but for steps that stay. -/
theorem exists_steps_of_getLast? {first n : Text} {others : List Text}
    (h : (Path.componentsOf first others).getLast? = some (.name n)) :
    ∃ names k, (first :: others).filter (· ≠ []) = names ++ n :: List.replicate k ['.'] := by
  induction others using List.reverseRecOn with
  | nil =>
    by_cases hnil : first = []
    · simp [Path.componentsOf, hnil] at h
    by_cases hhere : first = ['.']
    · simp [Path.componentsOf, hhere] at h
    simp only [Path.componentsOf, if_neg hnil, if_neg hhere, List.filter_nil, List.map_nil,
      List.append_nil, List.getLast?_singleton, Option.some.injEq] at h
    rw [Path.eq_of_componentOf h] at hnil ⊢
    exact ⟨[], 0, by simp [hnil]⟩
  | append_singleton others last ih =>
    by_cases hidle : Path.isIdle last = true
    · have hfirst : (Path.componentsOf first others).getLast? = some (.name n) := by
        simp only [Path.componentsOf, List.filter_append, List.map_append] at h ⊢
        rw [List.filter_cons_of_neg (by simp [hidle])] at h
        by_cases hempty : first = [] ∧ others = []
        · simp [hempty] at h
        · by_cases hnil : first = []
          · have hothers : others ≠ [] := fun ho => hempty ⟨hnil, ho⟩
            simpa [hnil, hothers] using h
          · simpa [hnil] using h
      obtain ⟨names, k, hsteps⟩ := ih hfirst
      rw [← List.cons_append, List.filter_append, hsteps]
      by_cases hnil : last = []
      · exact ⟨names, k, by simp [hnil]⟩
      · have hstay : last = ['.'] := by simpa [Path.isIdle, hnil] using hidle
        exact ⟨names, k + 1, by simp [hstay, List.replicate_succ']⟩
    · have hlast : Path.componentOf last = .name n := by
        simpa [Path.componentsOf, hidle] using h
      have hnil : last ≠ [] := by
        rintro rfl
        exact hidle rfl
      refine ⟨(first :: others).filter (· ≠ []), 0, ?_⟩
      rw [← List.cons_append, List.filter_append, ← Path.eq_of_componentOf hlast]
      simp [hnil]

/-- Steps that stay lead nowhere else. -/
theorem eq_of_foldlM_stay {d : Disk} {k : Nat} {place place' : Location}
    (h : (List.replicate k ['.']).foldlM d.step place = .ok place') : place' = place := by
  induction k with
  | zero => exact (Except.ok.inj h).symm
  | succ k ih =>
    rw [List.replicate_succ, List.foldlM_cons] at h
    unfold step at h
    split at h
    · cases h
    · exact ih h

/-- A path with a file name leads to an entry of that name. -/
theorem getLast?_of_locate {d : Disk} {p : Path} {place : Location} {n : Text}
    (h : d.locate p = .ok place) (hn : p.fileName? = some n) : place.getLast? = some n := by
  have hname := Path.isName_of_fileName? hn
  obtain ⟨names, k, hsteps⟩ := exists_steps_of_getLast? (Path.getLast?_of_fileName? hn)
  unfold locate at h
  split at h
  · cases h
  have hfollow : (names ++ n :: List.replicate k ['.']).foldlM d.step
      (if p.isAbsolute then [] else d.working) = .ok place := by
    rw [← hsteps]
    exact h
  rw [List.foldlM_append] at hfollow
  cases hnames : names.foldlM d.step (if p.isAbsolute then [] else d.working) with
  | error e =>
    rw [hnames] at hfollow
    cases hfollow
  | ok dir =>
    rw [hnames] at hfollow
    replace hfollow : (d.step dir n >>= (List.replicate k ['.']).foldlM d.step) = .ok place :=
      hfollow
    cases hstep : d.step dir n with
    | error e =>
      rw [hstep] at hfollow
      cases hfollow
    | ok place' =>
      rw [hstep] at hfollow
      obtain rfl := eq_of_foldlM_stay hfollow
      unfold step at hstep
      rw [if_neg hname.ne_here, if_neg hname.ne_up] at hstep
      repeat' split at hstep
      · cases hstep
      · cases hstep
      · rw [← Except.ok.inj hstep, List.getLast?_concat]

theorem entryAt?_of_find {d : Disk} {p : Path} {place : Location} {e : DiskEntry}
    (h : d.find p = .ok (place, e)) : d.locate p = .ok place ∧ d.entryAt? place = some e := by
  unfold find at h
  cases hlocate : d.locate p with
  | error err =>
    rw [hlocate] at h
    cases h
  | ok other =>
    rw [hlocate] at h
    replace h : d.entryFor p other = .ok (place, e) := h
    unfold entryFor at h
    repeat' split at h
    · cases h
    · cases h
    · next hentry _ =>
      obtain ⟨rfl, rfl⟩ := Prod.mk.inj (Except.ok.inj h)
      exact ⟨rfl, hentry⟩
    · next hentry =>
      obtain ⟨rfl, rfl⟩ := Prod.mk.inj (Except.ok.inj h)
      exact ⟨rfl, hentry⟩

theorem find_of_contents {d : Disk} {p : Path} {bytes : Bytes} (h : d.contents p = .ok bytes) :
    ∃ place, d.find p = .ok (place, .file bytes) := by
  unfold contents at h
  cases hfind : d.find p with
  | error e =>
    rw [hfind] at h
    cases h
  | ok found =>
    obtain ⟨place, e⟩ := found
    rw [hfind] at h
    cases e with
    | dir => cases h
    | file bytes' =>
      obtain rfl := Except.ok.inj h
      exact ⟨place, rfl⟩

section Set

variable {d : Disk} {place : Location} {old : Bytes} (h : d.entryAt? place = some (.file old))
  (bytes : Bytes)

include h

theorem entryAt?_set (other : Location) : (d.set place (.file bytes)).entryAt? other =
    if other = place then some (.file bytes) else d.entryAt? other := by
  have hne : place ≠ [] := by
    rintro rfl
    simp [entryAt?] at h
  unfold entryAt? set
  rw [Std.TreeMap.getElem?_insert]
  by_cases hother : other = place
  · rw [if_pos hother, if_neg (hother ▸ hne), if_pos (Std.compare_eq_iff_eq.2 hother.symm)]
  · rw [if_neg hother, if_neg fun hc => hother (Std.compare_eq_iff_eq.1 hc).symm]

theorem step_set : (d.set place (.file bytes)).step = d.step := by
  have hsearch : ∀ other, (d.set place (.file bytes)).searchError? other = d.searchError? other := by
    intro other
    unfold searchError?
    rw [entryAt?_set h]
    by_cases hother : other = place
    · rw [if_pos hother, hother, h]
    · rw [if_neg hother]
  funext other n
  rw [step, step, hsearch]

theorem locate_set (p : Path) : (d.set place (.file bytes)).locate p = d.locate p := by
  rw [locate, locate, follow, follow, step_set h]
  rfl

/-- A path leads to the entry that it led to, with the new bytes if it is the one written. -/
theorem find_set (p : Path) : (d.set place (.file bytes)).find p =
    (d.find p).map fun e => if e.1 = place then (place, .file bytes) else e := by
  rw [find, find, locate_set h]
  cases d.locate p with
  | error e => rfl
  | ok other =>
    show entryFor _ p other = (entryFor d p other).map _
    unfold entryFor
    rw [entryAt?_set h]
    by_cases hother : other = place
    · rw [if_pos hother, hother, h]
      by_cases hdir : meansDir p = true
      · simp [hdir, Except.map]
      · simp [hdir, Except.map]
    · rw [if_neg hother]
      repeat' split
      all_goals simp [Except.map, hother]

theorem findDir_set (p : Path) : (d.set place (.file bytes)).findDir p = d.findDir p := by
  rw [findDir, findDir, find_set h]
  cases hfind : d.find p with
  | error e => rfl
  | ok found =>
    obtain ⟨other, e⟩ := found
    by_cases hother : other = place
    · obtain ⟨-, hentry⟩ := entryAt?_of_find hfind
      rw [hother, h, Option.some.injEq] at hentry
      simp only [Except.map, if_pos hother, ← hentry]
      rfl
    · simp only [Except.map, if_neg hother]

theorem list_set (p : Path) : (d.set place (.file bytes)).list p = d.list p := by
  have hkeys : (d.set place (.file bytes)).entries.keys = d.entries.keys := by
    have hentries : ∀ k : Location, (d.set place (.file bytes)).entries[k]?.map (fun _ => ()) =
        d.entries[k]?.map fun _ => () := by
      intro k
      have hentry := entryAt?_set h bytes k
      by_cases hk : k = place
      · subst hk
        have hne : k ≠ [] := by
          rintro rfl
          simp [entryAt?] at h
        rw [entryAt?, if_neg hne] at h hentry
        rw [hentry, h, if_pos rfl]
        rfl
      · by_cases hnil : k = []
        · subst hnil
          unfold set
          rw [Std.TreeMap.getElem?_insert,
            if_neg fun hc => hk (Std.compare_eq_iff_eq.1 hc).symm]
        · rw [if_neg hk, entryAt?, entryAt?, if_neg hnil] at hentry
          rw [hentry, if_neg hnil]
    have hlist := congrArg (List.map Prod.fst) (map_toList_eq hentries)
    rwa [List.map_map, List.map_map, Function.comp_def, Std.TreeMap.map_fst_toList_eq_keys,
      Std.TreeMap.map_fst_toList_eq_keys] at hlist
  rw [list, list, findDir_set h, hkeys]

end Set

theorem eq_set_of_write {d d' : Disk} {p : Path} {bytes : Bytes} {place : Location}
    (h : d.write p bytes = .ok d') (hplace : d.locate p = .ok place) :
    d' = d.set place (.file bytes) := by
  unfold write writable at h
  rw [hplace] at h
  simp only [bind, Except.bind, pure, Except.pure, throw, throwThe, MonadExceptOf.throw] at h
  split at h
  · cases h
  · next other hother =>
    have heq : other = place := by
      repeat' split at hother
      all_goals cases hother
      rfl
    rw [← heq]
    exact (Except.ok.inj h).symm

theorem contents_of_read {d : Disk} {p : Path} {bytes : Bytes}
    (h : FileSystem.read d p = .ok bytes) : d.contents p = .ok bytes := by
  replace h : (d.contents p).mapError FileError.system = .ok bytes := h
  cases hc : d.contents p with
  | error e =>
    rw [hc] at h
    cases h
  | ok bytes' =>
    rw [hc] at h
    exact congrArg Except.ok (Except.ok.inj h)

instance : LawfulFileSystem Disk where
  has_of_read {p old d} hread := by
    obtain ⟨place, hfind⟩ := find_of_contents (contents_of_read hread)
    show (d.find p).isOk = true
    rw [hfind]
    rfl
  overwritten {p old bytes d d'} hread hwrite := by
    obtain ⟨place, hfind⟩ := find_of_contents (contents_of_read hread)
    obtain ⟨hplace, hentry⟩ := entryAt?_of_find hfind
    obtain rfl : d' = d.set place (.file bytes) := by
      refine eq_set_of_write ?_ hplace
      replace hwrite : action (·.write p bytes) d = .ok () d' := hwrite
      unfold action at hwrite
      split at hwrite
      · next hd =>
        obtain ⟨-, rfl⟩ := EStateM.Result.ok.inj hwrite
        exact hd
      · cases hwrite
    refine ⟨fun q => ?_, fun q => ?_, fun q => ?_, ?_, ?_⟩
    · show ((d.set place _).find q).isOk = (d.find q).isOk
      rw [find_set hentry]
      cases d.find q <;> rfl
    · show (findDir _ q).isOk = (d.findDir q).isOk
      rw [findDir_set hentry]
    · show (list _ q).mapError _ = (d.list q).mapError _
      rw [list_set hentry]
    · show (contents _ p).mapError _ = _
      rw [contents, find_set hentry, hfind, Except.map, if_pos rfl]
      rfl
    · intro q n n' hn hn' hne
      show (contents _ q).mapError _ = (d.contents q).mapError _
      rw [contents, contents, find_set hentry]
      cases hq : d.find q with
      | error e => rfl
      | ok found =>
        obtain ⟨other, e⟩ := found
        have hother : other ≠ place := by
          rintro rfl
          have hlast := getLast?_of_locate hplace hn
          rw [getLast?_of_locate (entryAt?_of_find hq).1 hn'] at hlast
          exact hne (Option.some.inj hlast).symm
        simp only [Except.map, if_neg hother]

end Disk

end ImageScript
