import Mathlib.Data.List.Nodup
import ImageScript.Files.Store
import ImageScript.Proofs.Files.PathComponents

/-!
# The entries of a directory in memory

Which paths `Store.entriesIn` lists: every file and every directory that lies directly in a
directory, each under one spelling. Entries with file names are told apart by these.
-/

namespace ImageScript

namespace KeyedBy

variable {β : Type} {f : β → Path.Key} {m : Std.TreeMap Path.Key β}

theorem values_eq (m : Std.TreeMap Path.Key β) : m.values = m.toList.map Prod.snd := by
  show m.foldr (fun _ v vs => v :: vs) [] = _
  rw [Std.TreeMap.foldr_eq_foldr_toList]
  induction m.toList with
  | nil => rfl
  | cons e es ih => simp [ih]

theorem mem_values_iff (h : KeyedBy f m) {v : β} : v ∈ m.values ↔ m[f v]? = some v := by
  rw [values_eq, List.mem_map]
  constructor
  · rintro ⟨⟨k, w⟩, hmem, rfl⟩
    have hk := Std.TreeMap.mem_toList_iff_getElem?_eq_some.1 hmem
    rwa [h k w hk]
  · intro hv
    exact ⟨(f v, v), Std.TreeMap.mem_toList_iff_getElem?_eq_some.2 hv, rfl⟩

/-- No two values of a map have the same key. -/
theorem nodup_values (h : KeyedBy f m) : (m.values.map f).Nodup := by
  have hkeys : m.values.map f = m.toList.map Prod.fst := by
    rw [values_eq, List.map_map]
    apply List.map_congr_left
    rintro ⟨k, v⟩ hmem
    exact h k v (Std.TreeMap.mem_toList_iff_getElem?_eq_some.1 hmem)
  rw [hkeys, List.Nodup, List.pairwise_map]
  refine Std.TreeMap.distinct_keys_toList.imp ?_
  intro a b hab heq
  exact hab (by rw [heq]; exact Std.ReflCmp.compare_self)

/-- Of several new values with the same key the first is taken. -/
theorem getElem?_foldl_insertIfNew (m : Std.TreeMap Path.Key β) (vs : List β) (k : Path.Key) :
    (vs.foldl (fun m v => m.insertIfNew (f v) v) m)[k]? = m[k]?.or (vs.find? fun v => f v = k) := by
  induction vs generalizing m with
  | nil => simp
  | cons v vs ih =>
    rw [List.foldl_cons, ih, Std.TreeMap.getElem?_insertIfNew, List.find?_cons]
    by_cases hk : f v = k
    · subst hk
      cases hm : m[f v]? with
      | none =>
        have hnot : f v ∉ m := by simpa using hm
        rw [if_pos ⟨Std.ReflCmp.compare_self, hnot⟩]
        simp
      | some w =>
        have hmem : f v ∈ m := by
          by_contra hnot
          simp [Std.TreeMap.getElem?_eq_none hnot] at hm
        rw [if_neg fun h => h.2 hmem]
        rfl
    · rw [if_neg fun h => hk (Std.compare_eq_iff_eq.1 h.1)]
      simp [hk]

end KeyedBy

namespace Store

theorem getElem?_put (fs : Store) (p : Path) (bytes : Bytes) (k : Path.Key) :
    (fs.put p bytes).files[k]?
      = if k = p.key then some (fs.spelling p, bytes) else fs.files[k]? := by
  unfold put
  rw [Std.TreeMap.getElem?_insert]
  by_cases h : k = p.key
  · rw [if_pos h, if_pos (Std.compare_eq_iff_eq.2 h.symm)]
  · rw [if_neg h, if_neg fun hc => h (Std.compare_eq_iff_eq.1 hc).symm]

theorem contents?_put (fs : Store) (p q : Path) (bytes : Bytes) :
    (fs.put p bytes).contents? q = if q.key = p.key then some bytes else fs.contents? q := by
  rw [contents?, getElem?_put]
  by_cases h : q.key = p.key
  · rw [if_pos h, if_pos h, Option.map_some]
  · rw [if_neg h, if_neg h, contents?]

theorem mem_filesIn_iff {s : Store} {dir p : Path} :
    p ∈ s.filesIn dir ↔ (∃ bytes, s.files[p.key]? = some (p, bytes)) ∧ p.IsChildOf dir := by
  simp only [filesIn, List.mem_filterMap, Option.ite_none_right_eq_some, Option.some.injEq]
  constructor
  · rintro ⟨⟨q, bytes⟩, hq, hchild, rfl⟩
    exact ⟨⟨bytes, s.files_keyed.mem_values_iff.1 hq⟩, hchild⟩
  · rintro ⟨⟨bytes, hp⟩, hchild⟩
    exact ⟨(p, bytes), s.files_keyed.mem_values_iff.2 hp, hchild, rfl⟩

/-- The map behind `entriesIn`. -/
def entryMap (s : Store) (dir : Path) : Std.TreeMap Path.Key Path :=
  (s.dirs.values.filter (isChild dir)).foldl (fun m p => m.insertIfNew p.key p)
    ((s.filesIn dir).foldl (fun m p => m.insertIfNew p.key p) ∅)

theorem entriesIn_eq (s : Store) (dir : Path) : s.entriesIn dir = (s.entryMap dir).values := rfl

theorem entryMap_keyed (s : Store) (dir : Path) : KeyedBy Path.key (s.entryMap dir) :=
  (KeyedBy.empty.foldl_insertIfNew _).foldl_insertIfNew _

theorem getElem?_entryMap (s : Store) (dir : Path) (k : Path.Key) :
    (s.entryMap dir)[k]? = ((s.filesIn dir).find? fun p => p.key = k).or
      ((s.dirs.values.filter (isChild dir)).find? fun p => p.key = k) := by
  simp [entryMap, KeyedBy.getElem?_foldl_insertIfNew]

/-- What is listed lies directly in the directory and is a file or a directory. -/
theorem of_mem_entriesIn {s : Store} {dir p : Path} (h : p ∈ s.entriesIn dir) :
    p.IsChildOf dir ∧ s.has p = true := by
  rw [entriesIn_eq, (s.entryMap_keyed dir).mem_values_iff, getElem?_entryMap,
    Option.or_eq_some_iff] at h
  rcases h with h | ⟨_, h⟩
  · obtain ⟨⟨bytes, hp⟩, hchild⟩ := mem_filesIn_iff.1 (List.mem_of_find?_eq_some h)
    refine ⟨hchild, ?_⟩
    have : p.key ∈ s.files := by
      by_contra hnot
      simp [Std.TreeMap.getElem?_eq_none hnot] at hp
    simp [has, this]
  · obtain ⟨hdir, hchild⟩ := List.mem_filter.1 (List.mem_of_find?_eq_some h)
    have hp := s.dirs_keyed.mem_values_iff.1 hdir
    refine ⟨hchild, ?_⟩
    have : p.key ∈ s.dirs := by
      by_contra hnot
      simp [Std.TreeMap.getElem?_eq_none hnot] at hp
    simp [has, hasDir, this]

/-- Every file directly in the directory is listed, under the spelling it was entered with. -/
theorem mem_entriesIn_of_file {s : Store} {dir p : Path} {bytes : Bytes}
    (h : s.files[p.key]? = some (p, bytes)) (hchild : p.IsChildOf dir) : p ∈ s.entriesIn dir := by
  rw [entriesIn_eq, (s.entryMap_keyed dir).mem_values_iff, getElem?_entryMap]
  have hsome : ((s.filesIn dir).find? fun q => q.key = p.key).isSome := by
    rw [List.find?_isSome]
    exact ⟨p, mem_filesIn_iff.2 ⟨⟨bytes, h⟩, hchild⟩, by simp⟩
  obtain ⟨q, hq⟩ := Option.isSome_iff_exists.1 hsome
  have hkey : q.key = p.key := by simpa using List.find?_some hq
  obtain ⟨⟨bytes', hq'⟩, _⟩ := mem_filesIn_iff.1 (List.mem_of_find?_eq_some hq)
  rw [hkey, h] at hq'
  rw [hq, ← (Prod.mk.inj (Option.some.inj hq')).1]
  rfl

theorem nodup_entriesIn (s : Store) (dir : Path) : ((s.entriesIn dir).map Path.key).Nodup :=
  (s.entryMap_keyed dir).nodup_values

end Store

end ImageScript
