import Std.Data.TreeMap
import ImageScript.Files.FileSystem

/-!
# Files in memory

A file system that holds its files in memory. A path keeps the spelling it was first entered with,
and writing to some paths can be refused. Every entry is kept under the key of its own path.
-/

namespace ImageScript

/-- Whether a map holds every value under the key that `f` finds for it. -/
def KeyedBy {β : Type} (f : β → Path.Key) (m : Std.TreeMap Path.Key β) : Prop :=
  ∀ k v, m[k]? = some v → f v = k

namespace KeyedBy

variable {β : Type} {f : β → Path.Key} {m : Std.TreeMap Path.Key β}

theorem empty : KeyedBy f (∅ : Std.TreeMap Path.Key β) := by
  intro k v h
  simp at h

theorem insert (h : KeyedBy f m) (v : β) : KeyedBy f (m.insert (f v) v) := by
  intro k w hw
  rw [Std.TreeMap.getElem?_insert] at hw
  split at hw
  · next hk =>
    rw [Std.compare_eq_iff_eq] at hk
    rw [← Option.some.inj hw, hk]
  · exact h k w hw

theorem insertIfNew (h : KeyedBy f m) (v : β) : KeyedBy f (m.insertIfNew (f v) v) := by
  intro k w hw
  rw [Std.TreeMap.getElem?_insertIfNew] at hw
  split at hw
  · next hk =>
    rw [Std.compare_eq_iff_eq] at hk
    rw [← Option.some.inj hw, hk.1]
  · exact h k w hw

theorem erase (h : KeyedBy f m) (k : Path.Key) : KeyedBy f (m.erase k) := by
  intro j v hv
  rw [Std.TreeMap.getElem?_erase] at hv
  split at hv
  · simp at hv
  · exact h j v hv

theorem filter (h : KeyedBy f m) (p : Path.Key → β → Bool) : KeyedBy f (m.filter p) := by
  intro k v hv
  rw [Std.TreeMap.getElem?_filter'] at hv
  exact h k v (Option.eq_some_of_filter_eq_some hv)

theorem foldl_insertIfNew (h : KeyedBy f m) (vs : List β) :
    KeyedBy f (vs.foldl (fun m v => m.insertIfNew (f v) v) m) := by
  induction vs generalizing m with
  | nil => exact h
  | cons v vs ih => exact ih (h.insertIfNew v)

end KeyedBy

/-- A file system in memory. -/
structure Store where
  files : Std.TreeMap Path.Key (Path × Bytes)
  dirs : Std.TreeMap Path.Key Path
  /-- The paths that refuse to be written. -/
  refused : List Path
  files_keyed : KeyedBy (·.1.key) files
  dirs_keyed : KeyedBy Path.key dirs

namespace Store

def empty : Store := ⟨∅, ∅, [], .empty, .empty⟩

def contents? (s : Store) (p : Path) : Option Bytes := s.files[p.key]?.map Prod.snd

def hasDir (s : Store) (p : Path) : Bool := s.dirs.contains p.key

def has (s : Store) (p : Path) : Bool := s.files.contains p.key || s.hasDir p

/-- The spelling that a file has or gets. -/
def spelling (s : Store) (p : Path) : Path :=
  match s.files[p.key]? with
  | some (q, _) => q
  | none => p

theorem spelling_key (s : Store) (p : Path) : (s.spelling p).key = p.key := by
  unfold spelling
  split
  · next h => exact s.files_keyed _ _ h
  · rfl

/-- Sets the contents of a file, whether its directory exists or not. -/
def put (s : Store) (p : Path) (bytes : Bytes) : Store :=
  { s with
    files := s.files.insert p.key (s.spelling p, bytes)
    files_keyed := by
      have h := s.files_keyed.insert (s.spelling p, bytes)
      rwa [s.spelling_key p] at h }

/-- Adds a directory and every directory above it. -/
def addDir (s : Store) (p : Path) : Store :=
  { s with
    dirs := (p.ancestors.takeWhile (!·.isEmpty)).foldl
      (fun dirs q => dirs.insertIfNew q.key q) s.dirs
    dirs_keyed := s.dirs_keyed.foldl_insertIfNew _ }

/-- Adds a file and every directory above it. -/
def addFile (s : Store) (p : Path) (bytes : Bytes) : Store :=
  let s := match p.parent? with
    | some q => s.addDir q
    | none => s
  s.put p bytes

/-- Makes a path refuse to be written. -/
def refuse (s : Store) (p : Path) : Store := { s with refused := p :: s.refused }

/-- Why a path cannot be written, if it cannot. -/
def writeError? (s : Store) (p : Path) : Option FileError :=
  if s.refused.any (·.same p) then some (.refused p)
  else
    match p.parent? with
    | some q => if !q.isEmpty && !s.hasDir q then some (.noDirectory q) else none
    | none => none

/-- Whether a path lies directly in a directory. -/
def isChild (dir p : Path) : Bool := p.parent?.any (·.same dir)

/-- The files directly in a directory. -/
def filesIn (s : Store) (dir : Path) : List Path :=
  s.files.values.filterMap fun (p, _) => if isChild dir p then some p else none

/-- The files and directories directly in a directory, in order; a path that is both stands once. -/
def entriesIn (s : Store) (dir : Path) : List Path :=
  let files : Std.TreeMap Path.Key Path :=
    (s.filesIn dir).foldl (fun m p => m.insertIfNew p.key p) ∅
  ((s.dirs.values.filter (isChild dir)).foldl (fun m p => m.insertIfNew p.key p) files).values

def write (p : Path) (bytes : Bytes) : EStateM FileError Store Unit := do
  match (← get).writeError? p with
  | some e => throw e
  | none => modify (·.put p bytes)

def read (s : Store) (p : Path) : Except FileError Bytes :=
  match s.contents? p with
  | some bytes => .ok bytes
  | none => .error (.missing p)

def copy (source target : Path) : EStateM FileError Store Unit := do
  match (← get).read source with
  | .ok bytes => write target bytes
  | .error e => throw e

def removeFile (p : Path) : EStateM FileError Store Unit := do
  let s ← get
  if s.files.contains p.key then
    set { s with files := s.files.erase p.key, files_keyed := s.files_keyed.erase p.key }
  else throw (.missing p)

def removeDir (p : Path) : EStateM FileError Store Unit := do
  let s ← get
  if s.hasDir p then
    set { s with
      files := s.files.filter fun _ f => !f.1.isWithin p
      dirs := s.dirs.filter fun _ d => !d.isWithin p
      files_keyed := s.files_keyed.filter _
      dirs_keyed := s.dirs_keyed.filter _ }
  else throw (.missing p)

instance : FileSystem Store where
  size s := s.files.size + s.dirs.size
  has := has
  isDir := hasDir
  canonical s p := if s.has p then .ok p else .error (.missing p)
  read := read
  list s p := if s.hasDir p then .ok (s.entriesIn p) else .error (.missing p)
  write := write
  copy := copy
  removeFile := removeFile
  removeDir := removeDir
  createDir p := modify (·.addDir p)

end Store

end ImageScript
