import ImageScript.Files.Disk

/-!
# Changes of a disk

What has to be done to files so that they become those of another disk.
-/

namespace ImageScript

inductive DiskChange where
  | removeFile (path : Path)
  | removeDir (path : Path)
  | makeDir (path : Path)
  | write (path : Path) (bytes : Bytes)
deriving DecidableEq, Repr

namespace Disk

/-- What has to go before an entry can be what it is on another disk. -/
def removal? (after : Disk) (place : Location) (e : DiskEntry) : Option DiskChange :=
  match e, after.entries[place]? with
  | .file _, some (.file _) | .dir, some .dir => none
  | .file _, _ => some (.removeFile (spell place))
  | .dir, _ => some (.removeDir (spell place))

/-- What has to be made so that an entry is there. -/
def creation? (before : Disk) (place : Location) (e : DiskEntry) : Option DiskChange :=
  if before.entries[place]? = some e then none
  else
    match e with
    | .file bytes => some (.write (spell place) bytes)
    | .dir => some (.makeDir (spell place))

/-- The changes from one disk to another: what goes, the deepest first, then what comes, a
directory before its entries. -/
def changes (before after : Disk) : List DiskChange :=
  (before.entries.toList.filterMap fun (place, e) => after.removal? place e).reverse
    ++ after.entries.toList.filterMap fun (place, e) => before.creation? place e

end Disk

end ImageScript
