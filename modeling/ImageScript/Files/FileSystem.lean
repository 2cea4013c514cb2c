import ImageScript.Files.Path
import ImageScript.Text.Utf8

/-!
# File systems

What the library asks of a file system. An action that fails may have changed something before it
failed, so it gives back a state in either case.
-/

namespace ImageScript

/-- Why the operating system refuses a request. -/
inductive SystemError where
  | noEntry
  | entryExists
  | notDirectory
  | isDirectory
  | nameTooLong
  | invalidArgument
  | notEmpty
  | busy
  | nulByte
  | notRegular
  | noTree
deriving DecidableEq, Repr

def SystemError.message : SystemError → String
  | noEntry => "No such file or directory (os error 2)"
  | entryExists => "File exists (os error 17)"
  | notDirectory => "Not a directory (os error 20)"
  | isDirectory => "Is a directory (os error 21)"
  | nameTooLong => "File name too long (os error 36)"
  | invalidArgument => "Invalid argument (os error 22)"
  | notEmpty => "Directory not empty (os error 39)"
  | busy => "Device or resource busy (os error 16)"
  | nulByte => "file name contained an unexpected NUL byte"
  | notRegular => "the source path is neither a regular file nor a symlink to a regular file"
  | noTree => "failed to create whole tree"

/-- Why a file operation fails. -/
inductive FileError where
  | missing (path : Path)
  | refused (path : Path)
  | noDirectory (path : Path)
  | system (cause : SystemError)
deriving DecidableEq, Repr

def FileError.message : FileError → Text
  | missing p => p.text ++ " not found".toList
  | refused p => "write to ".toList ++ p.text ++ " refused".toList
  | noDirectory p => "no directory ".toList ++ p.text
  | system cause => cause.message.toList

/-- The operations on files, over the states of a file system. -/
class FileSystem (σ : Type) where
  /-- How many files and directories there are in all. -/
  size : σ → Nat
  /-- Whether there is a file or a directory. -/
  has : σ → Path → Bool
  isDir : σ → Path → Bool
  /-- The path by which the file system itself knows an entry. -/
  canonical : σ → Path → Except FileError Path
  read : σ → Path → Except FileError Bytes
  /-- The entries of a directory in the order of paths. -/
  list : σ → Path → Except FileError (List Path)
  write : Path → Bytes → EStateM FileError σ Unit
  /-- Copies a file onto another path. -/
  copy : Path → Path → EStateM FileError σ Unit
  removeFile : Path → EStateM FileError σ Unit
  /-- Removes a directory with everything in it. -/
  removeDir : Path → EStateM FileError σ Unit
  /-- Creates a directory and every directory above it that is missing. -/
  createDir : Path → EStateM FileError σ Unit

end ImageScript
