import ImageScript.Codec.Edit
import ImageScript.Files.FileSystem
import ImageScript.Json.Parser
import ImageScript.Text.Utf8

/-!
# Configuration

The file `glance.config.json` of a working directory: where new bundles go, and the options of the
editor beside it in the same object. Every field has a default, and so has the file.
-/

namespace ImageScript

structure Config where
  /-- The directory that new bundles are created in. -/
  scriptsDir : Text
  editor : EditorOptions
deriving DecidableEq, Repr

/-- Why a configuration file does not give a configuration. -/
inductive ConfigError where
  | unreadable (cause : FileError)
  | notText
  | malformed
deriving DecidableEq, Repr

def ConfigError.message : ConfigError → Text
  | unreadable cause => cause.message
  | notText => "stream did not contain valid UTF-8".toList
  | malformed => "glance.config.json holds no configuration".toList

namespace Config

def fileName : Text := "glance.config.json".toList

def default : Config := ⟨['.'], .default⟩

/-- The levels of nesting that the value of a field may have. -/
def maxDepth : Nat := 126

/-- The options stand beside `scriptsDir` in one object. What is not `scriptsDir` is read in full
before it is looked at, so its strings, numbers and nesting have to be sound. -/
def ofJson? : Json → Option Config
  | .object fields => do
    let others := fields.filter fun f => f.1 ≠ some "scriptsDir".toList
    guard (others.all fun f => Json.isSound maxDepth f.2)
    let [dir] ← Json.objectFields? ["scriptsDir"] fields | none
    let options ← Json.objectFields? EditorOptions.fieldNames fields
    return {
      scriptsDir := ← Json.defaulted? default.scriptsDir Json.text? dir
      editor := ← EditorOptions.ofFields? options }
  | _ => none

def toJson (c : Config) : Json :=
  Json.record (("scriptsDir", Json.text c.scriptsDir) :: c.editor.toFields)

variable {σ : Type} [FileSystem σ]

/-- The configuration that a file holds. -/
def ofBytes (bytes : Bytes) : Except ConfigError Config := do
  let some text := Text.decode? bytes | throw .notText
  let some c := (Json.parse? text).bind ofJson? | throw .malformed
  return c

/-- The configuration of a working directory. -/
def load (working : Path) (fs : σ) : Except ConfigError Config := do
  let file := working.join fileName
  if !FileSystem.has fs file then return default
  ofBytes (← (FileSystem.read fs file).mapError .unreadable)

/-- The directory that new bundles are created in, seen from a working directory. -/
def scriptsPath (c : Config) (working : Path) : Path := working.join c.scriptsDir

end Config

end ImageScript
