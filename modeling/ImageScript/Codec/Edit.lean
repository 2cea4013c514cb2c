import ImageScript.Codec.Widget
import ImageScript.Edit.Clipboard
import ImageScript.Edit.Mutation
import ImageScript.Edit.Options

/-!
# Edits in JSON

The JSON form of mutations, of the clipboard as windows exchange it, and of the options.
-/

namespace ImageScript

namespace Mutation

def toJson : Mutation → Json
  | insertText pos text =>
    Json.tagged "InsertText" (Json.record [("pos", Json.ofNat pos), ("text", Json.text text)])
  | removeRange start stop =>
    Json.tagged "RemoveRange"
      (Json.record [("start", Json.ofNat start), ("end", Json.ofNat stop)])
  | insertSegments pos segments =>
    Json.tagged "InsertSegments"
      (Json.record [("pos", Json.ofNat pos), ("segments", .array (segments.map Segment.toJson))])
  | updatePattern id p =>
    Json.tagged "UpdatePattern" (Json.record [("id", Json.text id), ("pattern", p.toJson)])
  | replacePattern id p =>
    Json.tagged "ReplacePattern" (Json.record [("id", Json.text id), ("pattern", p.toJson)])
  | updateRegion id r =>
    Json.tagged "UpdateRegion" (Json.record [("id", Json.text id), ("region", r.toJson)])

/-- A record of two fields. -/
def two? {α β : Type} (first second : String) (a? : Json → Option α) (b? : Json → Option β)
    (v : Json) : Option (α × β) := do
  match ← Json.fields? [first, second] v with
  | [a, b] => return (← Json.required? a? a, ← Json.required? b? b)
  | _ => none

def ofJson? (v : Json) : Option Mutation := do
  let (tag, payload) ← Json.tagged? v
  let value ← payload
  match String.ofList tag with
  | "InsertText" =>
    (two? "pos" "text" Json.nat64? Json.text? value).map fun (pos, text) => insertText pos text
  | "RemoveRange" =>
    (two? "start" "end" Json.nat64? Json.nat64? value).map fun (a, b) => removeRange a b
  | "InsertSegments" =>
    (two? "pos" "segments" Json.nat64? (Json.list? Segment.ofJson?) value).map
      fun (pos, segments) => insertSegments pos segments
  | "UpdatePattern" =>
    (two? "id" "pattern" Json.text? Pattern.ofJson? value).map fun (id, p) => updatePattern id p
  | "ReplacePattern" =>
    (two? "id" "pattern" Json.text? Pattern.ofJson? value).map fun (id, p) => replacePattern id p
  | "UpdateRegion" =>
    (two? "id" "region" Json.text? Region.ofJson? value).map fun (id, r) => updateRegion id r
  | _ => none

end Mutation

namespace ClipboardPayload

def toJson (p : ClipboardPayload) : Json :=
  Json.record [
    ("text", Json.text p.text),
    ("images", .object (p.images.toList.map fun (name, path) => (some name, Codec.path path)))]

/-- The name and the file of an image. -/
def image? (field : Option Text × Json) : Option (Text × Path) := do
  return (← field.1, ← Codec.path? field.2)

/-- The files of the images by name; of two files for a name the last counts. -/
def images? : Json → Option (Std.TreeMap Text Path)
  | .object fields =>
    (fields.mapM image?).map (Std.TreeMap.ofList ·)
  | _ => none

def ofJson? (v : Json) : Option ClipboardPayload :=
  (Mutation.two? "text" "images" Json.text? images? v).map fun (text, images) => ⟨text, images⟩

end ClipboardPayload

namespace EditorOptions

def fieldNames : List String :=
  ["showThumbs", "plainText", "cleanBundleOnSave", "matchLimit", "captureDelayMs"]

/-- The fields of the options as an object holds them. -/
def toFields (o : EditorOptions) : List (String × Json) := [
  ("showThumbs", .bool o.showThumbs), ("plainText", .bool o.plainText),
  ("cleanBundleOnSave", .bool o.cleanBundleOnSave), ("matchLimit", Codec.uint64 o.matchLimit),
  ("captureDelayMs", Codec.uint64 o.captureDelayMs)]

def toJson (o : EditorOptions) : Json := Json.record o.toFields

/-- The options from their fields, each with a default. -/
def ofFields? : List (Option Json) → Option EditorOptions
  | [showThumbs, plainText, cleanBundleOnSave, matchLimit, captureDelayMs] => do
    return {
      showThumbs := ← Json.defaulted? default.showThumbs Json.bool? showThumbs
      plainText := ← Json.defaulted? default.plainText Json.bool? plainText
      cleanBundleOnSave := ← Json.defaulted? default.cleanBundleOnSave Json.bool? cleanBundleOnSave
      matchLimit := ← Json.defaulted? default.matchLimit Json.uint64? matchLimit
      captureDelayMs := ← Json.defaulted? default.captureDelayMs Json.uint64? captureDelayMs }
  | _ => none

def ofJson? (v : Json) : Option EditorOptions := do
  ofFields? (← Json.optionalFields? fieldNames v)

end EditorOptions

end ImageScript
