import ImageScript.Json.Decoder
import ImageScript.Json.Printer
import ImageScript.Widget.Segment

/-!
# Widgets in JSON

The JSON form of literals, widgets and segments. Records are objects with every field, and variants
are tagged by their names. Values are decoded as they are, without rounding.
-/

namespace ImageScript

namespace Codec

def int32 (n : Int32) : Json := Json.ofInt n.toInt

def uint64 (n : UInt64) : Json := Json.ofNat n.toNat

def offset (p : Int32 × Int32) : Json := .array [int32 p.1, int32 p.2]

def offset? : Json → Option (Int32 × Int32) := Json.pair? Json.int32? Json.int32?

def path (p : Path) : Json := Json.text p.text

def path? (v : Json) : Option Path := (Json.text? v).map Path.mk

end Codec

namespace Mask

def toJson : Mask → Json
  | transparent => Json.word "Transparent"
  | image name => Json.tagged "Image" (Json.text name)

def ofJson? (v : Json) : Option Mask := do
  match ← Json.tagged? v with
  | (tag, payload) =>
    if tag = "Transparent".toList then
      match payload with
      | none | some .null => some transparent
      | some _ => none
    else if tag = "Image".toList then (payload.bind Json.text?).map image
    else none

end Mask

namespace PatternLiteral

def fieldNames : List String :=
  ["image", "similarity", "exact", "target_offset", "resize", "mask"]

def toJson (p : PatternLiteral) : Json :=
  Json.record [
    ("image", Json.text p.image), ("similarity", Json.option Json.ofFloat p.similarity),
    ("exact", .bool p.exact), ("target_offset", Json.option Codec.offset p.targetOffset),
    ("resize", Json.option Json.ofFloat p.resize), ("mask", Json.option Mask.toJson p.mask)]

def ofJson? (v : Json) : Option PatternLiteral := do
  match ← Json.fields? fieldNames v with
  | [image, similarity, exact, targetOffset, resize, mask] =>
    return {
      image := ← Json.required? Json.text? image
      similarity := ← Json.optional? Json.float? similarity
      exact := ← Json.required? Json.bool? exact
      targetOffset := ← Json.optional? Codec.offset? targetOffset
      resize := ← Json.optional? Json.float? resize
      mask := ← Json.optional? Mask.ofJson? mask }
  | _ => none

end PatternLiteral

namespace RegionLiteral

def ofJson? (v : Json) : Option RegionLiteral := do
  match ← Json.fields? ["x", "y", "w", "h", "as_offset"] v with
  | [x, y, w, h, asOffset] =>
    return {
      x := ← Json.required? Json.int32? x
      y := ← Json.required? Json.int32? y
      w := ← Json.required? Json.int32? w
      h := ← Json.required? Json.int32? h
      asOffset := ← Json.required? Json.bool? asOffset }
  | _ => none

end RegionLiteral

namespace SourceKind

def names : List (String × SourceKind) := [("Capture", capture), ("File", file)]

def name : SourceKind → String
  | capture => "Capture"
  | file => "File"

end SourceKind

namespace PatternState

def names : List (String × PatternState) :=
  [("Ready", ready), ("PendingCapture", pendingCapture), ("NotFound", notFound)]

def name : PatternState → String
  | ready => "Ready"
  | pendingCapture => "PendingCapture"
  | notFound => "NotFound"

end PatternState

namespace Pattern

def fieldNames : List String :=
  ["id", "image_name", "resolved_path", "similarity", "target_offset", "resize_factor", "mask",
    "source_kind", "match_limit", "state"]

def toJson (p : Pattern) : Json :=
  Json.record [
    ("id", Json.text p.id), ("image_name", Json.text p.imageName),
    ("resolved_path", Json.option Codec.path p.resolvedPath),
    ("similarity", Json.ofFloat p.similarity), ("target_offset", Codec.offset p.targetOffset),
    ("resize_factor", Json.option Json.ofFloat p.resizeFactor),
    ("mask", Json.option Mask.toJson p.mask), ("source_kind", Json.word p.source.name),
    ("match_limit", Codec.uint64 p.matchLimit), ("state", Json.word p.state.name)]

def ofJson? (v : Json) : Option Pattern := do
  match ← Json.fields? fieldNames v with
  | [id, imageName, resolvedPath, similarity, targetOffset, resizeFactor, mask, source, matchLimit,
      state] =>
    return {
      id := ← Json.required? Json.text? id
      imageName := ← Json.required? Json.text? imageName
      resolvedPath := ← Json.optional? Codec.path? resolvedPath
      similarity := ← Json.required? Json.float? similarity
      targetOffset := ← Json.required? Codec.offset? targetOffset
      resizeFactor := ← Json.optional? Json.float? resizeFactor
      mask := ← Json.optional? Mask.ofJson? mask
      source := ← Json.required? (Json.enum? SourceKind.names) source
      matchLimit := ← Json.required? Json.uint64? matchLimit
      state := ← Json.required? (Json.enum? PatternState.names) state }
  | _ => none

end Pattern

namespace Region

def toJson (r : Region) : Json :=
  Json.record [
    ("id", Json.text r.id), ("x", Codec.int32 r.x), ("y", Codec.int32 r.y),
    ("w", Codec.int32 r.w), ("h", Codec.int32 r.h), ("as_offset", .bool r.asOffset)]

def ofJson? (v : Json) : Option Region := do
  match ← Json.fields? ["id", "x", "y", "w", "h", "as_offset"] v with
  | [id, x, y, w, h, asOffset] =>
    return {
      id := ← Json.required? Json.text? id
      x := ← Json.required? Json.int32? x
      y := ← Json.required? Json.int32? y
      w := ← Json.required? Json.int32? w
      h := ← Json.required? Json.int32? h
      asOffset := ← Json.required? Json.bool? asOffset }
  | _ => none

end Region

namespace Segment

def toJson : Segment → Json
  | text s => Json.tagged "Text" (Json.text s)
  | pattern p => Json.tagged "Pattern" p.toJson
  | region r => Json.tagged "Region" r.toJson

def ofJson? (v : Json) : Option Segment := do
  let (tag, payload) ← Json.tagged? v
  let value ← payload
  if tag = "Text".toList then (Json.text? value).map text
  else if tag = "Pattern".toList then (Pattern.ofJson? value).map pattern
  else if tag = "Region".toList then (Region.ofJson? value).map region
  else none

end Segment

end ImageScript
