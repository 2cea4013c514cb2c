import ImageScript.Json.Number

/-!
# Decoding JSON

Records may be objects, where unknown fields are skipped and no field may stand twice, or arrays of
their fields in order. Tagged values are objects with one field, or just the tag where the tag
carries nothing.
-/

namespace ImageScript.Json

def bool? : Json → Option Bool
  | .bool b => some b
  | _ => none

def text? : Json → Option Text
  | .string s => s
  | _ => none

def int32? (v : Json) : Option Int32 := (int? (-0x80000000) 0x7fffffff v).map Int32.ofInt

def nat64? (v : Json) : Option Nat := (int? 0 0xffffffffffffffff v).map Int.toNat

def uint64? (v : Json) : Option UInt64 := (nat64? v).map Nat.toUInt64

mutual

/-- Whether all strings are texts, all numbers have a value, and at most `depth` arrays and objects
are nested. -/
def isSound : Nat → Json → Bool
  | _, .null | _, .bool _ => true
  | _, .number t => (Number.ofText? t).isSome
  | _, .string s => s.isSome
  | 0, .array _ | 0, .object _ => false
  | depth + 1, .array items => areSound depth items
  | depth + 1, .object fields => fieldsSound depth fields

def areSound (depth : Nat) : List Json → Bool
  | [] => true
  | item :: r => isSound depth item && areSound depth r

def fieldsSound (depth : Nat) : List (Option Text × Json) → Bool
  | [] => true
  | (name, value) :: r => name.isSome && isSound depth value && fieldsSound depth r

end

/-- The items of an array. -/
def list? {α : Type} (decode : Json → Option α) : Json → Option (List α)
  | .array items => items.mapM decode
  | _ => none

/-- An array of two items. -/
def pair? {α β : Type} (first : Json → Option α) (second : Json → Option β) :
    Json → Option (α × β)
  | .array [a, b] => do return (← first a, ← second b)
  | _ => none

/-- A value that may be `null`. -/
def nullable? {α : Type} (decode : Json → Option α) : Json → Option (Option α)
  | .null => some none
  | v => (decode v).map some

/-- The values of the fields of a name. -/
def valuesOf (name : String) (fields : List (Option Text × Json)) : List Json :=
  fields.filterMap fun (n, v) => if n = some name.toList then some v else none

/-- The value of one named field of an object: present, missing, or `none` where it stands twice. -/
def single? (fields : List (Option Text × Json)) (name : String) : Option (Option Json) :=
  match valuesOf name fields with
  | [] => some none
  | [v] => some (some v)
  | _ => none

/-- The named fields of an object. Names that are no text are refused, and so are fields that stand
twice. -/
def objectFields? (names : List String) (fields : List (Option Text × Json)) :
    Option (List (Option Json)) :=
  if fields.any fun f => f.1.isNone then none else names.mapM (single? fields)

/-- The fields of a record; an array must hold them all. -/
def fields? (names : List String) : Json → Option (List (Option Json))
  | .object fields => objectFields? names fields
  | .array items => if items.length = names.length then some (items.map some) else none
  | _ => none

/-- The fields of a record all of which have defaults; an array may end early. -/
def optionalFields? (names : List String) : Json → Option (List (Option Json))
  | .object fields => objectFields? names fields
  | .array items =>
    if items.length ≤ names.length then
      some (items.map some ++ List.replicate (names.length - items.length) none)
    else none
  | _ => none

/-- A field that must be there. -/
def required? {α : Type} (decode : Json → Option α) (field : Option Json) : Option α :=
  field.bind decode

/-- A field that may be missing or `null`. -/
def optional? {α : Type} (decode : Json → Option α) : Option Json → Option (Option α)
  | none => some none
  | some v => nullable? decode v

/-- A field with a default where it is missing. -/
def defaulted? {α : Type} (value : α) (decode : Json → Option α) : Option Json → Option α
  | none => some value
  | some v => decode v

/-- The tag of a tagged value and what it carries; a tag alone carries `none`. -/
def tagged? : Json → Option (Text × Option Json)
  | .string (some tag) => some (tag, none)
  | .object [(some tag, v)] => some (tag, some v)
  | _ => none

/-- One of some tags that carry nothing, alone or with `null`. -/
def enum? {α : Type} (values : List (String × α)) (v : Json) : Option α :=
  (tagged? v).bind fun (tag, payload) =>
    match payload with
    | none | some .null => (values.find? fun p => p.1.toList = tag).map Prod.snd
    | some _ => none

end ImageScript.Json
