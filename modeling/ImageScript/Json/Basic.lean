import ImageScript.Text.Offset

/-!
# JSON values

A value keeps what a text says: numbers as they are written, fields in order with any repetitions,
and the fact that a string names half of a surrogate pair. What a reader makes of that is its own
decision.
-/

namespace ImageScript

/-- A JSON value as written. A string is `none` where an escape names half of a surrogate pair. -/
inductive Json where
  | null
  | bool (value : Bool)
  | number (text : Text)
  | string (content : Option Text)
  | array (items : List Json)
  | object (fields : List (Option Text × Json))

namespace Json

/-- A string value. -/
def text (s : Text) : Json := .string (some s)

/-- A string value for a fixed word. -/
def word (s : String) : Json := text s.toList

/-- An object with fixed field names. -/
def record (fields : List (String × Json)) : Json :=
  .object (fields.map fun (name, value) => (some name.toList, value))

/-- An object with one field, as a tagged value is written. -/
def tagged (tag : String) (value : Json) : Json := record [(tag, value)]

/-- An optional value, with `null` for none. -/
def option {α : Type} (f : α → Json) : Option α → Json
  | none => .null
  | some a => f a

end Json

end ImageScript
