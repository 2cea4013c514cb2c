import ImageScript.Json.Basic
import ImageScript.Decimal.Shortest
import ImageScript.Text.Digits

/-!
# Writing JSON

Values are written without blanks or on indented lines. Only quotes, backslashes and control
characters are escaped. Doubles take the fewest digits that read back, with an exponent from 10^16
on and below 10^-5.
-/

namespace ImageScript.Json

/-- One character within a string. -/
def escapeChar (c : Char) : Text :=
  if c = '"' then ['\\', '"']
  else if c = '\\' then ['\\', '\\']
  else if c = '\n' then ['\\', 'n']
  else if c = '\r' then ['\\', 'r']
  else if c = '\t' then ['\\', 't']
  else if c = '\x08' then ['\\', 'b']
  else if c = '\x0c' then ['\\', 'f']
  else if c.toNat < 0x20 then '\\' :: 'u' :: Text.hex 4 c.toNat
  else [c]

/-- A string in quotes. -/
def quote (s : Text) : Text := '"' :: s.flatMap escapeChar ++ ['"']

/-- Digits are positional from 10^-5 to 10^16, a large exponent has its plus sign, and a whole
double keeps a zero behind its point. -/
def numberStyle : Decimal.Style := ⟨.even, some (-4), some 16, ['+'], ".0".toList⟩

def ofNat (n : Nat) : Json := .number (Text.ofNat n)

def ofInt (n : Int) : Json := .number (Text.ofInt n)

/-- A double; what is no number is written as `null`. -/
def ofFloat (x : Float) : Json :=
  match Decimal.read x with
  | .finite .. => .number (numberStyle.write x)
  | _ => .null

/-- Parts with commas between them. -/
def commaSeparated : List Text → Text
  | [] => []
  | [a] => a
  | a :: r => a ++ ',' :: commaSeparated r

mutual

/-- A value without blanks. -/
def compact : Json → Text
  | .null => "null".toList
  | .bool b => if b then "true".toList else "false".toList
  | .number t => t
  | .string s => quote (s.getD [])
  | .array items => '[' :: commaSeparated (compactItems items) ++ [']']
  | .object fields => '\x7b' :: commaSeparated (compactFields fields) ++ ['\x7d']

def compactItems : List Json → List Text
  | [] => []
  | item :: r => compact item :: compactItems r

def compactFields : List (Option Text × Json) → List Text
  | [] => []
  | (name, value) :: r => (quote (name.getD []) ++ ':' :: compact value) :: compactFields r

end

/-- A new line at a depth of indentation. -/
def newLine (depth : Nat) : Text := '\n' :: List.replicate (2 * depth) ' '

/-- Parts on lines of their own between two brackets. -/
def block (opening closing : Char) (depth : Nat) (parts : List Text) : Text :=
  match parts with
  | [] => [opening, closing]
  | _ =>
    opening :: commaSeparated (parts.map (newLine (depth + 1) ++ ·)) ++ newLine depth ++ [closing]

mutual

/-- A value on indented lines. -/
def prettyAt (depth : Nat) : Json → Text
  | .null => "null".toList
  | .bool b => if b then "true".toList else "false".toList
  | .number t => t
  | .string s => quote (s.getD [])
  | .array items => block '[' ']' depth (prettyItems (depth + 1) items)
  | .object fields => block '\x7b' '\x7d' depth (prettyFields (depth + 1) fields)

def prettyItems (depth : Nat) : List Json → List Text
  | [] => []
  | item :: r => prettyAt depth item :: prettyItems depth r

def prettyFields (depth : Nat) : List (Option Text × Json) → List Text
  | [] => []
  | (name, value) :: r =>
    (quote (name.getD []) ++ ':' :: ' ' :: prettyAt depth value) :: prettyFields depth r

end

def pretty (v : Json) : Text := prettyAt 0 v

end ImageScript.Json
