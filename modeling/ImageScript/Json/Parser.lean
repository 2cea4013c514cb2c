import ImageScript.Json.Basic

/-!
# Reading JSON

`Json.parse?` reads exactly one value with blanks around it. Every function returns what stands
behind the part it read.
-/

namespace ImageScript.Json

def isBlank (c : Char) : Bool := c = ' ' || c = '\t' || c = '\n' || c = '\r'

def skipBlanks (s : Text) : Text := s.dropWhile isBlank

/-- The value of a hexadecimal digit. -/
def hexDigit? (c : Char) : Option Nat :=
  if c.isDigit then some (c.toNat - 48)
  else if 'a' ≤ c ∧ c ≤ 'f' then some (c.toNat - 87)
  else if 'A' ≤ c ∧ c ≤ 'F' then some (c.toNat - 55)
  else none

def hex4? (a b c d : Char) : Option Nat := do
  let a ← hexDigit? a
  let b ← hexDigit? b
  let c ← hexDigit? c
  let d ← hexDigit? d
  return ((a * 16 + b) * 16 + c) * 16 + d

/-- The character a one-letter escape stands for. -/
def escaped? : Char → Option Char
  | '"' => some '"'
  | '\\' => some '\\'
  | '/' => some '/'
  | 'b' => some '\x08'
  | 'f' => some '\x0c'
  | 'n' => some '\n'
  | 'r' => some '\r'
  | 't' => some '\t'
  | _ => none

/-- The code points and surrogates of a string behind its opening quote. -/
def readUnits? : Text → Option (List Nat × Text)
  | [] => none
  | '"' :: r => some ([], r)
  | '\\' :: 'u' :: a :: b :: c :: d :: r =>
    match hex4? a b c d, readUnits? r with
    | some n, some (units, rest) => some (n :: units, rest)
    | _, _ => none
  | '\\' :: c :: r =>
    match escaped? c, readUnits? r with
    | some e, some (units, rest) => some (e.toNat :: units, rest)
    | _, _ => none
  | c :: r =>
    if c.toNat < 0x20 then none
    else (readUnits? r).map fun (units, rest) => (c.toNat :: units, rest)

/-- Joins surrogate pairs; `none` where a surrogate has no partner. -/
def joinUnits? : List Nat → Option Text
  | [] => some []
  | hi :: lo :: r =>
    if 0xD800 ≤ hi ∧ hi < 0xDC00 then
      if 0xDC00 ≤ lo ∧ lo < 0xE000 then
        (joinUnits? r).map (Char.ofNat (0x10000 + (hi - 0xD800) * 0x400 + (lo - 0xDC00)) :: ·)
      else none
    else if 0xDC00 ≤ hi ∧ hi < 0xE000 then none
    else (joinUnits? (lo :: r)).map (Char.ofNat hi :: ·)
  | [n] => if 0xD800 ≤ n ∧ n < 0xE000 then none else some [Char.ofNat n]

/-- The content of a string behind its opening quote. -/
def readString? (s : Text) : Option (Option Text × Text) :=
  (readUnits? s).map fun (units, rest) => (joinUnits? units, rest)

/-- One or more digits. -/
def readDigits? (s : Text) : Option (Text × Text) :=
  match s.takeWhile Char.isDigit with
  | [] => none
  | ds => some (ds, s.dropWhile Char.isDigit)

/-- The whole part of a number: zero alone, or digits that begin with another digit. -/
def readWhole? : Text → Option (Text × Text)
  | '0' :: r => if r.head?.any Char.isDigit then none else some (['0'], r)
  | s => readDigits? s

/-- The fraction of a number, which may be missing. -/
def readFraction? : Text → Option (Text × Text)
  | '.' :: r => (readDigits? r).map fun (ds, rest) => ('.' :: ds, rest)
  | s => some ([], s)

/-- The exponent of a number, which may be missing. -/
def readExponent? : Text → Option (Text × Text)
  | [] => some ([], [])
  | c :: r =>
    if c = 'e' ∨ c = 'E' then
      match r with
      | '+' :: r => (readDigits? r).map fun (ds, rest) => (c :: '+' :: ds, rest)
      | '-' :: r => (readDigits? r).map fun (ds, rest) => (c :: '-' :: ds, rest)
      | r => (readDigits? r).map fun (ds, rest) => (c :: ds, rest)
    else some ([], c :: r)

/-- The text of a number. -/
def readNumber? (s : Text) : Option (Text × Text) := do
  let (minus, s) := match s with
    | '-' :: r => (['-'], r)
    | r => ([], r)
  let (whole, s) ← readWhole? s
  let (fraction, s) ← readFraction? s
  let (exponent, s) ← readExponent? s
  return (minus ++ whole ++ fraction ++ exponent, s)

/-- What stands behind a fixed word. -/
def readWord? (w : String) (s : Text) : Option Text :=
  if w.toList.isPrefixOf s then some (s.drop w.length) else none

mutual

/-- Reads a value. The first argument bounds the steps; twice the length of the text is enough. -/
def readValue? : Nat → Text → Option (Json × Text)
  | 0, _ => none
  | n + 1, s =>
    match skipBlanks s with
    | [] => none
    | '"' :: r => (readString? r).map fun (content, rest) => (.string content, rest)
    | '[' :: r =>
      match skipBlanks r with
      | ']' :: r => some (.array [], r)
      | r => (readItems? n r).map fun (items, rest) => (.array items, rest)
    | '\x7b' :: r =>
      match skipBlanks r with
      | '\x7d' :: r => some (.object [], r)
      | r => (readFields? n r).map fun (fields, rest) => (.object fields, rest)
    | c :: r =>
      if c = 'n' then (readWord? "ull" r).map fun rest => (.null, rest)
      else if c = 't' then (readWord? "rue" r).map fun rest => (.bool true, rest)
      else if c = 'f' then (readWord? "alse" r).map fun rest => (.bool false, rest)
      else (readNumber? (c :: r)).map fun (text, rest) => (.number text, rest)

/-- Reads the items of an array up to its closing bracket. -/
def readItems? : Nat → Text → Option (List Json × Text)
  | 0, _ => none
  | n + 1, s =>
    match readValue? n s with
    | none => none
    | some (item, r) =>
      match skipBlanks r with
      | ',' :: r => (readItems? n r).map fun (items, rest) => (item :: items, rest)
      | ']' :: r => some ([item], r)
      | _ => none

/-- Reads the fields of an object up to its closing brace. -/
def readFields? : Nat → Text → Option (List (Option Text × Json) × Text)
  | 0, _ => none
  | n + 1, s =>
    match skipBlanks s with
    | '"' :: r =>
      match readString? r with
      | none => none
      | some (name, r) =>
        match skipBlanks r with
        | ':' :: r =>
          match readValue? n r with
          | none => none
          | some (value, r) =>
            match skipBlanks r with
            | ',' :: r =>
              (readFields? n r).map fun (fields, rest) => ((name, value) :: fields, rest)
            | '\x7d' :: r => some ([(name, value)], r)
            | _ => none
        | _ => none
    | _ => none

end

/-- The one value a text holds. -/
def parse? (s : Text) : Option Json :=
  match readValue? (2 * s.length + 2) s with
  | some (value, rest) => if skipBlanks rest = [] then some value else none
  | none => none

end ImageScript.Json
