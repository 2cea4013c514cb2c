import ImageScript.Text.Offset

/-!
# Lexemes

Scripts are lexed as in Python: comments run to the end of the line, strings in one quote end at
the line break, strings in three quotes may span lines. A string whose closing quote is missing is
a lexeme too. `Lexeme.read` takes the longest lexeme at the head of a text;
`Lexeme.read_text_append` says that it splits the text and loses nothing.
-/

namespace ImageScript

/-- Whether a quoted lexeme found its closing quote. -/
inductive Termination where
  | closed
  | unclosed
deriving DecidableEq, Repr

inductive LexemeKind where
  | comment
  | docString (termination : Termination)
  | str (termination : Termination)
  | ident
  | number
  /-- Any other single character. -/
  | punct
deriving DecidableEq, Repr

/-- A lexeme and the text behind it. -/
structure Lexeme where
  kind : LexemeKind
  text : Text
  rest : Text

/-- The end of a quoted text: what belongs to it, and what stands behind it. -/
structure Quoted where
  termination : Termination
  text : Text
  rest : Text

namespace Lexeme

def isBlank (c : Char) : Bool :=
  c = ' ' || c = '\t' || c = '\r' || c = '\n' || c = '\x0c'

def isQuote (c : Char) : Bool := c = '"' || c = '\x27'

def isWordStart (c : Char) : Bool := c.isAlpha || c = '_'

def isWord (c : Char) : Bool := c.isAlphanum || c = '_'

/-- Puts a character before a quoted text. -/
def push (c : Char) (q : Quoted) : Quoted := { q with text := c :: q.text }

/-- The part of a text up to a closing quote on the same line. A backslash takes the next
character with it, also a line break; any other line break ends the string without closing it. -/
def readLine (quote : Char) : Text → Quoted
  | [] => ⟨.unclosed, [], []⟩
  | '\\' :: c :: r => push '\\' (push c (readLine quote r))
  | c :: r =>
    if c = '\n' then ⟨.unclosed, [], c :: r⟩
    else if c = quote then ⟨.closed, [c], r⟩
    else push c (readLine quote r)

/-- The part of a text up to three closing quotes. -/
def readBlock (quote : Char) : Text → Quoted
  | [] => ⟨.unclosed, [], []⟩
  | '\\' :: c :: r => push '\\' (push c (readBlock quote r))
  | c :: r =>
    if c = quote ∧ [quote, quote].isPrefixOf r then ⟨.closed, [c, quote, quote], r.drop 2⟩
    else push c (readBlock quote r)

/-- A lexeme of characters that satisfy a test, behind those already taken. -/
def readWhile (kind : LexemeKind) (taken : Text) (p : Char → Bool) (r : Text) : Lexeme :=
  ⟨kind, taken ++ r.takeWhile p, r.dropWhile p⟩

/-- A number behind its first digit: more digits, and a point with the digits behind it. -/
def readNumber (c : Char) (r : Text) : Lexeme :=
  let whole := readWhile .number [c] Char.isDigit r
  match whole.rest with
  | '.' :: f => readWhile .number (whole.text ++ ['.']) Char.isDigit f
  | _ => whole

/-- The longest lexeme at the head of the text `c :: r`, whose first character is no blank. -/
def read (c : Char) (r : Text) : Lexeme :=
  if c = '#' then readWhile .comment [c] (· ≠ '\n') r
  else if isQuote c then
    if [c, c].isPrefixOf r then
      let q := readBlock c (r.drop 2)
      ⟨.docString q.termination, c :: c :: c :: q.text, q.rest⟩
    else
      let q := readLine c r
      ⟨.str q.termination, c :: q.text, q.rest⟩
  else if isWordStart c then readWhile .ident [c] isWord r
  else if c.isDigit then readNumber c r
  else if c = '.' ∧ (r.head?.any Char.isDigit) then readWhile .number [c] Char.isDigit r
  else ⟨.punct, [c], r⟩

theorem readLine_append (quote : Char) (s : Text) :
    (readLine quote s).text ++ (readLine quote s).rest = s := by
  fun_induction readLine quote s with
  | case1 => rfl
  | case2 c r ih => simpa [push] using ih
  | case3 => rfl
  | case4 => rfl
  | case5 c r _ _ _ ih => simpa [push] using ih

theorem append_drop_of_isPrefixOf {a s : Text} (h : a.isPrefixOf s) : a ++ s.drop a.length = s := by
  obtain ⟨b, rfl⟩ := List.isPrefixOf_iff_prefix.1 h
  simp

theorem readBlock_append (quote : Char) (s : Text) :
    (readBlock quote s).text ++ (readBlock quote s).rest = s := by
  fun_induction readBlock quote s with
  | case1 => rfl
  | case2 c r ih => simpa [push] using ih
  | case3 c r _ h => simpa using append_drop_of_isPrefixOf h.2
  | case4 c r _ _ ih => simpa [push] using ih

theorem readWhile_append (kind : LexemeKind) (taken : Text) (p : Char → Bool) (r : Text) :
    (readWhile kind taken p r).text ++ (readWhile kind taken p r).rest = taken ++ r := by
  simp [readWhile]

theorem readNumber_append (c : Char) (r : Text) :
    (readNumber c r).text ++ (readNumber c r).rest = c :: r := by
  have h := readWhile_append .number [c] Char.isDigit r
  simp only [readNumber]
  split
  · next f hf => rw [readWhile_append]; simpa [hf] using h
  · simpa using h

/-- A lexeme and the text behind it make up the text. -/
theorem read_text_append (c : Char) (r : Text) : (read c r).text ++ (read c r).rest = c :: r := by
  simp only [read]
  split
  · exact readWhile_append ..
  split
  · split
    · next h =>
      have := append_drop_of_isPrefixOf h
      simpa [readBlock_append] using this
    · simp [readLine_append]
  split
  · exact readWhile_append ..
  split
  · exact readNumber_append c r
  split
  · exact readWhile_append ..
  · rfl

theorem read_text_ne_nil (c : Char) (r : Text) : (read c r).text ≠ [] := by
  simp only [read, readNumber]
  repeat' split
  all_goals simp [readWhile]

end Lexeme

end ImageScript
