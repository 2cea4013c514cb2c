import ImageScript.Script.Lexeme
import ImageScript.Text.Digits

/-!
# Tokens

A token is a lexeme with its byte offset, sorted by what a reader of scripts needs to know of it.
Reading may begin at any place of a larger text, whose offset is then counted in.
-/

namespace ImageScript

inductive TokenKind where
  | comment
  | string
  | docString
  | other
  /-- A string of either sort whose closing quote is missing. -/
  | unterminated
deriving DecidableEq, Repr

structure Token where
  kind : TokenKind
  text : Text
  /-- The byte offset of the first character. -/
  offset : Nat
deriving DecidableEq, Repr

/-- A place in a text: what is left to read and its offset. -/
structure Cursor where
  offset : Nat
  rest : Text

namespace TokenKind

def ofLexeme : LexemeKind → TokenKind
  | .comment => .comment
  | .str .closed => .string
  | .docString .closed => .docString
  | .str .unclosed | .docString .unclosed => .unterminated
  | .ident | .number | .punct => .other

end TokenKind

namespace Token

/-- The offset behind the last character. -/
def stop (t : Token) : Nat := t.offset + Text.byteLen t.text

/-- Whether a token is the given word or sign. -/
def is (t : Token) (text : String) : Bool := t.kind = .other && t.text = text.toList

/-- The content of a closed string without its quotes. -/
def content? (t : Token) : Option Text :=
  if t.kind = .string ∧ 2 ≤ t.text.length then some (t.text.drop 1).dropLast else none

def isDoubleQuoted (t : Token) : Bool := t.kind = .string && t.text.head? = some '"'

/-- The text inside a comment or a doc string, as a place of its own. -/
def body? (t : Token) : Option Cursor :=
  match t.kind with
  | .comment => some ⟨t.offset + 1, t.text.drop 1⟩
  | .docString =>
    if 6 ≤ t.text.length then some ⟨t.offset + 3, (t.text.drop 3).dropLast.dropLast.dropLast⟩
    else none
  | _ => none

/-- How a message names a token. -/
def describe (t : Token) : Text :=
  let place := " at ".toList ++ Text.ofNat t.offset
  match t.kind with
  | .comment => "comment".toList ++ place
  | .string => "string ".toList ++ t.text ++ place
  | .docString => "doc string".toList ++ place
  | .other => '\x27' :: t.text ++ '\x27' :: place
  | .unterminated => "unterminated string".toList ++ place

end Token

namespace Cursor

/-- The first lexeme at or behind a place, and its offset. -/
def nextLexeme? (offset : Nat) : Text → Option (Nat × Lexeme)
  | [] => none
  | c :: r =>
    if Lexeme.isBlank c then nextLexeme? (offset + c.utf8Size) r
    else some (offset, Lexeme.read c r)

theorem nextLexeme?_length {offset : Nat} {s : Text} {o : Nat} {l : Lexeme}
    (h : nextLexeme? offset s = some (o, l)) :
    l.text ≠ [] ∧ l.text.length + l.rest.length ≤ s.length := by
  induction s generalizing offset with
  | nil => simp [nextLexeme?] at h
  | cons c r ih =>
    simp only [nextLexeme?] at h
    split at h
    · obtain ⟨h₁, h₂⟩ := ih h
      exact ⟨h₁, by simp only [List.length_cons]; omega⟩
    · simp only [Option.some.injEq, Prod.mk.injEq] at h
      obtain ⟨rfl, rfl⟩ := h
      refine ⟨Lexeme.read_text_ne_nil c r, ?_⟩
      exact Nat.le_of_eq (by rw [← List.length_append, Lexeme.read_text_append, List.length_cons])

/-- The lexemes from a place on with their offsets. -/
def lexemes (offset : Nat) (s : Text) : List (Nat × Lexeme) :=
  match _h : nextLexeme? offset s with
  | none => []
  | some (o, l) => (o, l) :: lexemes (o + Text.byteLen l.text) l.rest
termination_by s.length
decreasing_by
  obtain ⟨h₁, h₂⟩ := nextLexeme?_length _h
  have := List.length_pos_iff.2 h₁
  omega

/-- The first token at or behind a place, and the place behind it. -/
def next? (p : Cursor) : Option (Token × Cursor) :=
  (nextLexeme? p.offset p.rest).map fun (offset, l) =>
    let t : Token := ⟨.ofLexeme l.kind, l.text, offset⟩
    (t, ⟨t.stop, l.rest⟩)

/-- A token is not empty, and it and what stands behind it were there to read. -/
theorem next?_length {p q : Cursor} {t : Token} (h : p.next? = some (t, q)) :
    t.text ≠ [] ∧ t.text.length + q.rest.length ≤ p.rest.length := by
  obtain ⟨⟨o, l⟩, hl, hq⟩ := Option.map_eq_some_iff.1 h
  simp only [Prod.mk.injEq] at hq
  obtain ⟨rfl, rfl⟩ := hq
  exact nextLexeme?_length hl

theorem next?_rest_lt {p q : Cursor} {t : Token} (h : p.next? = some (t, q)) :
    q.rest.length < p.rest.length := by
  obtain ⟨h₁, h₂⟩ := next?_length h
  have := List.length_pos_iff.2 h₁
  omega

/-- The tokens from a place on. -/
def tokens (p : Cursor) : List Token :=
  match _h : p.next? with
  | none => []
  | some (t, q) => t :: q.tokens
termination_by p.rest.length
decreasing_by exact next?_rest_lt _h

end Cursor

/-- The tokens of a whole text. -/
def tokenize (s : Text) : List Token := Cursor.tokens ⟨0, s⟩

end ImageScript
