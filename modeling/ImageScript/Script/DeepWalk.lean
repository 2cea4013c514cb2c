import ImageScript.Script.Token

/-!
# The deep walk

Image names also count where they are mentioned in a comment or a doc string. `deepTokens` lists
every token of a text and behind each comment and doc string the tokens of its body, at the offsets
of the whole text. It keeps the unfinished texts on a stack; `nestedTokens` is the same walk by
recursion on the bodies.
-/

namespace ImageScript

namespace Token

/-- The body of a token is shorter than the token. -/
theorem body?_length {t : Token} {b : Cursor} (h : t.body? = some b) :
    b.rest.length < t.text.length ∨ t.text = [] := by
  cases hk : t.text with
  | nil => exact Or.inr rfl
  | cons c r =>
    left
    simp only [body?, hk] at h
    split at h
    · simp only [Option.some.injEq] at h; subst h; simp
    · split at h
      · simp only [Option.some.injEq] at h; subst h; simp; omega
      · simp at h
    · simp at h

end Token

namespace DeepWalk

/-- Bounds the tokens that the texts on a stack still hold. -/
def weight : List Cursor → Nat
  | [] => 0
  | p :: stack => 2 * p.rest.length + 1 + weight stack

/-- The texts to read next behind a token: its body, then what stands behind it. -/
def push (t : Token) (q : Cursor) (stack : List Cursor) : List Cursor :=
  match t.body? with
  | some body => body :: q :: stack
  | none => q :: stack

theorem weight_push {p q : Cursor} {t : Token} (h : p.next? = some (t, q)) (stack : List Cursor) :
    weight (push t q stack) < weight (p :: stack) := by
  obtain ⟨h₁, h₂⟩ := Cursor.next?_length h
  have := List.length_pos_iff.2 h₁
  simp only [push]
  split
  · next body hb =>
    rcases Token.body?_length hb with hlt | h0
    · simp only [weight]; omega
    · exact absurd h0 h₁
  · simp only [weight]; omega

/-- The tokens of all texts on a stack, each text with its bodies. -/
def run (stack : List Cursor) : List Token :=
  match stack with
  | [] => []
  | p :: below =>
    match _h : p.next? with
    | none => run below
    | some (t, q) => t :: run (push t q below)
termination_by weight stack
decreasing_by
  · simp [weight]
  · exact weight_push _h below

end DeepWalk

/-- The tokens of a text and of the bodies of its comments and doc strings. -/
def deepTokens (s : Text) : List Token := DeepWalk.run [⟨0, s⟩]

/-- The tokens from a place on, where each body is walked before what stands behind it. -/
def Cursor.nestedTokens (p : Cursor) : List Token :=
  match _h : p.next? with
  | none => []
  | some (t, q) =>
    match _hb : t.body? with
    | none => t :: q.nestedTokens
    | some body => t :: (body.nestedTokens ++ q.nestedTokens)
termination_by p.rest.length
decreasing_by
  · exact Cursor.next?_rest_lt _h
  · obtain ⟨h₁, h₂⟩ := Cursor.next?_length _h
    rcases Token.body?_length _hb with hlt | h0
    · omega
    · exact absurd h0 h₁
  · exact Cursor.next?_rest_lt _h

end ImageScript
