import ImageScript.Script.Token

/-!
# Call arguments

The tokens between the parentheses of a call, divided at the commas that stand in no inner
parentheses. An empty call has no argument; otherwise each missing argument is an empty one.
-/

namespace ImageScript

/-- The argument groups of a call, its closing parenthesis and the tokens behind it. -/
structure CallArguments where
  groups : List (List Token)
  close : Token
  rest : List Token
deriving DecidableEq, Repr

namespace CallArguments

/-- What the tokens behind an opening parenthesis hold: the group at their head, the other groups
and the end of the call. -/
structure Tail where
  head : List Token
  others : List (List Token)
  close : Token
  rest : List Token
deriving DecidableEq, Repr

/-- Reads up to the parenthesis that closes the call, inside `depth` further parentheses. -/
def readTail? : Nat → List Token → Option Tail
  | _, [] => none
  | depth, t :: ts =>
    if t.is ")" ∧ depth = 0 then some ⟨[], [], t, ts⟩
    else if t.is "," ∧ depth = 0 then
      (readTail? 0 ts).map fun r => { r with head := [], others := r.head :: r.others }
    else
      let inner := if t.is "(" then depth + 1 else if t.is ")" then depth - 1 else depth
      (readTail? inner ts).map fun r => { r with head := t :: r.head }

/-- Reads the arguments behind an opening parenthesis; `none` when the call is never closed. -/
def read? (ts : List Token) : Option CallArguments :=
  (readTail? 0 ts).map fun r =>
    ⟨if r.head = [] ∧ r.others = [] then [] else r.head :: r.others, r.close, r.rest⟩

theorem readTail?_rest_lt {depth : Nat} {ts : List Token} {r : Tail}
    (h : readTail? depth ts = some r) : r.rest.length < ts.length := by
  induction ts generalizing depth r with
  | nil => simp [readTail?] at h
  | cons t ts ih =>
    simp only [readTail?] at h
    split at h
    · simp only [Option.some.injEq] at h; subst h; simp
    split at h
    all_goals
      obtain ⟨r', hr, rfl⟩ := Option.map_eq_some_iff.1 h
      have := ih hr
      simp only [List.length_cons]; omega

theorem read?_rest_lt {ts : List Token} {a : CallArguments} (h : read? ts = some a) :
    a.rest.length < ts.length := by
  obtain ⟨r, hr, rfl⟩ := Option.map_eq_some_iff.1 h
  exact readTail?_rest_lt hr

end CallArguments

end ImageScript
