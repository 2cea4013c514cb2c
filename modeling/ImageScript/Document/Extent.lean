import ImageScript.Script.Token
import ImageScript.Text.Lines

/-!
# The extent of a change

How much of a text has to be read again when a part of it changed: whole lines, whole tokens, and
the lines before and after where a literal may go on over the line break. `Extent.widen` takes
steps until none of these reaches further.
-/

namespace ImageScript

/-- A range of bytes. -/
structure Extent where
  start : Nat
  stop : Nat
deriving DecidableEq, Repr

namespace Extent

/-- Whether a literal may go on in the line behind a token. -/
def leavesOpen (t : Token) : Bool :=
  t.is "." || t.is "(" || t.is "," || t.is "Pattern" || t.is "Region"

/-- Whether a token may continue a literal of the line before. -/
def continues (t : Token) : Bool :=
  t.is "." || t.is "(" || t.is ")" || t.is ","

/-- The last of the tokens at the head of a list that satisfy a test. -/
def lastWhile? (p : Token → Bool) (ts : List Token) : Option Token :=
  (ts.takeWhile p).getLast?

/-- Takes in the lines of a token that lies across an end. -/
def coverTokens (s : Text) (ts : List Token) (e : Extent) : Extent where
  start :=
    match ts.find? (e.start < ·.stop) with
    | some t => if t.offset < e.start then Text.lineStart s t.offset else e.start
    | none => e.start
  stop :=
    match lastWhile? (·.offset < e.stop) ts with
    | some t => if e.stop < t.stop then Text.lineStop s t.stop else e.stop
    | none => e.stop

/-- Takes in the line before where a literal may begin on it. -/
def coverBefore (s : Text) (ts : List Token) (e : Extent) : Extent :=
  let before := lastWhile? (·.stop ≤ e.start) ts
  let opening := (ts.find? (e.start < ·.stop)).filter (·.offset < e.stop)
  if 0 < e.start ∧ (before.any leavesOpen ∨ opening.any continues) then
    { e with start := Text.lineStart s (e.start - 1) }
  else e

/-- Takes in the line behind where a literal may go on there. -/
def coverBehind (s : Text) (ts : List Token) (e : Extent) : Extent :=
  let closing := (lastWhile? (·.offset < e.stop) ts).filter (e.start < ·.stop)
  let behind := ts.find? (e.stop ≤ ·.offset)
  if e.stop < Text.byteLen s ∧ (closing.any leavesOpen ∨ behind.any continues) then
    { e with stop := Text.lineStop s (e.stop + 1) }
  else e

/-- One step of widening. -/
def step (s : Text) (ts : List Token) (e : Extent) : Extent :=
  coverBehind s ts (coverBefore s ts (coverTokens s ts e))

/-- Whether a range reaches further than another one and stays in `len` bytes. -/
def Widens (len : Nat) (e f : Extent) : Prop :=
  f.start ≤ e.start ∧ e.stop ≤ f.stop ∧ f.stop ≤ len ∧ f ≠ e

instance (len : Nat) (e f : Extent) : Decidable (Widens len e f) := by
  unfold Widens; infer_instance

theorem Widens.measure_lt {len : Nat} {e f : Extent} (h : Widens len e f) :
    f.start + (len - f.stop) < e.start + (len - e.stop) := by
  obtain ⟨h₁, h₂, h₃, h₄⟩ := h
  have : f.start ≠ e.start ∨ f.stop ≠ e.stop := by
    by_cases hs : f.start = e.start
    · right
      intro hp
      exact h₄ (by cases e; cases f; simp_all)
    · exact Or.inl hs
  omega

/-- Takes steps while they reach further. -/
def grow (s : Text) (ts : List Token) (e : Extent) : Extent :=
  if _h : Widens (Text.byteLen s) e (step s ts e) then grow s ts (step s ts e) else e
termination_by e.start + (Text.byteLen s - e.stop)
decreasing_by exact Widens.measure_lt _h

/-- The range to read again for a change between two offsets. -/
def widen (s : Text) (lo hi : Nat) : Extent :=
  let len := Text.byteLen s
  let lo := min lo len
  let hi := min (max hi lo) len
  grow s (tokenize s) ⟨Text.lineStart s lo, Text.lineStop s hi⟩

end Extent

end ImageScript
