import ImageScript.Proofs.Script.Taking

/-!
# The grammar of image literals

What the recognizer is to accept, as derivations over tokens:

    marker    the capture marker in double quotes
    chain     Pattern ( S ) and then suffix calls, as many as follow
    region    Region ( I , I , I , I ) and .asOffset() where that follows
    fileName  an image name in double quotes

A suffix call is one of `.exact()`, `.similar(D)`, `.targetOffset(I,I)`, `.resize(D)`, `.mask()` and
`.mask(S)`. Where a chain ends depends on what counts as another call behind it, so that the grammar
has this as a parameter: `CallBegins` holds where a call is opened, `CallStands` where it is also
closed.
-/

namespace ImageScript.Grammar

/-! ### Arguments -/

/-- The tokens of a number with an optional sign. -/
inductive Signed : List Token → Bool → Text → Prop where
  | plain {n : Token} (number : n.kind = .other) : Signed [n] false n.text
  | plus {s n : Token} (sign : s.is "+" = true) (number : n.kind = .other) :
      Signed [s, n] false n.text
  | minus {s n : Token} (sign : s.is "-" = true) (number : n.kind = .other) :
      Signed [s, n] true n.text

/-- A whole number in decimal digits, whose magnitude fits 32 bits with a sign. -/
def WholeNumber (us : List Token) (i : Int32) : Prop :=
  ∃ negative digits n, Signed us negative digits ∧ Text.toNat? digits = some n ∧ n < 0x80000000
    ∧ i.toInt = if negative then -(n : Int) else n

/-- A decimal number: it begins with a digit or a point. -/
def DecimalNumber (us : List Token) (x : Float) : Prop :=
  ∃ negative c ds y, Signed us negative (c :: ds) ∧ (c.isDigit = true ∨ c = '.')
    ∧ Decimal.number? (c :: ds) = some y ∧ x = Decimal.withSign negative y

/-- Argument groups with a comma between each two of them. -/
inductive Joined : List (List Token) → List Token → Prop where
  | none : Joined [] []
  | last (us : List Token) : Joined [us] us
  | more {comma : Token} {us vs : List Token} {groups : List (List Token)} (first : List Token)
      (sign : comma.is "," = true) (later : Joined (us :: groups) vs) :
      Joined (first :: us :: groups) (first ++ comma :: vs)

/-! ### Suffix calls -/

/-- What a suffix call says of a pattern. -/
inductive Attribute where
  | exact
  | similar (value : Float)
  | targetOffset (dx dy : Int32)
  | resize (factor : Float)
  | mask (m : Mask)

namespace Attribute

def suffix : Attribute → Suffix
  | exact => .exact
  | similar _ => .similar
  | targetOffset _ _ => .targetOffset
  | resize _ => .resize
  | mask _ => .mask

/-- Exactness and similarity are of one kind: without a value, a match has to be exact. -/
def similarity? : Attribute → Option (Option Float)
  | exact => some none
  | similar value => some (some value)
  | _ => none

def targetOffset? : Attribute → Option (Int32 × Int32)
  | targetOffset dx dy => some (dx, dy)
  | _ => none

def resize? : Attribute → Option Float
  | resize factor => some factor
  | _ => none

def mask? : Attribute → Option Mask
  | mask m => some m
  | _ => none

end Attribute

/-- An image with attributes, of each kind the last one. -/
def pattern (image : Text) (as : List Attribute) : PatternLiteral where
  image
  exact := (as.filterMap Attribute.similarity?).getLast? = some none
  similarity := (as.filterMap Attribute.similarity?).getLast?.join
  targetOffset := (as.filterMap Attribute.targetOffset?).getLast?
  resize := (as.filterMap Attribute.resize?).getLast?
  mask := (as.filterMap Attribute.mask?).getLast?

/-- The arguments that each suffix takes. -/
inductive Arguments : Attribute → List (List Token) → Prop where
  | exact : Arguments .exact []
  | similar {us : List Token} {value : Float} (number : DecimalNumber us value) (low : 0 ≤ value)
      (high : value ≤ 1) : Arguments (.similar value) [us]
  | targetOffset {us vs : List Token} {dx dy : Int32} (dx_number : WholeNumber us dx)
      (dy_number : WholeNumber vs dy) : Arguments (.targetOffset dx dy) [us, vs]
  | resize {us : List Token} {factor : Float} (number : DecimalNumber us factor)
      (positive : ¬ factor ≤ 0) : Arguments (.resize factor) [us]
  | transparent : Arguments (.mask .transparent) []
  | image {t : Token} {name : Text} (content : t.content? = some name) :
      Arguments (.mask (.image name)) [[t]]

inductive SuffixCall : List Token → Attribute → Prop where
  | call {dot name opening close : Token} {args : List Token} {groups : List (List Token)}
      {a : Attribute} (dot_sign : dot.is "." = true) (name_word : name.is a.suffix.name = true)
      (opening_sign : opening.is "(" = true) (joined : Joined groups args)
      (arguments : Arguments a groups) (close_sign : close.is ")" = true) :
      SuffixCall (dot :: name :: opening :: (args ++ [close])) a

inductive SuffixCalls : List Token → List Attribute → Prop where
  | nil : SuffixCalls [] []
  | cons {us vs : List Token} {a : Attribute} {as : List Attribute} (call : SuffixCall us a)
      (later : SuffixCalls vs as) : SuffixCalls (us ++ vs) (a :: as)

/-- Whether some tokens begin with the opening of a suffix call. -/
def CallBegins (ts : List Token) : Prop :=
  ∃ dot name opening suffix rest, ts = dot :: name :: opening :: rest ∧ dot.is "." = true
    ∧ name.is (Suffix.name suffix) = true ∧ opening.is "(" = true

/-- Whether some tokens begin with a whole suffix call, whatever its arguments are. -/
def CallStands (ts : List Token) : Prop :=
  ∃ dot name opening suffix rest, ts = dot :: name :: opening :: rest ∧ dot.is "." = true
    ∧ name.is (Suffix.name suffix) = true ∧ opening.is "(" = true
    ∧ (CallArguments.read? rest).isSome = true

/-! ### Literals -/

/-- The call that makes a pattern of an image. -/
inductive PatternCall : List Token → Text → Prop where
  | call {head opening name close : Token} {image : Text} (head_word : head.is "Pattern" = true)
      (opening_sign : opening.is "(" = true) (content : name.content? = some image)
      (isImage : ImageName.isImage image = true) (close_sign : close.is ")" = true) :
      PatternCall [head, opening, name, close] image

/-- The call of a region with its four numbers. -/
inductive RegionCall : List Token → Int32 → Int32 → Int32 → Int32 → Prop where
  | call {head opening close : Token} {args xs ys ws hs : List Token} {x y w h : Int32}
      (head_word : head.is "Region" = true) (opening_sign : opening.is "(" = true)
      (joined : Joined [xs, ys, ws, hs] args) (x_number : WholeNumber xs x)
      (y_number : WholeNumber ys y) (w_number : WholeNumber ws w) (h_number : WholeNumber hs h)
      (close_sign : close.is ")" = true) :
      RegionCall (head :: opening :: (args ++ [close])) x y w h

/-- The call that makes an offset of a region. -/
inductive OffsetCall : List Token → Prop where
  | call {dot name opening close : Token} (dot_sign : dot.is "." = true)
      (name_word : name.is "asOffset" = true) (opening_sign : opening.is "(" = true)
      (close_sign : close.is ")" = true) : OffsetCall [dot, name, opening, close]

/-- The tokens of a literal before some others. A chain takes all its suffix calls: none goes on
behind it, in the sense of `GoesOn`. -/
inductive Derives (GoesOn : List Token → Prop) : List Token → Literal → List Token → Prop where
  | marker {t : Token} {rest : List Token} (quoted : t.isDoubleQuoted = true)
      (content : t.content? = some captureMarker) : Derives GoesOn [t] .marker rest
  | chain {us vs rest : List Token} {image : Text} {as : List Attribute}
      (call : PatternCall us image) (suffixes : SuffixCalls vs as) (maximal : ¬ GoesOn rest) :
      Derives GoesOn (us ++ vs) (.chain (pattern image as)) rest
  | region {us rest : List Token} {x y w h : Int32} (call : RegionCall us x y w h)
      (plain : ∀ vs rest', rest = vs ++ rest' → ¬ OffsetCall vs) :
      Derives GoesOn us (.region ⟨x, y, w, h, false⟩) rest
  | offset {us vs rest : List Token} {x y w h : Int32} (call : RegionCall us x y w h)
      (offset : OffsetCall vs) : Derives GoesOn (us ++ vs) (.region ⟨x, y, w, h, true⟩) rest
  | fileName {t : Token} {name : Text} {rest : List Token} (quoted : t.isDoubleQuoted = true)
      (content : t.content? = some name) (isImage : ImageName.isImage name = true) :
      Derives GoesOn [t] (.fileName name) rest

/-- Whether a literal reaches from the first to the last of some tokens. -/
structure Spans (us : List Token) (m : Match) : Prop where
  start : us.head?.map Token.offset = some m.start
  stop : us.getLast?.map Token.stop = some m.stop

end ImageScript.Grammar

namespace ImageScript

namespace Recognition

/-- The places where a scan stands, each as the tokens from there on: it goes on behind what it
found, and else behind the first token. -/
def stands (ts : List Token) : List (List Token) :=
  match ts with
  | [] => []
  | t :: ts =>
    match _h : here? (t :: ts) with
    | some s => (t :: ts) :: stands s.rest
    | none => (t :: ts) :: stands ts
termination_by ts.length
decreasing_by
  · exact here?_rest_lt _h
  · simp

end Recognition

open Recognition in
/-- Whether the literals in a text are those of the grammar, where `GoesOn` tells if a chain
continues. -/
structure ObeysGrammar (GoesOn : List Token → Prop) (s : Text) : Prop where
  /-- The literals of a text are those found where the scan stands, in order. -/
  reported : ∀ o, (scan (Cursor.tokens ⟨o, s⟩)).filterMap Finding.match? =
    (stands (Cursor.tokens ⟨o, s⟩)).filterMap fun ts => (here? ts).bind fun f => f.finding.match?
  /-- A literal is found at such a place exactly if it is derived from the tokens there. -/
  accepts : ∀ o, ∀ ts ∈ stands (Cursor.tokens ⟨o, s⟩), ∀ m rest,
    here? ts = some ⟨.literal m, rest⟩ ↔ ∃ us, ts = us ++ rest
      ∧ Grammar.Derives GoesOn us m.literal rest ∧ Grammar.Spans us m

end ImageScript
