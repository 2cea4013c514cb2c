import ImageScript.Decimal.Reader
import ImageScript.Script.CallArguments
import ImageScript.Script.ImageName
import ImageScript.Script.Literal

/-!
# Recognition of image literals

The top-level tokens of a text are scanned from the left for

    "__CLICK-TO-CAPTURE__"                       a capture marker
    Pattern("name.png") and suffix calls         a pattern chain
    Region(I,I,I,I) with an optional .asOffset() a region
    "name.png"                                   a file name

and each place is tried in this order. A literal consumes its tokens. A chain with a bad argument
is given up and left as text, and the scan goes on behind the bad suffix.
-/

namespace ImageScript

/-- A recognized literal. -/
inductive Literal where
  | marker
  | chain (pattern : PatternLiteral)
  | region (region : RegionLiteral)
  | fileName (name : Text)
deriving DecidableEq, Repr

/-- A literal and the bytes it stands on. -/
structure Match where
  start : Nat
  stop : Nat
  literal : Literal
deriving DecidableEq, Repr

/-- What a scan meets: a literal, or a chain that is left as text. -/
inductive Finding where
  | literal (m : Match)
  | rejected (e : LiteralError)
deriving DecidableEq, Repr

namespace Recognition

/-- The sign and the digits of an argument that is one number. -/
def signedNumber? : List Token → Option (Bool × Text)
  | [n] => if n.kind = .other then some (false, n.text) else none
  | [s, n] =>
    if s.is "-" then some (true, n.text) else if s.is "+" then some (false, n.text) else none
  | _ => none

/-- An argument that is a decimal number. -/
def float? (arg : List Token) : Option Float :=
  (signedNumber? arg).bind fun (negative, digits) =>
    if digits.head?.any (fun c => c.isDigit || c = '.') then
      (Decimal.number? digits).map (Decimal.withSign negative)
    else none

/-- An argument that is a whole number whose digits fit 32 bits with a sign. -/
def int? (arg : List Token) : Option Int32 :=
  (signedNumber? arg).bind fun (negative, digits) =>
    (Text.toNat? digits).bind fun n =>
      if n < 0x80000000 then some (Int32.ofInt (if negative then -n else n)) else none

/-- The error of an argument that is not of the form its suffix takes. -/
def malformed (suffix : Suffix) (arg : List Token) : LiteralError :=
  .malformedArgument ((arg.head?.map Token.offset).getD 0) suffix (arg.flatMap Token.text)

/-- A pattern with the effect of one suffix call at `pos`. -/
def applySuffix (p : PatternLiteral) (suffix : Suffix) (pos : Nat) (args : List (List Token)) :
    Except LiteralError PatternLiteral :=
  match suffix, args with
  | .exact, [] => .ok { p with exact := true, similarity := none }
  | .similar, [arg] =>
    match float? arg with
    | none => .error (malformed suffix arg)
    | some value =>
      if 0 ≤ value ∧ value ≤ 1 then .ok { p with similarity := some value, exact := false }
      else .error (.outOfRange pos suffix value)
  | .targetOffset, [a, b] =>
    match int? a, int? b with
    | none, _ => .error (malformed suffix a)
    | _, none => .error (malformed suffix b)
    | some dx, some dy => .ok { p with targetOffset := some (dx, dy) }
  | .resize, [arg] =>
    match float? arg with
    | none => .error (malformed suffix arg)
    | some value =>
      if value ≤ 0 then .error (.outOfRange pos suffix value)
      else .ok { p with resize := some value }
  | .mask, [] => .ok { p with mask := some .transparent }
  | .mask, [arg] =>
    match arg with
    | [t] =>
      match t.kind with
      | .string => .ok { p with mask := some (.image (t.content?.getD [])) }
      | _ => .error (malformed suffix arg)
    | _ => .error (malformed suffix arg)
  | .exact, _ => .error (.wrongArity pos suffix 0 args.length)
  | .targetOffset, _ => .error (.wrongArity pos suffix 2 args.length)
  | .similar, _ | .resize, _ | .mask, _ => .error (.wrongArity pos suffix 1 args.length)

/-- A suffix call at the head of some tokens: the suffix, the tokens of its name and its opening
parenthesis, and the tokens behind that. -/
def suffixCall? : List Token → Option (Suffix × Token × Token × List Token)
  | dot :: name :: opening :: rest =>
    if dot.is "." && opening.is "(" then
      (Suffix.all.find? fun s => name.is s.name).map fun s => (s, name, opening, rest)
    else none
  | _ => none

/-- What was found at a place, and the tokens where the scan goes on. -/
structure Step where
  finding : Finding
  rest : List Token

theorem suffixCall?_length {ts : List Token} {s : Suffix} {name opening : Token}
    {rest : List Token} (h : suffixCall? ts = some (s, name, opening, rest)) :
    ts.length = rest.length + 3 := by
  match ts with
  | [] | [_] | [_, _] => simp [suffixCall?] at h
  | _ :: _ :: _ :: _ =>
    simp only [suffixCall?] at h
    split at h
    · obtain ⟨_, _, h⟩ := Option.map_eq_some_iff.1 h
      simp only [Prod.mk.injEq] at h
      simp [h.2.2.2]
    · simp at h

/-- The suffix calls behind a pattern that began at byte `start` and reaches to byte `stop`. -/
def readSuffixes (start : Nat) (p : PatternLiteral) (stop : Nat) (ts : List Token) : Step :=
  match _h : suffixCall? ts with
  | none => ⟨.literal ⟨start, stop, .chain p⟩, ts⟩
  | some (suffix, name, opening, rest) =>
    match _ha : CallArguments.read? rest with
    | none => ⟨.rejected (.unclosed opening.offset suffix), rest⟩
    | some args =>
      match applySuffix p suffix name.offset args.groups with
      | .error e => ⟨.rejected e, args.rest⟩
      | .ok q => readSuffixes start q args.close.stop args.rest
termination_by ts.length
decreasing_by
  have := suffixCall?_length _h
  have := CallArguments.read?_rest_lt _ha
  omega

/-- The content of a closed string that names an image. -/
def imageName? (t : Token) : Option Text :=
  t.content?.filter ImageName.isImage

/-- A capture marker in double quotes. -/
def marker? : List Token → Option Step
  | t :: ts =>
    if t.isDoubleQuoted ∧ t.content? = some captureMarker then
      some ⟨.literal ⟨t.offset, t.stop, .marker⟩, ts⟩
    else none
  | [] => none

/-- A pattern chain, or the reason to leave one as text. -/
def chain? : List Token → Option Step
  | head :: opening :: name :: close :: ts =>
    if head.is "Pattern" && opening.is "(" && close.is ")" then
      (imageName? name).map fun image => readSuffixes head.offset (.bare image) close.stop ts
    else none
  | _ => none

/-- The marker call behind a region: its end and the tokens behind it. -/
def asOffset? : List Token → Option (Nat × List Token)
  | dot :: name :: opening :: close :: ts =>
    if dot.is "." && name.is "asOffset" && opening.is "(" && close.is ")" then
      some (close.stop, ts)
    else none
  | _ => none

/-- A region with its four numbers. -/
def region? : List Token → Option Step
  | head :: opening :: ts =>
    if head.is "Region" && opening.is "(" then
      (CallArguments.read? ts).bind fun args =>
        match args.groups.map int? with
        | [some x, some y, some w, some h] =>
          match asOffset? args.rest with
          | some (stop, rest) =>
            some ⟨.literal ⟨head.offset, stop, .region ⟨x, y, w, h, true⟩⟩, rest⟩
          | none =>
            some ⟨.literal ⟨head.offset, args.close.stop, .region ⟨x, y, w, h, false⟩⟩, args.rest⟩
        | _ => none
    else none
  | _ => none

/-- An image name in double quotes. -/
def fileName? : List Token → Option Step
  | t :: ts =>
    if t.isDoubleQuoted ∧ t.content? ≠ some captureMarker then
      (imageName? t).map fun name => ⟨.literal ⟨t.offset, t.stop, .fileName name⟩, ts⟩
    else none
  | [] => none

/-- The first kind of literal that begins at the head of some tokens. -/
def here? (ts : List Token) : Option Step :=
  marker? ts <|> chain? ts <|> region? ts <|> fileName? ts

theorem readSuffixes_rest_le (start : Nat) (p : PatternLiteral) (stop : Nat) (ts : List Token) :
    (readSuffixes start p stop ts).rest.length ≤ ts.length := by
  fun_induction readSuffixes start p stop ts with
  | case1 => exact Nat.le_refl _
  | case2 =>
    next h _ => have := suffixCall?_length h; simp only; omega
  | case3 =>
    next h _ ha _ _ =>
      have := suffixCall?_length h
      have := CallArguments.read?_rest_lt ha
      simp only; omega
  | case4 =>
    next h _ ha _ _ ih =>
      have := suffixCall?_length h
      have := CallArguments.read?_rest_lt ha
      omega

theorem marker?_rest_lt {ts : List Token} {s : Step} (h : marker? ts = some s) :
    s.rest.length < ts.length := by
  match ts with
  | [] => simp [marker?] at h
  | t :: ts =>
    simp only [marker?] at h
    split at h
    · simp only [Option.some.injEq] at h; subst h; simp
    · simp at h

theorem chain?_rest_lt {ts : List Token} {s : Step} (h : chain? ts = some s) :
    s.rest.length < ts.length := by
  match ts with
  | [] | [_] | [_, _] | [_, _, _] => simp [chain?] at h
  | _ :: _ :: _ :: close :: ts =>
    simp only [chain?] at h
    split at h
    · obtain ⟨image, _, rfl⟩ := Option.map_eq_some_iff.1 h
      simp only [List.length_cons]
      exact Nat.lt_of_le_of_lt (readSuffixes_rest_le ..) (by omega)
    · simp at h

theorem asOffset?_rest_lt {ts rest : List Token} {stop : Nat}
    (h : asOffset? ts = some (stop, rest)) : rest.length < ts.length := by
  match ts with
  | [] | [_] | [_, _] | [_, _, _] => simp [asOffset?] at h
  | _ :: _ :: _ :: _ :: _ =>
    simp only [asOffset?] at h
    split at h
    · simp only [Option.some.injEq, Prod.mk.injEq] at h; simp [← h.2]; omega
    · simp at h

theorem region?_rest_lt {ts : List Token} {s : Step} (h : region? ts = some s) :
    s.rest.length < ts.length := by
  match ts with
  | [] | [_] => simp [region?] at h
  | _ :: _ :: ts =>
    simp only [region?] at h
    split at h
    · obtain ⟨args, ha, h⟩ := Option.bind_eq_some_iff.1 h
      have hargs := CallArguments.read?_rest_lt ha
      split at h
      · split at h
        · next hs =>
          have := asOffset?_rest_lt hs
          simp only [Option.some.injEq] at h; subst h; simp; omega
        · simp only [Option.some.injEq] at h; subst h; simp; omega
      · simp at h
    · simp at h

theorem fileName?_rest_lt {ts : List Token} {s : Step} (h : fileName? ts = some s) :
    s.rest.length < ts.length := by
  match ts with
  | [] => simp [fileName?] at h
  | t :: ts =>
    simp only [fileName?] at h
    split at h
    · obtain ⟨_, _, rfl⟩ := Option.map_eq_some_iff.1 h; simp
    · simp at h

/-- The scan goes on behind the head of its tokens. -/
theorem here?_rest_lt {ts : List Token} {s : Step} (h : here? ts = some s) :
    s.rest.length < ts.length := by
  simp only [here?, Option.orElse_eq_orElse, Option.orElse_eq_or, Option.or_eq_some_iff] at h
  rcases h with h | ⟨_, h | ⟨_, h | ⟨_, h⟩⟩⟩
  · exact marker?_rest_lt h
  · exact chain?_rest_lt h
  · exact region?_rest_lt h
  · exact fileName?_rest_lt h

/-- All findings among some tokens. -/
def scan (ts : List Token) : List Finding :=
  match ts with
  | [] => []
  | t :: ts =>
    match _h : here? (t :: ts) with
    | some s => s.finding :: scan s.rest
    | none => scan ts
termination_by ts.length
decreasing_by
  · exact here?_rest_lt _h
  · simp

end Recognition

namespace Finding

def match? : Finding → Option Match
  | literal m => some m
  | rejected _ => none

def error? : Finding → Option LiteralError
  | literal _ => none
  | rejected e => some e

end Finding

/-- The findings in the bytes `lo` to `hi` of a text; none where these are no boundaries. -/
def findings (s : Text) (lo hi : Nat) : List Finding :=
  match Text.slice? lo hi s with
  | some part => Recognition.scan (Cursor.tokens ⟨lo, part⟩)
  | none => []

/-- The literals in the bytes `lo` to `hi` of a text. -/
def recognize (s : Text) (lo hi : Nat) : List Match :=
  (findings s lo hi).filterMap Finding.match?

/-- The literals of a whole text. -/
def recognizeAll (s : Text) : List Match := recognize s 0 (Text.byteLen s)

end ImageScript
