import ImageScript.Script.DeepWalk
import ImageScript.Text.Lines

/-!
# All string literals of a text

The scan behind image cleanup: every closed string, also inside comments and doc strings, up to
the first string that is left open. Where one is open, the list of names cannot be trusted.
-/

namespace ImageScript

/-- A closed string of a script. -/
structure StringLiteral where
  content : Text
  offset : Nat
  line : Nat
deriving DecidableEq, Repr

/-- The first string of a text that is never closed. -/
structure OpenString where
  offset : Nat
  line : Nat
deriving DecidableEq, Repr

structure LiteralScan where
  literals : List StringLiteral
  openString : Option OpenString
deriving DecidableEq, Repr

namespace LiteralScan

def isAmbiguous (s : LiteralScan) : Bool := s.openString.isSome

/-- Collects the strings among tokens, up to the first that is left open. -/
def ofTokens (lines : Text.LineCursor) : List Token → LiteralScan
  | [] => ⟨[], none⟩
  | t :: ts =>
    if t.kind = .unterminated then ⟨[], some ⟨t.offset, (lines.moveTo t.offset).line⟩⟩
    else
      match t.content? with
      | none => ofTokens lines ts
      | some content =>
        let here := lines.moveTo t.offset
        let scan := ofTokens here ts
        { scan with literals := ⟨content, t.offset, here.line⟩ :: scan.literals }

end LiteralScan

/-- The string literals of a text at any depth. -/
def scanLiterals (s : Text) : LiteralScan :=
  LiteralScan.ofTokens (.start s) (deepTokens s)

end ImageScript
