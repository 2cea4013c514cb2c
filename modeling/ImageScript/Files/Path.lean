import ImageScript.Script.ImageName

/-!
# Paths

A path keeps the text it was written in, and is compared, ordered and taken apart by its
components: repeated slashes, inner single dots and a final slash make no difference, while double
dots and a leading single dot are components of their own.
-/

namespace ImageScript

structure Path where
  text : Text
deriving DecidableEq, Repr

namespace Path

inductive Component where
  | root
  | here
  | up
  | name (n : Text)
deriving DecidableEq, Repr

/-- A part between slashes that is no component of its own. -/
def isIdle (piece : Text) : Bool := piece = [] || piece = ['.']

def componentOf (piece : Text) : Component :=
  if piece = ['.', '.'] then .up else .name piece

/-- The components of a text divided at its slashes. -/
def componentsOf (first : Text) (others : List Text) : List Component :=
  (if first = [] then if others = [] then [] else [.root]
    else if first = ['.'] then [.here] else [componentOf first])
    ++ (others.filter (!isIdle ·)).map componentOf

/-- What a path is made of. -/
def components (p : Path) : List Component :=
  let (first, others) := Text.pieces '/' p.text
  componentsOf first others

def ofString (s : String) : Path := ⟨s.toList⟩

/-- Whether two paths are spelled from the same components. -/
def same (p q : Path) : Bool := p.components == q.components

/-- The order of paths: component by component, root first, then dots, then names. -/
abbrev Key := List (List Nat)

def Component.key : Component → List Nat
  | root => [0]
  | here => [1]
  | up => [2]
  | name n => 3 :: n.map Char.toNat

/-- What a path is looked up and sorted by. -/
def key (p : Path) : Key := p.components.map Component.key

def isAbsolute (p : Path) : Bool := p.text.head? = some '/'

def isEmpty (p : Path) : Bool := p.text = []

/-- The path without its last component and the slashes and dots before it; `none` for the root
and the empty path. -/
def parent? (p : Path) : Option Path :=
  let (first, others) := Text.pieces '/' p.text
  match others.reverse.dropWhile isIdle with
  | _ :: before =>
    let kept := (before.dropWhile isIdle).reverse
    some ⟨if first = [] ∧ kept = [] then ['/'] else Text.joinPieces '/' first kept⟩
  | [] => if first = [] then none else some ⟨[]⟩

/-- The last component, where it is a name. -/
def fileName? (p : Path) : Option Text :=
  match p.components.getLast? with
  | some (.name n) => some n
  | _ => none

/-- The file name without its extension. -/
def fileStem? (p : Path) : Option Text := p.fileName?.map fun n => (ImageName.splitExtension n).1

def extension? (p : Path) : Option Text := p.fileName?.bind fun n => (ImageName.splitExtension n).2

/-- A path below another one; an absolute path stands for itself. -/
def join (p : Path) (below : Text) : Path :=
  if below.head? = some '/' then ⟨below⟩
  else if p.text = [] ∨ p.text.getLast? = some '/' then ⟨p.text ++ below⟩
  else ⟨p.text ++ '/' :: below⟩

/-- Whether a path is another one or lies below it. -/
def isWithin (p base : Path) : Bool := base.components.isPrefixOf p.components

/-- Up to `n` paths, each the parent of the one before it. -/
def chain : Nat → Path → List Path
  | 0, _ => []
  | n + 1, p =>
    p :: match p.parent? with
      | some q => chain n q
      | none => []

/-- A path and everything above it. -/
def ancestors (p : Path) : List Path := chain (p.components.length + 1) p

end Path

end ImageScript
