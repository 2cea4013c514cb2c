import ImageScript.Text.Checksum

/-!
# Widget ids

An id is the seed of its document, a letter for the kind of widget and a number that counts all
widgets of the document. No number is handed out twice. The numbers have no bound here; a counter of
32 bits has the same ones as long as fewer than 2^32 ids are handed out.
-/

namespace ImageScript

inductive WidgetKind where
  | pattern
  | region
deriving DecidableEq, Repr

def WidgetKind.letter : WidgetKind → Char
  | pattern => 'p'
  | region => 'r'

/-- Where a document takes its ids from. -/
structure IdSource where
  seed : Text
  /-- How many ids were handed out so far, without a bound. -/
  issued : Nat
deriving DecidableEq, Repr

namespace IdSource

def ofSeed (seed : Text) : IdSource := ⟨seed, 0⟩

/-- The ids of a script, seeded by the checksum of its path. -/
def ofScript (script : Text) : IdSource := ofSeed (Text.checksum script)

/-- The id with a number. -/
def idAt (ids : IdSource) (kind : WidgetKind) (n : Nat) : Text :=
  ids.seed ++ '-' :: kind.letter :: Text.ofNat n

/-- Hands out a new id. It is that of a counter of 32 bits up to the number 2^32 - 1, behind which
such a counter would stop or start again. -/
def next (ids : IdSource) (kind : WidgetKind) : Text × IdSource :=
  (ids.idAt kind (ids.issued + 1), { ids with issued := ids.issued + 1 })

end IdSource

end ImageScript
