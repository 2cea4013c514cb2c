import ImageScript.Command.Config
import ImageScript.Document.Basic

/-!
# Terminal

What a command works on: the files, and the output written so far. Output written before an error
stays.
-/

namespace ImageScript

/-- Why a command fails. -/
inductive CommandError where
  | config (cause : ConfigError)
  | file (cause : FileError)
  | bundle (cause : BundleError)
  | edit (cause : EditError)
  /-- The given path is neither a script nor the folder of a bundle. -/
  | noScript (input : Text)
  | notCanonical (script : Path)
  /-- Nothing is cleaned up because a string is left open. -/
  | openString (line : Nat)
deriving DecidableEq, Repr

def CommandError.message : CommandError → Text
  | config cause => cause.message
  | file cause => cause.message
  | bundle cause => cause.message
  | edit cause => cause.message
  | noScript input => "Not a script or bundle: ".toList ++ input
  | notCanonical script => script.text ++ " is not canonical".toList
  | openString line => "Cleanup skipped: unterminated string on line ".toList ++ Text.ofNat line

structure Terminal (σ : Type) where
  files : σ
  output : Text

namespace Terminal

variable {σ : Type} [FileSystem σ]

/-- Writes lines. -/
def sayAll (lines : List Text) : EStateM CommandError (Terminal σ) Unit :=
  modify fun t => { t with output := t.output ++ lines.flatMap (· ++ ['\n']) }

/-- Writes one line. -/
def say (line : Text) : EStateM CommandError (Terminal σ) Unit := sayAll [line]

/-- Asks the files a question that may fail. -/
def ask {ε α : Type} (wrap : ε → CommandError) (question : σ → Except ε α) :
    EStateM CommandError (Terminal σ) α := fun t =>
  match question t.files with
  | .ok a => .ok a t
  | .error e => .error (wrap e) t

/-- Runs an action on the files. -/
def perform {ε α : Type} (wrap : ε → CommandError) (action : EStateM ε σ α) :
    EStateM CommandError (Terminal σ) α := fun t =>
  match action t.files with
  | .ok a files => .ok a { t with files }
  | .error e files => .error (wrap e) { t with files }

end Terminal

end ImageScript
