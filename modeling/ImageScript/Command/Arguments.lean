import ImageScript.Command.Basic

/-!
# Arguments

How the words of a command line name a command. Options may stand before and after the one word
that a command is given.
-/

namespace ImageScript

namespace Arguments

/-- Takes an option without a value out of some words, and says whether it was there. -/
def takeFlag (names words : List String) : Bool × List String :=
  (words.any names.contains, words.filter (!names.contains ·))

/-- Takes an option and the word behind it out of some words. -/
def takeValue (names : List String) : List String → Option String × List String
  | option :: value :: r =>
    if names.contains option then (some value, r)
    else
      let (found, r) := takeValue names (value :: r)
      (found, option :: r)
  | words => (none, words)

/-- The one word that is left, unless it looks like an option. -/
def onlyWord? : List String → Option Text
  | [word] => if word.toList.head? = some '-' then none else some word.toList
  | _ => none

end Arguments

/-- The command that some words name. -/
def Command.ofArgs? : List String → Option Command
  | "init" :: words => do
    let (force, words) := Arguments.takeFlag ["-f", "--force"] words
    let (dir, words) := Arguments.takeValue ["-d", "--dir"] words
    return .init (← Arguments.onlyWord? words) (dir.map String.toList) force
  | "inspect" :: words => do
    let (shown, words) := Arguments.takeValue ["-f", "--format"] words
    return .inspect (← Arguments.onlyWord? words) (.ofText (shown.getD "text").toList)
  | "format" :: words => do
    let (check, words) := Arguments.takeFlag ["--check"] words
    return .format (← Arguments.onlyWord? words) check
  | "clean" :: words => do
    let (dryRun, words) := Arguments.takeFlag ["--dry-run"] words
    return .clean (← Arguments.onlyWord? words) dryRun
  | _ => none

end ImageScript
