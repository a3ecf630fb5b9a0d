import Lexicon.Error

namespace Lexicon

/-!
# Usage errors

What a tool says before it gives up.

* `UsageError` — faults of the options, and word lists that cannot be loaded.
* `UsageError.message` — the wording of each.
-/

/-- Name of the environment variable that names a word list when no option does. -/
def wordListVariable : Text := "WORDCHECK_WORDLIST".toList

/-- Why a tool cannot do what it was asked to. -/
inductive UsageError where
  /-- An option that takes a value stands last. -/
  | missingValue (option : Text)
  /-- Neither an option nor the environment names a word list. -/
  | noWordList
  /-- No backend has this name. -/
  | unknownBackend (name : Text)
  /-- The share of offsets to keep is no number. -/
  | badPercent (value : Text)
  /-- The distance is no number. -/
  | badDistance
  /-- A tool with a backend of its own was given one. -/
  | backendRefused
  /-- A tool that needs the spelling of words was asked to ignore case. -/
  | ignoreCaseRefused
  /-- The word list at a path cannot be loaded. -/
  | notLoaded (path : Text) (cause : DictionaryError)

/-- Wording of a usage error. -/
def UsageError.message : UsageError → Text
  | missingValue option => option ++ " requires a value".toList
  | noWordList =>
    "no word list given (use --dict-path or set ".toList ++ wordListVariable ++ ")".toList
  | unknownBackend name =>
    "unknown backend ".toList ++ quoted name
      ++ " (expected array, file, mmap, tree or bloom)".toList
  | badPercent value => "invalid number for --cache-percent: ".toList ++ quoted value
  | badDistance => "invalid number for --distance".toList
  | backendRefused =>
    "--backend is not accepted: this tool always builds a ternary tree".toList
  | ignoreCaseRefused =>
    "--ignore-case is not accepted: pattern and near search need a case-sensitive tree".toList
  | notLoaded path cause => "failed to load ".toList ++ path ++ ": ".toList ++ cause.message

end Lexicon
