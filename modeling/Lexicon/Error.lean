import Lexicon.Decimal.Plain
import Lexicon.Order
import Lexicon.Text.Quoted

namespace Lexicon

/-!
# Errors

What can go wrong, by cause, and the one wording of each cause.

* `FileError` — why a word list file cannot be opened.
* `ListError` — why a word list cannot be built or read.
* `DictionaryError` — why a dictionary cannot be built or cannot answer.
-/

/-! ### Files -/

/-- Why a file cannot be opened or read. -/
inductive FileError where
  /-- There is no file of that name. -/
  | missing
  /-- A part of the path before the last is a file. -/
  | notDirectory
  /-- A directory is to be read. -/
  | isDirectory
  /-- What the path leads to cannot be mapped into memory. -/
  | notMappable
  /-- The path holds the character that ends names. -/
  | nulInName
  /-- The system gives a reason of its own. -/
  | other (reason : Text)

/-- Wording of a file error. -/
def FileError.message : FileError → Text
  | missing => "No such file or directory (os error 2)".toList
  | notDirectory => "Not a directory (os error 20)".toList
  | isDirectory => "Is a directory (os error 21)".toList
  | notMappable => "No such device (os error 19)".toList
  | nulInName => "file name contained an unexpected NUL byte".toList
  | other reason => reason

/-! ### Word lists -/

/-- Why a word list cannot be built or read. -/
inductive ListError where
  /-- The word at `index` sorts before the word in front of it. -/
  | unsorted (index : Nat) (previous word : Word)
  /-- A word was asked for at or past the end. -/
  | outOfRange (index size : Nat)
  /-- The share of offsets to keep is no percentage. -/
  | badPercent (percent : Int)
  /-- A line, counted from one where reading began, is not UTF-8. -/
  | badEncoding (line : Nat)
  /-- The list has given its file back. -/
  | closed
  /-- The file cannot be opened or read. -/
  | file (cause : FileError)

/-- Wording of a word list error. -/
def ListError.message : ListError → Text
  | unsorted index previous word =>
    "words are not sorted: ".toList ++ quoted word ++ " at index ".toList
      ++ Decimal.natural index ++ " sorts before ".toList ++ quoted previous
  | outOfRange index size =>
    "index ".toList ++ Decimal.natural index ++ " out of range for word list of size ".toList
      ++ Decimal.natural size
  | badPercent percent =>
    "cache percent must be in the range 0-100, got ".toList ++ Decimal.integer percent
  | badEncoding line =>
    "word list line ".toList ++ Decimal.natural line ++ " is not valid UTF-8".toList
  | closed => "word list has been closed".toList
  | file cause => cause.message

/-! ### Dictionaries -/

/-- The searches that need the spelling of every word. -/
inductive SpellingSearch where
  /-- Search by a pattern with wildcards. -/
  | wildcard
  /-- Search for words near a word. -/
  | near

/-- Name of a search in messages. -/
def SpellingSearch.name : SpellingSearch → Text
  | wildcard => "partial search".toList
  | near => "near search".toList

/-- Why a dictionary cannot be built or cannot answer. -/
inductive DictionaryError where
  /-- A tree blind to case does not know the spelling of its words. -/
  | unsupported (search : SpellingSearch)
  /-- A false positive rate is not strictly between zero and one. -/
  | badRate (rate : Float)
  /-- The word list fails. -/
  | list (cause : ListError)

/-- Wording of a dictionary error. -/
def DictionaryError.message : DictionaryError → Text
  | unsupported search => search.name ++ " is not supported on case-insensitive trees".toList
  | badRate rate =>
    "false positive rate must be strictly between 0 and 1, got ".toList ++ Decimal.plain rate
  | list cause => cause.message

end Lexicon
