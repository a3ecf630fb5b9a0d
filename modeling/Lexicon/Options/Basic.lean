import Lexicon.Decimal.Numeral
import Lexicon.OffsetIndex
import Lexicon.Options.Arguments

namespace Lexicon

/-!
# Options of the tools

* `Backend` — what answers lookups.
* `Options` — the choices that every tool offers.
* `Options.parse` — the options among some arguments, and the arguments that are left.
* `Options.parseForTree` — the same for tools that search a tree with case.
-/

/-- What answers lookups in a word list. -/
inductive Backend where
  /-- The whole list in memory. -/
  | array
  /-- The open file. -/
  | file
  /-- The file in mapped memory. -/
  | mmap
  /-- A ternary search tree. -/
  | tree
  /-- A Bloom filter. -/
  | bloom

/-- Backend of a given name. -/
def Backend.ofName? (name : Text) : Option Backend :=
  if name = "array".toList then some array
  else if name = "file".toList then some file
  else if name = "mmap".toList then some mmap
  else if name = "tree".toList then some tree
  else if name = "bloom".toList then some bloom
  else none

/-- Reads the name of a backend. -/
def Backend.parse (name : Text) : Except UsageError Backend :=
  match ofName? name with
  | some backend => .ok backend
  | none => .error (.unknownBackend name)

/-- The choices that every tool offers. -/
structure Options where
  /-- The path of the word list. -/
  path : Text
  /-- What answers lookups. -/
  backend : Backend
  /-- Whether words that differ in case differ. -/
  caseSensitive : Bool
  /-- The share of offsets to keep, as given. -/
  percent : Int
  /-- Whether trees are built in median order. -/
  median : Bool

namespace Options

/-- The word order that the options choose. -/
def order (options : Options) : WordOrder :=
  WordOrder.ofCaseSensitive options.caseSensitive

/-! ### Names -/

/-- Names the word list. -/
def pathName : Text := "--dict-path".toList

/-- Names the word list, in short. -/
def pathShort : Text := "-d".toList

/-- Names the backend. -/
def backendName : Text := "--backend".toList

/-- Sets the share of offsets to keep. -/
def percentName : Text := "--cache-percent".toList

/-- Makes words that differ only in case equal. -/
def ignoreCaseName : Text := "--ignore-case".toList

/-- Builds trees in median order. -/
def medianName : Text := "--median".toList

/-! ### Parsing -/

/-- Reads the share of offsets to keep. -/
def parsePercent (value : Text) : Except UsageError Int :=
  match Decimal.signed? value with
  | some percent => .ok percent
  | none => .error (.badPercent value)

/-- Takes the options out of the arguments.  The environment may name the word list where no
    option does. -/
def parse (environment : Option Text) (args : List Text) :
    Except UsageError (Options × List Text) := do
  let (path, args) ← splitValue pathName (some pathShort) args
  let (backend, args) ← splitValue backendName none args
  let (percent, args) ← splitValue percentName none args
  let (ignoreCase, args) := splitFlag ignoreCaseName args
  let (median, args) := splitFlag medianName args
  match path.or environment with
  | none => throw .noWordList
  | some path =>
    let backend ← (backend.map Backend.parse).getD (.ok .file)
    let percent ← (percent.map parsePercent).getD (.ok OffsetIndex.defaultPercent)
    return (⟨path, backend, !ignoreCase, percent, median⟩, args)

/-- Why a tool that searches a tree with case refuses an argument. -/
def refusal? (arg : Text) : Option UsageError :=
  if arg = backendName ∨ (inlineStem backendName).isPrefixOf arg then some .backendRefused
  else if arg = ignoreCaseName then some .ignoreCaseRefused
  else none

/-- Takes the options out of the arguments, none of which may choose a backend or ignore case,
    not even as the value of another option. -/
def parseForTree (environment : Option Text) (args : List Text) :
    Except UsageError (Options × List Text) :=
  match args.findSome? refusal? with
  | some e => .error e
  | none => parse environment args

end Options

end Lexicon
