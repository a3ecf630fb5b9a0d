import Lexicon.Dictionary
import Lexicon.Options.Basic

namespace Lexicon

/-!
# Loading word lists

Options choose the structure that a word list file is loaded into.

* `Options.dictionary`, `Options.tree` — the structure made of what a path leads to.
* `Options.dictionaryOf` — the dictionary at the path of the options.
* `Options.treeOf` — the search tree there, whatever the backend.
-/

/-- Rate of false positives that the filter backend is built for. -/
def filterRate : Float := 0.001

namespace Options

/-- Tree of a word list file, built from the open file. -/
def tree (options : Options) (entry : Entry) : Except DictionaryError Ternary.Tree :=
  match Stored.ofEntry options.order options.percent entry with
  | .error e => .error (.list e)
  | .ok list => (Ternary.Tree.ofList options.median list).1.mapError .list

/-- Filter of a word list file, built from mapped memory. -/
def filter (options : Options) (hasher : Bloom.Hasher) (entry : Entry) :
    Except DictionaryError Bloom.FoldedFilter :=
  match Mapped.ofEntry options.order options.percent entry with
  | .error e => .error (.list e)
  | .ok list => (Bloom.FoldedFilter.ofList hasher filterRate list).1

/-- Dictionary of a word list file.  Only a list in memory may be unsorted, and gets sorted. -/
def dictionary (options : Options) (hasher : Bloom.Hasher) (entry : Entry) :
    Except DictionaryError Dictionary :=
  match options.backend with
  | .array =>
    ((InMemory.ofEntry options.order (some .quick) entry).mapError .list).map .inMemory
  | .file => ((Stored.ofEntry options.order options.percent entry).mapError .list).map .stored
  | .mmap => ((Mapped.ofEntry options.order options.percent entry).mapError .list).map .mapped
  | .tree => (options.tree entry).map .tree
  | .bloom => (options.filter hasher entry).map .filter

/-- Loads what the path of the options leads to, or says why that fails. -/
def load {α : Type} (options : Options) (build : Entry → Except DictionaryError α)
    (found : Except FileError Entry) : Except UsageError α :=
  match found with
  | .error e => .error (.notLoaded options.path (.list (.file e)))
  | .ok entry => (build entry).mapError (.notLoaded options.path)

/-- Dictionary of the word list at the path of the options. -/
def dictionaryOf (options : Options) (hasher : Bloom.Hasher)
    (found : Except FileError Entry) : Except UsageError Dictionary :=
  options.load (options.dictionary hasher) found

/-- Search tree of the word list at the path of the options. -/
def treeOf (options : Options) (found : Except FileError Entry) :
    Except UsageError Ternary.Tree :=
  options.load options.tree found

end Options

end Lexicon
