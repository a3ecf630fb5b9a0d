import Lexicon.Entry
import Lexicon.Reader
import Lexicon.Sort.Sorter
import Lexicon.WordList.Basic

namespace Lexicon

/-!
# Word lists in memory

* `InMemory.ofSorted`, `InMemory.sortedBy` — a list of words that are sorted, or get sorted.
* `InMemory.ofSources` — a list of the words of several sources, one after the other.
* `InMemory.ofEntry` — a list of the words of what a path leads to.
-/

/-- A list that holds all its words. -/
structure InMemory where
  /-- The order that the words ascend in. -/
  order : WordOrder
  /-- The words, as they were given. -/
  words : Array Word

namespace InMemory

/-- List of words that have to be in order already. -/
def ofSorted (order : WordOrder) (words : List Word) : Except ListError InMemory :=
  match ensureAscending order words with
  | .ok () => .ok ⟨order, words.toArray⟩
  | .error e => .error e

/-- List of words that are put in order first. -/
def sortedBy (sorter : Sorter) (order : WordOrder) (words : List Word) : InMemory :=
  ⟨order, (sorter.sort order words).toArray⟩

/-- List of given words, put in order first if there is a sorter. -/
def ofWords (order : WordOrder) (sorter : Option Sorter) (words : List Word) :
    Except ListError InMemory :=
  match sorter with
  | some sorter => .ok (sortedBy sorter order words)
  | none => ofSorted order words

/-- List of the words of several sources; lines are counted in each source anew. -/
def ofSources (order : WordOrder) (sorter : Option Sorter) (sources : List Source) :
    Except ListError InMemory := do
  let words ← sources.mapM Source.words
  ofWords order sorter words.flatten

/-- List of the words of what a path leads to. -/
def ofEntry (order : WordOrder) (sorter : Option Sorter) : Entry → Except ListError InMemory
  | .file contents => ofSources order sorter [Source.ofFile contents]
  | .directory => .error (.file .isDirectory)

/-- Word at an index. -/
def get (list : InMemory) (index : Nat) : Except ListError Word :=
  match list.words[index]? with
  | some word => .ok word
  | none => .error (.outOfRange index list.words.size)

end InMemory

instance : WordList InMemory where
  order := InMemory.order
  size list := list.words.size
  fetch list index := (list.get index, list)
  close list := list

end Lexicon
