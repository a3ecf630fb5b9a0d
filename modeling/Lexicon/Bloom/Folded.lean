import Lexicon.Bloom.Filter
import Lexicon.WordList.Walk

namespace Lexicon.Bloom

/-!
# Filters of folded words

A filter that holds words in the form that their order compares answers alike for words that
compare equal.

* `FoldedFilter.ofList` — the filter of all words of a list.
* `FoldedFilter.search` — whether a word may be among them.
-/

/-- A filter whose items are words folded under an order. -/
structure FoldedFilter where
  /-- The filter of the folded words. -/
  filter : Filter
  /-- The order that the words are folded under. -/
  order : WordOrder

namespace FoldedFilter

/-- Adds a word in its folded form. -/
def insert (folded : FoldedFilter) (word : Word) : FoldedFilter :=
  { folded with filter := folded.filter.insert (folded.order.key word) }

/-- Whether a word that compares equal may have been added. -/
def search (folded : FoldedFilter) (word : Word) : Bool :=
  folded.filter.contains (folded.order.key word)

/-- Filter of all words of a list, sized for the list and a false positive rate. -/
def ofList {L : Type} [WordList L] (hasher : Hasher) (rate : Float) (list : L) :
    Except DictionaryError FoldedFilter × L :=
  match Sizing.ofRate (WordList.size list) rate with
  | .error e => (.error e, list)
  | .ok sizing =>
    let start : FoldedFilter := ⟨Filter.empty sizing hasher, WordList.order list⟩
    let (filled, list) := Walk.fold insert start (Walk.ofList false list) list
    (filled.mapError .list, list)

end FoldedFilter

end Lexicon.Bloom
