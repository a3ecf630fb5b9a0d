namespace Lexicon

/-!
# Comparisons that may remember

A sorter asks its comparison one pair at a time.  The comparison may keep a state, so that
its answers need not agree with each other; a sorter that copes with every such comparison
copes with every order.

* `Comparison` — a question about a pair of words, answered in a state.
* `Comparison.ofOrder` — the comparison of an order, which remembers nothing.
* `Picked` — one word set apart from a known number of others.
-/

/-- Answers how two words compare, and may change its state by being asked. -/
abbrev Comparison (σ α : Type) := α → α → StateM σ Ordering

/-- Asks an order, without any state. -/
def Comparison.ofOrder {α : Type} (compare : α → α → Ordering) : Comparison Unit α :=
  fun a b => pure (compare a b)

/-- One word of a list, and the `count` others in an order of their own. -/
structure Picked (α : Type) (count : Nat) where
  /-- The word set apart. -/
  word : α
  /-- The words that stay. -/
  others : List α
  /-- Nothing is lost but the word. -/
  length_others : others.length = count

end Lexicon
