import Lexicon.Ternary.Node

namespace Lexicon.Ternary

/-!
# Searches that list words

All of them list words in the order of the tree, and leave out the subtrees that cannot hold
a match.

* `Node.words` — every word.
* `Node.matching` — the words that match a pattern, place by place.
* `Node.near` — the words that differ from a query in few places.
-/

/-- The character that matches any one character in a pattern. -/
def wildcard : Char := '.'

namespace Node

/-- Every word, in the order of the tree. -/
def words : Node → List Word
  | leaf => []
  | branch _ char isEnd lo eq hi =>
    lo.words ++ (if isEnd then [[char]] else []) ++ eq.words.map (char :: ·) ++ hi.words

/-- The words as long as the pattern that agree with it wherever it has no wildcard. -/
def matching : Node → Char → List Char → List Word
  | leaf, _, _ => []
  | branch _ char isEnd lo eq hi, c, rest =>
    let wild := c == wildcard
    let side := compare c char
    (if wild || side == .lt then lo.matching c rest else [])
      ++ (if wild || side == .eq then
          match rest with
          | [] => if isEnd then [[char]] else []
          | d :: rest => (eq.matching d rest).map (char :: ·)
        else [])
      ++ (if wild || side == .gt then hi.matching c rest else [])

/-- Side of a node on which a query goes on; one that is used up comes before every
    character. -/
def sideOf (query : List Char) (char : Char) : Ordering :=
  match query with
  | [] => .lt
  | c :: _ => compare c char

/-- What is left of a budget after a character; one that is not the query's costs one. -/
def spend (side : Ordering) (budget : Nat) : Option Nat :=
  if side == .eq then some budget
  else if 0 < budget then some (budget - 1)
  else none

/-- The words within a budget of the query, which pays for each place with another character
    and for each character that one of the two has more than the other. -/
def near : Node → (query : List Char) → (budget : Nat) → List Word
  | leaf, _, _ => []
  | branch _ char isEnd lo eq hi, query, budget =>
    let side := sideOf query char
    let here :=
      match spend side budget with
      -- The budget does not reach this character, nor any word below it.
      | none => []
      | some left =>
        (if isEnd && decide (query.tail.length ≤ left) then [[char]] else [])
          ++ (eq.near query.tail left).map (char :: ·)
    -- With budget to spare, words to both sides may do; without, only the query's own side.
    (if 0 < budget || side == .lt then lo.near query budget else [])
      ++ here
      ++ (if 0 < budget || side == .gt then hi.near query budget else [])

end Node

end Lexicon.Ternary
