import Lexicon.Ternary.Node

namespace Lexicon.Ternary

/-!
# Pictures of a tree

* `Node.lines` — one line a node, indented by its depth, with the link that leads to it.
-/

namespace Node

/-- Line of a node: its link, its character, and a star where a word ends. -/
def line (link : Text) (depth : Nat) (char : Char) (isEnd : Bool) : Text :=
  List.replicate (2 * depth) ' ' ++ link ++ [' ', char] ++ if isEnd then ['*'] else []

/-- Lines of a subtree: its topmost node, then its subtrees one step further in. -/
def lines (link : Text) (depth : Nat) : Node → List Text
  | leaf => []
  | branch _ char isEnd lo eq hi =>
    line link depth char isEnd :: (lo.lines "lo".toList (depth + 1)
      ++ eq.lines "eq".toList (depth + 1) ++ hi.lines "hi".toList (depth + 1))

end Node

end Lexicon.Ternary
