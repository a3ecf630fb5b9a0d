import Lexicon.Text.Basic

namespace Lexicon

/-!
# The tools and their help

* `Tool` — the three tools.
* `Tool.help` — what a tool says about itself.
-/

/-- A program on the command line. -/
inductive Tool where
  /-- Looks words up. -/
  | search
  /-- Lists the words that match a pattern. -/
  | matching
  /-- Lists the words near a word. -/
  | near

/-- Text of some lines, each of them ended. -/
def linesText (lines : List String) : Text :=
  lines.flatMap fun line => line.toList ++ ['\n']

/-- What a tool says about itself. -/
def Tool.help : Tool → Text
  | search => linesText [
      "wordcheck-search: Check words against a word list.",
      "",
      "Usage: wordcheck-search [-d WORDLIST] [OPTIONS] [WORD...]",
      "",
      "If WORD arguments are given, checks each word.",
      "Otherwise reads words from stdin (one per line). Prints:",
      "  Y: word    (known word)",
      "  N: word    (not found)",
      "",
      "Options:",
      "  -d, --dict-path PATH  Sorted word list (default: $WORDCHECK_WORDLIST)",
      "  --backend NAME        array, file, mmap, tree or bloom (default: file)",
      "  --ignore-case         Compare words case-insensitively",
      "  --cache-percent N     Share of file offsets to cache (default: 5)",
      "  --median              Build trees in median order",
      "  -h, --help            Print this help"]
  | matching => linesText [
      "wordcheck-partial: Wildcard search over a word list.",
      "",
      "Usage: wordcheck-partial [-d WORDLIST] [OPTIONS] [PATTERN...]",
      "",
      "A '.' in a pattern matches any single character.",
      "If PATTERN arguments are given, searches each pattern.",
      "Otherwise reads patterns from stdin (one per line).",
      "",
      "Options:",
      "  -d, --dict-path PATH  Sorted word list (default: $WORDCHECK_WORDLIST)",
      "  --cache-percent N     Share of file offsets to cache (default: 5)",
      "  --median              Build the tree in median order",
      "  -h, --help            Print this help"]
  | near => linesText [
      "wordcheck-near: Find words close to a query word.",
      "",
      "Usage: wordcheck-near [-d WORDLIST] [OPTIONS] [WORD...]",
      "",
      "If WORD arguments are given, searches near each word.",
      "Otherwise reads words from stdin (one per line).",
      "",
      "Options:",
      "  -d, --dict-path PATH  Sorted word list (default: $WORDCHECK_WORDLIST)",
      "  -n, --distance N      Distance budget (default: 1)",
      "  --cache-percent N     Share of file offsets to cache (default: 5)",
      "  --median              Build the tree in median order",
      "  -h, --help            Print this help"]

end Lexicon
