import Lexicon.Text.Basic

namespace Lexicon

/-!
# What paths lead to

* `Entry` — a file or a directory.  Both can be opened; that a directory has no bytes shows
  only when they are asked for.
-/

/-- What a path leads to. -/
inductive Entry where
  /-- A file, with its contents. -/
  | file (contents : Bytes)
  /-- A directory. -/
  | directory

end Lexicon
