import Lexicon.Source
import Lexicon.Text.Blank
import Lexicon.Text.Utf8

namespace Lexicon

/-!
# Queries on standard input

* `Queries.ofInput` — the trimmed lines that are not blank, up to the first that is not UTF-8.
-/

/-- The queries of an input, and whether a line that is not UTF-8 cut them short. -/
structure Queries where
  /-- The queries, in order. -/
  texts : List Text
  /-- Whether more may have followed. -/
  broken : Bool

namespace Queries

/-- The bytes up to the first line feed. -/
def firstLine (input : Bytes) : Bytes :=
  input.takeWhile (· != lineFeed)

/-- The bytes after the first line feed. -/
def laterLines (input : Bytes) : Bytes :=
  (input.dropWhile (· != lineFeed)).drop 1

theorem length_laterLines_lt {input : Bytes} (h : input ≠ []) :
    (laterLines input).length < input.length := by
  have hpos : 0 < input.length := List.length_pos_iff.mpr h
  have hle := (List.dropWhile_sublist (l := input) (· != lineFeed)).length_le
  simp only [laterLines, List.length_drop]
  omega

/-- Adds the queries of an input to those found before, which stand last one first. -/
def ofInputAfter (found : List Text) (input : Bytes) : Queries :=
  if h : input = [] then ⟨found.reverse, false⟩
  else
    match Utf8.decode? (firstLine input) with
    | none => ⟨found.reverse, true⟩
    | some line =>
      have := length_laterLines_lt h
      let query := trim line
      ofInputAfter (if query.isEmpty then found else query :: found) (laterLines input)
termination_by input.length

/-- The queries of an input, one a line. -/
def ofInput (input : Bytes) : Queries :=
  ofInputAfter [] input

end Queries

end Lexicon
