import Lexicon.Order
import Mathlib.Data.List.Basic

namespace Lexicon

/-!
# The lines of a text

A text is cut at every line feed and every carriage return.  What stands between two cuts is a
line, unless nothing does.

* `pieces` — the parts of a list between its separators; `pieces_append_cons` tells what one
  separator makes of them, and all else follows.
* `isBreak`, `linesOf` — the characters that end lines, and the lines of a text.
* `LaidOut` — words in a text, one on a line, with any line ends and any blank lines.
* `LaidOut.linesOf_eq` — the lines of such a text are the words.
-/

/-! ### Pieces -/

section Pieces

variable {α : Type} {p : α → Bool}

/-- A list that goes on behind members without a separator is cut where it goes on. -/
theorem splitOnP_append_of_forall {front : List α} (h : ∀ a ∈ front, p a = false)
    (back : List α) :
    (front ++ back).splitOnP p = (back.splitOnP p).modifyHead (front ++ ·) := by
  induction front with
  | nil => cases hback : back.splitOnP p <;> simp [hback]
  | cons a front ih =>
    obtain ⟨ha, hfront⟩ := List.forall_mem_cons.mp h
    rw [List.cons_append, List.splitOnP_cons_eq_if_modifyHead, if_neg (by simp [ha]), ih hfront,
      List.modifyHead_modifyHead]
    rfl

/-- The parts of a list between the members that `p` holds of, the empty ones left out. -/
def pieces (p : α → Bool) (l : List α) : List (List α) :=
  (l.splitOnP p).filter (!·.isEmpty)

@[simp] theorem pieces_nil (p : α → Bool) : pieces p [] = [] := rfl

/-- The pieces in front of a separator and those behind it are found apart. -/
theorem pieces_append_cons {sep : α} (hsep : p sep = true) (front back : List α) :
    pieces p (front ++ sep :: back) = pieces p front ++ pieces p back := by
  unfold pieces
  rw [List.splitOnP_append_cons front back hsep, List.filter_append]

/-- A separator in front belongs to no piece. -/
theorem pieces_cons {sep : α} (hsep : p sep = true) (back : List α) :
    pieces p (sep :: back) = pieces p back :=
  pieces_append_cons hsep [] back

/-- A list without a separator is one piece. -/
theorem pieces_plain {piece : List α} (hne : piece ≠ []) (hplain : ∀ a ∈ piece, p a = false) :
    pieces p piece = [piece] := by
  unfold pieces
  rw [List.splitOnP_eq_singleton hplain]
  simp [hne]

/-- A list without a separator is a piece of what it begins, if it goes on with a separator. -/
theorem pieces_plain_append {piece rest : List α} (hne : piece ≠ [])
    (hplain : ∀ a ∈ piece, p a = false) (hrest : ∀ a ∈ rest.head?, p a = true) :
    pieces p (piece ++ rest) = piece :: pieces p rest := by
  cases rest with
  | nil => rw [List.append_nil, pieces_plain hne hplain, pieces_nil]
  | cons sep rest =>
    have hsep : p sep = true := hrest sep rfl
    rw [pieces_append_cons hsep, pieces_cons hsep, pieces_plain hne hplain, List.singleton_append]

end Pieces

/-! ### Lines -/

/-- Whether a character ends a line. -/
def isBreak (c : Char) : Bool :=
  c == '\n' || c == '\r'

theorem isBreak_iff {c : Char} : isBreak c = true ↔ c = '\n' ∨ c = '\r' := by
  simp [isBreak]

/-- What stands between the breaks of a text, where anything does. -/
def linesOf (text : Text) : List Text :=
  pieces isBreak text

/-- What ends a line: a line feed, a carriage return, or both. -/
inductive LineBreak where
  | feed
  | carriage
  | both

/-- The characters of a line's end. -/
def LineBreak.text : LineBreak → Text
  | feed => ['\n']
  | carriage => ['\r']
  | both => ['\r', '\n']

/-- A line's end belongs to no line. -/
theorem LineBreak.linesOf_append (ending : LineBreak) (text : Text) :
    linesOf (ending.text ++ text) = linesOf text := by
  cases ending with
  | feed => exact pieces_cons rfl text
  | carriage => exact pieces_cons rfl text
  -- Between its two characters there is a piece, but an empty one.
  | both => exact (pieces_cons rfl _).trans (pieces_cons rfl text)

/-- A line's end begins with a break. -/
theorem LineBreak.isBreak_head (ending : LineBreak) (text : Text) :
    ∀ c ∈ (ending.text ++ text).head?, isBreak c = true := by
  cases ending <;> simp [LineBreak.text, isBreak]

/-- Words in a text, one on a line.  Any line may end in any way, the last one in none, and blank
    lines may stand anywhere. -/
inductive LaidOut : List Word → Text → Prop where
  /-- No words in no text. -/
  | nothing : LaidOut [] []
  /-- A word at the end of the text. -/
  | last (word : Word) : LaidOut [word] word
  /-- A word on a line of its own, in front of others. -/
  | line (word : Word) (ending : LineBreak) {words : List Word} {text : Text}
      (h : LaidOut words text) : LaidOut (word :: words) (word ++ (ending.text ++ text))
  /-- A blank line in front of words. -/
  | blank (ending : LineBreak) {words : List Word} {text : Text} (h : LaidOut words text) :
      LaidOut words (ending.text ++ text)

/-- The lines of a text are the words that are laid out in it. -/
theorem LaidOut.linesOf_eq {words : List Word} {text : Text} (h : LaidOut words text)
    (hwords : ∀ word ∈ words, word ≠ [] ∧ ∀ c ∈ word, isBreak c = false) :
    linesOf text = words := by
  induction h with
  | nothing => rfl
  | last word =>
    obtain ⟨hne, hplain⟩ := hwords word List.mem_cons_self
    exact pieces_plain hne hplain
  | @line word ending words text h ih =>
    obtain ⟨⟨hne, hplain⟩, hlater⟩ := List.forall_mem_cons.mp hwords
    -- The end of the line cuts the word off, and belongs to no other.
    have hrest : linesOf (ending.text ++ text) = words :=
      (ending.linesOf_append text).trans (ih hlater)
    rw [linesOf, pieces_plain_append hne hplain (ending.isBreak_head text)]
    exact congrArg (word :: ·) hrest
  | blank ending h ih => exact (ending.linesOf_append _).trans (ih hwords)

end Lexicon
