import Lexicon.Text.Basic

namespace Lexicon

/-!
# Lines of a source

A word list file holds one word a line.  Lines end in a line feed, a carriage return or both
in that order.

* `Source` — bytes still to come, in the pieces in which they arrive.
* `Source.cut`, `Source.ofFile` — bytes in pieces of a given size, and those of a file.
* `Source.line?` — the first line of a source and what follows it.
* `Source.taken_of_line?` — the line and the rest hold all bytes, and the line at least one.
-/

/-- Bytes still to come, in the pieces in which they arrive. -/
abbrev Source := List Bytes

/-- Bytes still to come, in one piece. -/
def Source.bytes (source : Source) : Bytes :=
  source.flatten

theorem Source.length_drop_lt {size : Nat} {bytes : Bytes} (h : ¬(size = 0 ∨ bytes.length ≤ size)) :
    (bytes.drop size).length < bytes.length := by
  rw [List.length_drop]
  omega

/-- Cuts bytes into pieces of the given size, of which the last may be smaller.  Pieces of
    size zero would deliver nothing, so that size stands for a single piece. -/
def Source.cut (size : Nat) (bytes : Bytes) : Source :=
  if h : size = 0 ∨ bytes.length ≤ size then [bytes]
  else
    have := Source.length_drop_lt h
    bytes.take size :: Source.cut size (bytes.drop size)
termination_by bytes.length
decreasing_by assumption

/-- The number of bytes that arrive at once when a file is read. -/
def bufferSize : Nat := 0x2000

/-- Bytes of a file, in the pieces in which reading delivers them. -/
def Source.ofFile (bytes : Bytes) : Source :=
  Source.cut bufferSize bytes

/-- The line feed, which ends a line alone or after a carriage return. -/
def lineFeed : UInt8 := 0x0A

/-- The carriage return, which ends a line alone or before a line feed. -/
def carriageReturn : UInt8 := 0x0D

/-- Whether a byte ends a line. -/
def isTerminator (b : UInt8) : Bool :=
  b == lineFeed || b == carriageReturn

/-- Takes a line feed off the front, if one is there. -/
def Source.dropLineFeed? : Source → Option Source
  | [] => none
  | [] :: rest => Source.dropLineFeed? rest
  | (b :: piece) :: rest => if b == lineFeed then some (piece :: rest) else none

/-- A line taken off a source. -/
structure Line where
  /-- The bytes of the line, without its terminator. -/
  text : Bytes
  /-- The number of bytes taken, the terminator included. -/
  taken : Nat
  /-- What is left of the source. -/
  rest : Source

/-- Line that ends with the terminator `b`, which takes a line feed after a carriage return
    along, in the same piece or not. -/
def Line.ended (text : Bytes) (b : UInt8) (rest : Source) : Line :=
  if b == carriageReturn then
    match Source.dropLineFeed? rest with
    | some rest => ⟨text, text.length + 2, rest⟩
    | none => ⟨text, text.length + 1, rest⟩
  else ⟨text, text.length + 1, rest⟩

/-- Line that begins with `text` and goes on with what may follow it. -/
def Line.resumed (text : Bytes) : Option Line → Option Line
  | some line => some ⟨text ++ line.text, text.length + line.taken, line.rest⟩
  | none => if text.isEmpty then none else some ⟨text, text.length, []⟩

/-- Takes the first line off a source, or nothing when no byte is left. -/
def Source.line? : Source → Option Line
  | [] => none
  | piece :: rest =>
    let text := piece.takeWhile (!isTerminator ·)
    match piece.dropWhile (!isTerminator ·) with
    | b :: after => some (Line.ended text b (after :: rest))
    -- The piece ends before the line does.
    | [] => Line.resumed text (Source.line? rest)

theorem Source.size_of_dropLineFeed? {source rest : Source}
    (h : Source.dropLineFeed? source = some rest) :
    source.bytes.length = rest.bytes.length + 1 := by
  fun_induction Source.dropLineFeed? source with
  | case1 => simp at h
  | case2 source ih => simpa [Source.bytes] using ih h
  | case3 piece source b =>
    simp only [Option.some.injEq] at h
    subst h
    simp [Source.bytes]
  | case4 => simp at h

/-- The bytes of an ended line and of the rest add up. -/
theorem Line.taken_ended (text : Bytes) (b : UInt8) (rest : Source) :
    (Line.ended text b rest).taken + (Line.ended text b rest).rest.bytes.length
      = text.length + 1 + rest.bytes.length := by
  unfold Line.ended
  split
  · split
    · next h =>
      have := Source.size_of_dropLineFeed? h
      simp only
      omega
    · rfl
  · rfl

/-- Only an exhausted source has no line. -/
theorem Source.bytes_of_line?_eq_none {source : Source} (h : source.line? = none) :
    source.bytes = [] := by
  induction source with
  | nil => rfl
  | cons piece rest ih =>
    simp only [Source.line?] at h
    split at h
    · simp at h
    · next hdrop =>
      unfold Line.resumed at h
      split at h
      · simp at h
      · next hnone =>
        split at h
        · next hempty =>
          have hpiece := List.takeWhile_append_dropWhile (l := piece)
            (p := fun b => !isTerminator b)
          rw [hdrop, List.isEmpty_iff.mp hempty] at hpiece
          simp only [Source.bytes, List.flatten_cons, ← hpiece, List.append_nil]
          exact ih hnone
        · simp at h

/-- A line and the rest of its source hold all bytes of the source, and the line at least one. -/
theorem Source.taken_of_line? {source : Source} {line : Line} (h : source.line? = some line) :
    0 < line.taken ∧ line.taken + line.rest.bytes.length = source.bytes.length := by
  induction source generalizing line with
  | nil => simp [Source.line?] at h
  | cons piece rest ih =>
    have hsplit := congrArg List.length (List.takeWhile_append_dropWhile (l := piece)
      (p := fun b => !isTerminator b))
    simp only [List.length_append] at hsplit
    have htotal : Source.bytes (piece :: rest) = piece ++ Source.bytes rest := rfl
    simp only [Source.line?] at h
    split at h
    · next b after hdrop =>
      simp only [Option.some.injEq] at h
      have hended := Line.taken_ended (piece.takeWhile (!isTerminator ·)) b (after :: rest)
      rw [h] at hended
      have hafter : Source.bytes (after :: rest) = after ++ Source.bytes rest := rfl
      rw [hdrop] at hsplit
      simp only [htotal, hafter, List.length_append, List.length_cons] at *
      refine ⟨?_, by omega⟩
      rw [← h]
      unfold Line.ended
      repeat' split
      all_goals simp
    · next hdrop =>
      rw [hdrop] at hsplit
      simp only [List.length_nil, Nat.add_zero] at hsplit
      unfold Line.resumed at h
      split at h
      · next line' hrest =>
        have := ih hrest
        simp only [Option.some.injEq] at h
        subst h
        simp only [htotal, List.length_append]
        omega
      · next hnone =>
        split at h
        · simp at h
        · next hne =>
          simp only [Option.some.injEq] at h
          subst h
          have hlength : (piece.takeWhile (!isTerminator ·)).length ≠ 0 := by
            simpa using hne
          rw [htotal, Source.bytes_of_line?_eq_none hnone]
          simp only [List.append_nil, Source.bytes, List.flatten_nil, List.length_nil]
          omega

end Lexicon
