import Lexicon.Error
import Lexicon.Source

namespace Lexicon

/-!
# Reading words

Words are the lines of a source that are not blank.

* `Reader` — a source with the position and the line number that reading has reached.
* `Reader.next`, `Reader.skip` — reads the next word, or passes over words undecoded.
* `Reader.foldWords`, `Source.words` — all words that are left, or all of a source.
* `Reader.size_lt_of_next` — a word that is read takes bytes away.
-/

/-! ### Steps of a reader -/

/-- A source with the place that reading has reached. -/
structure Reader where
  /-- The bytes not yet taken. -/
  source : Source
  /-- The offset of the next byte from the start of the text. -/
  position : Nat
  /-- The number of lines taken, blank ones included. -/
  line : Nat

/-- Reader at the first line of a text. -/
def Reader.start (source : Source) : Reader :=
  ⟨source, 0, 0⟩

/-- Reader of a text whose source begins at an offset; lines are counted from there. -/
def Reader.startAt (source : Source) (position : Nat) : Reader :=
  ⟨source, position, 0⟩

/-- Number of bytes not yet taken. -/
def Reader.size (reader : Reader) : Nat :=
  reader.source.bytes.length

/-- Takes lines off up to the first that is not blank; answers with its offset and bytes. -/
def Reader.nextLine? (reader : Reader) : Option (Nat × Bytes) × Reader :=
  match h : reader.source.line? with
  | none => (none, reader)
  | some line =>
    have := Source.taken_of_line? h
    let after : Reader := ⟨line.rest, reader.position + line.taken, reader.line + 1⟩
    if line.text.isEmpty then after.nextLine? else (some (reader.position, line.text), after)
termination_by reader.source.bytes.length

/-- Reads the next word with the offset of its line.  A line that is not UTF-8 is an error, but
    it has been read: the next word comes from the lines after it. -/
def Reader.next (reader : Reader) : Except ListError (Option (Nat × Word)) × Reader :=
  match reader.nextLine? with
  | (none, after) => (.ok none, after)
  | (some (offset, text), after) =>
    match Utf8.decode? text with
    | some word => (.ok (some (offset, word)), after)
    | none => (.error (.badEncoding after.line), after)

/-- Passes over words without decoding them; answers with how many there were to pass over. -/
def Reader.skip : (count : Nat) → Reader → Nat × Reader
  | 0, reader => (0, reader)
  | count + 1, reader =>
    match reader.nextLine? with
    | (none, after) => (0, after)
    | (some _, after) =>
      let (skipped, last) := Reader.skip count after
      (skipped + 1, last)

theorem Reader.size_lt_of_nextLine? {reader after : Reader} {found : Nat × Bytes}
    (h : reader.nextLine? = (some found, after)) : after.size < reader.size := by
  fun_induction Reader.nextLine? reader with
  | case1 => simp at h
  | case2 reader line hline htaken next hblank ih =>
    have := ih h
    simp only [Reader.size, next] at *
    omega
  | case3 reader line hline htaken next hblank =>
    simp only [Prod.mk.injEq] at h
    rw [← h.2]
    simp only [Reader.size, next]
    omega

/-- A word that is read takes bytes away. -/
theorem Reader.size_lt_of_next {reader after : Reader} {found : Nat × Word}
    (h : reader.next = (.ok (some found), after)) : after.size < reader.size := by
  unfold Reader.next at h
  split at h
  · simp at h
  · next hline =>
    split at h
    · simp only [Prod.mk.injEq] at h
      rw [← h.2]
      exact Reader.size_lt_of_nextLine? hline
    · simp at h

/-! ### All words -/

/-- Feeds every word that is left to `step`, with its offset, up to the first error of the
    reader or of `step`. -/
def Reader.foldWords {β : Type} (step : β → Nat × Word → Except ListError β) (reader : Reader)
    (acc : β) : Except ListError β :=
  match h : reader.next with
  | (.error e, _) => .error e
  | (.ok none, _) => .ok acc
  | (.ok (some found), after) =>
    have := Reader.size_lt_of_next h
    match step acc found with
    | .error e => .error e
    | .ok acc => after.foldWords step acc
termination_by reader.size

/-- All words of a source, in order. -/
def Source.words (source : Source) : Except ListError (List Word) :=
  ((Reader.start source).foldWords (fun words (_, word) => .ok (word :: words)) []).map
    List.reverse

end Lexicon
