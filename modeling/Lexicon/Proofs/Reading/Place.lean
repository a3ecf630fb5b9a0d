import Lexicon.Proofs.Reading.Runs

namespace Lexicon

/-!
# The place of a reader

A reader keeps a position beside the bytes that it has yet to take, and the two never part:
what is left is the text from the position on.

* `terminatorLength` — the number of bytes of a line's end.
* `Line.Begins.text_eq`, `Line.Begins.taken_eq_of_bytes`, `Line.Begins.rest_eq` — a line,
  computed from the bytes that it begins.
* `Reader.nextLine?_induction` — induction over the blank lines that a reader passes over.
* `Reader.nextLine?_keeps`, `Reader.skip_keeps` — what every line that is taken keeps, reading and
  passing over keep.
* `Reader.Within` — a reader that has reached some place of a text.
* `Reader.Within.past`, `Reader.Within.next` — no line that is taken leaves the text.
* `Reader.Within.position_of_nextLine?_some` — behind a line that is found, the reader stands
  behind its terminator.
-/

/-! ### Lines of given bytes -/

/-- The number of bytes that end a line in front of the given ones: a carriage return takes a
    line feed behind it along, and nothing ends the last line. -/
def terminatorLength : Bytes → Nat
  | [] => 0
  | b :: rest => if b = carriageReturn ∧ rest.head? = some lineFeed then 2 else 1

/-- The ending of a line has the length that the bytes behind its text tell. -/
theorem LineEnding.length_eq {after ending : Bytes} (h : LineEnding after ending) :
    ending.length = terminatorLength (ending ++ after) := by
  cases h with
  | feed => rfl
  | both => rfl
  | alone hnone => simp [terminatorLength, hnone]
  | none hnil => subst hnil; rfl

namespace Line.Begins

variable {line : Line} {bytes ending : Bytes}

/-- The text of a line ends at the first terminator. -/
theorem text_eq (h : line.Begins bytes ending) : line.text = plainPart bytes := by
  rw [h.bytes_eq, List.append_assoc]
  exact (cut_plain h.text_plain h.head?_ending).1.symm

/-- What is left of the bytes behind a line. -/
theorem rest_eq (h : line.Begins bytes ending) : line.rest.bytes = bytes.drop line.taken := by
  rw [h.bytes_eq, h.taken_eq, ← List.length_append]
  exact List.drop_left.symm

/-- A line takes its text and its terminator. -/
theorem taken_eq_of_bytes (h : line.Begins bytes ending) :
    line.taken = line.text.length + terminatorLength (bytes.drop line.text.length) := by
  rw [h.taken_eq, h.ending.length_eq, h.bytes_eq, List.append_assoc]
  congr 2
  exact List.drop_left.symm

end Line.Begins

/-! ### Places in a text -/

/-- A reader that has reached some place of the text `bytes`, whose first byte stands at
    `start`. -/
structure Reader.Within (reader : Reader) (start : Nat) (bytes : Bytes) : Prop where
  /-- The text begins no later. -/
  start_le : start ≤ reader.position
  /-- The text ends no earlier. -/
  le_end : reader.position ≤ start + bytes.length
  /-- The bytes to come are those of the text from the position on. -/
  unread : reader.source.bytes = bytes.drop (reader.position - start)

namespace Reader

/-- The reader behind a line that it takes. -/
def past (reader : Reader) (line : Line) : Reader :=
  ⟨line.rest, reader.position + line.taken, reader.line + 1⟩

/-- A reader without a line stays where it is. -/
theorem nextLine?_of_none {reader : Reader} (h : reader.source.line? = none) :
    reader.nextLine? = (none, reader) := by
  rw [nextLine?]
  split
  · rfl
  · next line hline => simp [h] at hline

/-- A reader passes over its first line if that is blank. -/
theorem nextLine?_of_some {reader : Reader} {line : Line} (h : reader.source.line? = some line) :
    reader.nextLine? =
      if line.text.isEmpty then (reader.past line).nextLine?
      else (some (reader.position, line.text), reader.past line) := by
  rw [nextLine?]
  split
  · next hline => simp [h] at hline
  · next line' hline =>
    obtain rfl := Option.some.inj (h.symm.trans hline)
    rfl

/-- Reading a word leaves a reader where finding its line does. -/
theorem next_snd (reader : Reader) : reader.next.2 = reader.nextLine?.2 := by
  unfold next
  rcases reader.nextLine? with ⟨_ | ⟨offset, text⟩, after⟩
  · rfl
  · dsimp only
    cases Utf8.decode? text <;> rfl

/-- A reader looks past blank lines until it finds a line or none is left. -/
@[elab_as_elim]
theorem nextLine?_induction {motive : Reader → Prop}
    (done : ∀ reader, reader.source.line? = none → motive reader)
    (blank : ∀ reader line, reader.source.line? = some line → line.text.isEmpty = true →
      motive (reader.past line) → motive reader)
    (found : ∀ reader line, reader.source.line? = some line → ¬line.text.isEmpty = true →
      motive reader)
    (reader : Reader) : motive reader := by
  fun_induction nextLine? reader with
  | case1 reader hline => exact done reader hline
  | case2 reader line hline htaken next hblank ih => exact blank reader line hline hblank ih
  | case3 reader line hline htaken next hblank => exact found reader line hline hblank

section Keeps

variable (P : Reader → Prop)
  (hpast : ∀ reader line, reader.source.line? = some line → P reader → P (reader.past line))
  {reader : Reader}

include hpast

/-- What taking a line off keeps, looking for a line keeps. -/
theorem nextLine?_keeps (h : P reader) : P reader.nextLine?.2 := by
  induction reader using nextLine?_induction with
  | done reader hline => rwa [nextLine?_of_none hline]
  | blank reader line hline hblank ih =>
    rw [nextLine?_of_some hline, if_pos hblank]
    exact ih (hpast reader line hline h)
  | found reader line hline hfound =>
    rw [nextLine?_of_some hline, if_neg hfound]
    exact hpast reader line hline h

/-- So does reading, also where it fails. -/
theorem next_keeps (h : P reader) : P reader.next.2 := by
  rw [next_snd]
  exact nextLine?_keeps P hpast h

/-- So does passing over words. -/
theorem skip_keeps (h : P reader) (count : Nat) : P (skip count reader).2 := by
  induction count generalizing reader with
  | zero => exact h
  | succ count ih =>
    have hafter := nextLine?_keeps P hpast h
    rw [skip]
    split
    · next after hline => rwa [hline] at hafter
    · next found after hline =>
      rw [hline] at hafter
      exact ih hafter

end Keeps

namespace Within

variable {reader : Reader} {start : Nat} {bytes : Bytes}

theorem startAt (source : Source) (position : Nat) :
    (Reader.startAt source position).Within position source.bytes where
  start_le := Nat.le_refl position
  le_end := Nat.le_add_right position _
  unread := by
    show source.bytes = source.bytes.drop (position - position)
    rw [Nat.sub_self, List.drop_zero]

/-- Taking a line off moves on in the text. -/
theorem past (h : reader.Within start bytes) {line : Line}
    (hline : reader.source.line? = some line) : (reader.past line).Within start bytes := by
  obtain ⟨ending, hbegins⟩ := Source.begins_of_line? hline
  -- A line takes no more bytes than there are left.
  obtain ⟨-, htaken⟩ := Source.taken_of_line? hline
  have hstart := h.start_le
  have hend := h.le_end
  have hlength := congrArg List.length h.unread
  rw [List.length_drop] at hlength
  refine ⟨?_, ?_, ?_⟩
  · show start ≤ reader.position + line.taken
    omega
  · show reader.position + line.taken ≤ start + bytes.length
    omega
  · show line.rest.bytes = bytes.drop (reader.position + line.taken - start)
    rw [hbegins.rest_eq, h.unread, List.drop_drop]
    congr 1
    omega

/-- Reading moves on in the text, also where it fails. -/
theorem next (h : reader.Within start bytes) : reader.next.2.Within start bytes :=
  next_keeps (·.Within start bytes) (fun _ _ hline h => h.past hline) h

/-- A reader that finds no line has reached the end of the text. -/
theorem position_of_nextLine?_none (h : reader.Within start bytes) {after : Reader}
    (hline : reader.nextLine? = (none, after)) : after.position = start + bytes.length := by
  fun_induction Reader.nextLine? reader with
  | case1 reader hnone =>
    obtain ⟨-, rfl⟩ := Prod.mk.inj hline
    have hlength := congrArg List.length h.unread
    -- No bytes are left, so the position is behind all of them, and it is not further.
    rw [Source.bytes_of_line?_eq_none hnone, List.length_drop, List.length_nil] at hlength
    have hstart := h.start_le
    have hend := h.le_end
    omega
  | case2 reader line hsome htaken next hblank ih => exact ih (h.past hsome) hline
  | case3 => simp at hline

/-- A line that is found begins at its offset and ends behind its terminator. -/
theorem position_of_nextLine?_some (h : reader.Within start bytes) {offset : Nat} {text : Bytes}
    {after : Reader} (hline : reader.nextLine? = (some (offset, text), after)) :
    after.position =
      offset + text.length + terminatorLength (bytes.drop (offset - start + text.length)) := by
  fun_induction Reader.nextLine? reader with
  | case1 => simp at hline
  | case2 reader line hsome htaken next hblank ih => exact ih (h.past hsome) hline
  | case3 reader line hsome htaken next hblank =>
    obtain ⟨hfound, rfl⟩ := Prod.mk.inj hline
    obtain ⟨rfl, rfl⟩ := Prod.mk.inj (Option.some.inj hfound)
    obtain ⟨ending, hbegins⟩ := Source.begins_of_line? hsome
    show reader.position + line.taken = _
    rw [hbegins.taken_eq_of_bytes, h.unread, List.drop_drop, Nat.add_assoc]

end Within

end Reader

end Lexicon
