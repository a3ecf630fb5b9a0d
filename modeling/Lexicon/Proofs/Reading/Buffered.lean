import Lexicon.Proofs.Reading.Pieces

namespace Lexicon

/-!
# Readers with a buffer

A reader gathers the bytes of a line, as they arrive, in a buffer that it keeps.  Reading a word
moves the buffer out, and passing over words leaves the last line in it; either way nothing of what
it holds shows in any later step.

* `Source.gatherLine` — the bytes of a line, gathered piece by piece; `Source.gatherLine_eq`.
* `BufferedReader` — a reader with the buffer, and its steps.
* `BufferedReader.nextLine_spec` — it finds the lines that a reader without the buffer finds.
* `Reader.Alike.next_buffered`, `Reader.Alike.skip_buffered` — its steps are those of a reader at
  the same place, whatever is in the buffer.
-/

/-! ### Gathering a line -/

/-- Gathers the bytes of the first line behind those in the buffer, and counts the bytes that it
    takes.  Without a byte taken there is no count. -/
def Source.gatherLine : Source → (buffer : Bytes) → (taken : Nat) → Option Nat × Bytes × Source
  | [], buffer, taken => (if 0 < taken then some taken else none, buffer, [])
  | piece :: rest, buffer, taken =>
    let text := piece.takeWhile (!isTerminator ·)
    match piece.dropWhile (!isTerminator ·) with
    | b :: after =>
      let taken := taken + text.length + 1
      if b == carriageReturn then
        match Source.dropLineFeed? (after :: rest) with
        | some rest => (some (taken + 1), buffer ++ text, rest)
        | none => (some taken, buffer ++ text, after :: rest)
      else (some taken, buffer ++ text, after :: rest)
    | [] => Source.gatherLine rest (buffer ++ piece) (taken + piece.length)

/-- What is gathered is the line, behind what was gathered before. -/
theorem Source.gatherLine_eq (source : Source) (buffer : Bytes) (taken : Nat) :
    source.gatherLine buffer taken =
      match source.line? with
      | some line => (some (taken + line.taken), buffer ++ line.text, line.rest)
      | none => (if 0 < taken then some taken else none, buffer, []) := by
  induction source generalizing buffer taken with
  | nil => rfl
  | cons piece rest ih =>
    have hpiece := List.takeWhile_append_dropWhile (l := piece) (p := fun b => !isTerminator b)
    rw [gatherLine, line?]
    cases hdrop : piece.dropWhile (!isTerminator ·) with
    | cons b after =>
      dsimp only
      unfold Line.ended
      split_ifs
      · cases Source.dropLineFeed? (after :: rest) <;> simp [Nat.add_assoc]
      · simp [Nat.add_assoc]
    | nil =>
      -- The piece ends within the line, so that all of it goes into the buffer.
      rw [hdrop, List.append_nil] at hpiece
      simp only [ih, hpiece]
      cases hline : Source.line? rest with
      | some line => simp [Line.resumed, Nat.add_assoc]
      | none =>
        cases piece with
        | nil => simp [Line.resumed]
        | cons b piece => simp [Line.resumed]

/-! ### Steps -/

/-- A reader with the buffer in which it gathers lines. -/
structure BufferedReader where
  /-- The place that reading has reached. -/
  reader : Reader
  /-- What the last step has left in the buffer. -/
  buffer : Bytes

namespace BufferedReader

theorem size_lt_of_gatherLine {source rest : Source} {buffer : Bytes} {taken : Nat}
    (h : source.gatherLine [] 0 = (some taken, buffer, rest)) :
    rest.bytes.length < source.bytes.length := by
  rw [Source.gatherLine_eq] at h
  cases hline : source.line? with
  | none => simp [hline] at h
  | some line =>
    simp only [hline, Prod.mk.injEq] at h
    have htaken := Source.taken_of_line? hline
    rw [h.2.2] at htaken
    omega

/-- Gathers lines up to the first that is not blank, which stays in the buffer; answers with its
    offset. -/
def nextLine (buffered : BufferedReader) : Option Nat × BufferedReader :=
  match h : buffered.reader.source.gatherLine [] 0 with
  | (none, buffer, rest) => (none, ⟨{ buffered.reader with source := rest }, buffer⟩)
  | (some taken, buffer, rest) =>
    have := size_lt_of_gatherLine h
    let after : BufferedReader :=
      ⟨⟨rest, buffered.reader.position + taken, buffered.reader.line + 1⟩, buffer⟩
    if buffer.isEmpty then after.nextLine else (some buffered.reader.position, after)
termination_by buffered.reader.source.bytes.length

/-- Reads the next word.  The buffer is moved out before it is decoded, and stays empty also where
    that fails. -/
def next (buffered : BufferedReader) : Except ListError (Option (Nat × Word)) × BufferedReader :=
  match buffered.nextLine with
  | (none, after) => (.ok none, after)
  | (some offset, after) =>
    let answer :=
      match Utf8.decode? after.buffer with
      | some word => .ok (some (offset, word))
      | none => .error (.badEncoding after.reader.line)
    (answer, ⟨after.reader, []⟩)

/-- Passes over as many words as are still to be passed over, when some have been. -/
def skipFrom (skipped : Nat) : (left : Nat) → BufferedReader → Nat × BufferedReader
  | 0, buffered => (skipped, buffered)
  | left + 1, buffered =>
    match buffered.nextLine with
    | (none, after) => (skipped, after)
    | (some _, after) => skipFrom (skipped + 1) left after

/-- Passes over words; answers with how many there were to pass over. -/
def skip (count : Nat) (buffered : BufferedReader) : Nat × BufferedReader :=
  skipFrom 0 count buffered

/-! ### Lines -/

theorem nextLine_of_none {buffered : BufferedReader} (h : buffered.reader.source.line? = none) :
    buffered.nextLine = (none, ⟨{ buffered.reader with source := [] }, []⟩) := by
  have hgather := buffered.reader.source.gatherLine_eq [] 0
  rw [h] at hgather
  rw [nextLine]
  split
  · next hnone =>
    obtain ⟨-, rfl, rfl⟩ := Prod.mk.inj (hnone.symm.trans hgather)
    rfl
  · next hsome => simp [hgather] at hsome

theorem nextLine_of_some {buffered : BufferedReader} {line : Line}
    (h : buffered.reader.source.line? = some line) :
    buffered.nextLine =
      if line.text.isEmpty then nextLine ⟨buffered.reader.past line, line.text⟩
      else (some buffered.reader.position, ⟨buffered.reader.past line, line.text⟩) := by
  have hgather := buffered.reader.source.gatherLine_eq [] 0
  rw [h] at hgather
  simp only [Nat.zero_add, List.nil_append] at hgather
  rw [nextLine]
  split
  · next hnone => simp [hgather] at hnone
  · next hsome =>
    simp only [hgather, Prod.mk.injEq, Option.some.injEq] at hsome
    obtain ⟨rfl, rfl, rfl⟩ := hsome
    rfl

/-- **Lines are found as without a buffer.** Whatever is in the buffer, the reader finds the same
    line, which is in the buffer then, and comes to stand at the same place. -/
theorem nextLine_spec (reader : Reader) (buffer : Bytes) :
    (nextLine ⟨reader, buffer⟩).1 = reader.nextLine?.1.map Prod.fst ∧
      (nextLine ⟨reader, buffer⟩).2.reader.Alike reader.nextLine?.2 ∧
      ∀ found ∈ reader.nextLine?.1, (nextLine ⟨reader, buffer⟩).2.buffer = found.2 := by
  induction reader using Reader.nextLine?_induction generalizing buffer with
  | done reader hline =>
    -- The source may be left in other pieces, but there is no byte in them.
    rw [nextLine_of_none hline, Reader.nextLine?_of_none hline]
    exact ⟨rfl, ⟨(Source.bytes_of_line?_eq_none hline).symm, rfl, rfl⟩, nofun⟩
  | blank reader line hline hblank ih =>
    rw [nextLine_of_some hline, Reader.nextLine?_of_some hline, if_pos hblank, if_pos hblank]
    exact ih line.text
  | found reader line hline hfound =>
    rw [nextLine_of_some hline, Reader.nextLine?_of_some hline, if_neg hfound, if_neg hfound]
    refine ⟨rfl, ⟨rfl, rfl, rfl⟩, fun found hrun => ?_⟩
    obtain rfl := Option.mem_some_iff.mp hrun
    rfl

end BufferedReader

/-! ### Readers at the same place -/

namespace Reader.Alike

variable {buffered : BufferedReader} {reader : Reader}

theorem trans {a b c : Reader} (hab : a.Alike b) (hbc : b.Alike c) : a.Alike c :=
  ⟨hab.bytes_eq.trans hbc.bytes_eq, hab.position_eq.trans hbc.position_eq,
    hab.line_eq.trans hbc.line_eq⟩

theorem nextLine_buffered (h : buffered.reader.Alike reader) :
    buffered.nextLine.1 = reader.nextLine?.1.map Prod.fst ∧
      buffered.nextLine.2.reader.Alike reader.nextLine?.2 ∧
      ∀ found ∈ reader.nextLine?.1, buffered.nextLine.2.buffer = found.2 := by
  obtain ⟨hfound, hafter⟩ := h.nextLine?
  obtain ⟨hoffset, hplace, hbuffer⟩ :=
    BufferedReader.nextLine_spec buffered.reader buffered.buffer
  rw [hfound] at hoffset hbuffer
  exact ⟨hoffset, hplace.trans hafter, hbuffer⟩

/-- A reader with a buffer reads the word, or fails, as one without. -/
theorem next_buffered (h : buffered.reader.Alike reader) :
    buffered.next.1 = reader.next.1 ∧ buffered.next.2.reader.Alike reader.next.2 := by
  obtain ⟨hoffset, hafter, hbuffer⟩ := h.nextLine_buffered
  unfold BufferedReader.next Reader.next
  rcases hline : reader.nextLine? with ⟨found, after⟩
  rcases hbuffered : buffered.nextLine with ⟨offset, after'⟩
  rw [hline, hbuffered] at hoffset hafter hbuffer
  cases found with
  | none =>
    obtain rfl : offset = none := hoffset
    exact ⟨rfl, hafter⟩
  | some found =>
    obtain rfl : offset = some found.1 := hoffset
    -- The word is decoded from the buffer, which holds nothing but the line.
    have htext : after'.buffer = found.2 := hbuffer found rfl
    dsimp only
    rw [htext]
    cases Utf8.decode? found.2 with
    | none => exact ⟨congrArg (Except.error <| ListError.badEncoding ·) hafter.line_eq, hafter⟩
    | some word => exact ⟨rfl, hafter⟩

theorem skipFrom_buffered (h : buffered.reader.Alike reader) (skipped count : Nat) :
    (BufferedReader.skipFrom skipped count buffered).1 = skipped + (Reader.skip count reader).1 ∧
      (BufferedReader.skipFrom skipped count buffered).2.reader.Alike
        (Reader.skip count reader).2 := by
  induction count generalizing skipped buffered reader with
  | zero => exact ⟨rfl, h⟩
  | succ count ih =>
    obtain ⟨hoffset, hafter, -⟩ := h.nextLine_buffered
    rw [BufferedReader.skipFrom, Reader.skip]
    rcases hline : reader.nextLine? with ⟨found, after⟩
    rcases hbuffered : buffered.nextLine with ⟨offset, after'⟩
    rw [hline, hbuffered] at hoffset hafter
    cases found with
    | none =>
      obtain rfl : offset = none := hoffset
      exact ⟨rfl, hafter⟩
    | some found =>
      obtain rfl : offset = some found.1 := hoffset
      obtain ⟨hskipped, hlast⟩ := ih hafter (skipped + 1)
      refine ⟨?_, hlast⟩
      show (BufferedReader.skipFrom (skipped + 1) count after').1
        = skipped + ((Reader.skip count after).1 + 1)
      rw [hskipped, Nat.add_assoc, Nat.add_comm 1]

/-- A reader with a buffer passes over as many words as one without. -/
theorem skip_buffered (h : buffered.reader.Alike reader) (count : Nat) :
    (buffered.skip count).1 = (Reader.skip count reader).1 ∧
      (buffered.skip count).2.reader.Alike (Reader.skip count reader).2 := by
  obtain ⟨hskipped, hlast⟩ := h.skipFrom_buffered 0 count
  rw [Nat.zero_add] at hskipped
  exact ⟨hskipped, hlast⟩

end Reader.Alike

end Lexicon
