import Lexicon.Proofs.Reading.Place
import Lexicon.Proofs.Reading.Steps

namespace Lexicon

/-!
# Pieces make no difference

In which pieces the bytes of a text arrive shows in nothing that a reader does, and no byte is
lost on the way.

* `Source.line?_alike` — sources of the same bytes begin with the same line.
* `Reader.Alike` — readers at the same place with the same bytes to come, in whatever pieces.
* `Reader.Alike.next`, `Reader.Alike.skip`, `Reader.Alike.foldWords` — no step and no run over
  all words tells such readers apart.
* `Reader.Step`, `Reader.afterSteps`, `Reader.observe` — any steps, the reader that they leave and
  all that can be seen of it.
* `Reader.observe_pieces` — what is seen depends on the bytes alone, and the bytes to come are
  always those of the text from the position on.
-/

/-! ### Lines -/

/-- Sources of the same bytes end at once, or begin with the same line and go on with the same
    bytes. -/
theorem Source.line?_alike {source source' : Source} (h : source.bytes = source'.bytes) :
    (source.line? = none ∧ source'.line? = none) ∨
      ∃ line line', source.line? = some line ∧ source'.line? = some line' ∧
        line.text = line'.text ∧ line.taken = line'.taken ∧ line.rest.bytes = line'.rest.bytes := by
  cases hline : source.line? with
  | none =>
    cases hline' : source'.line? with
    | none => exact .inl ⟨rfl, rfl⟩
    | some line' =>
      -- A line takes at least one byte, and here there is none.
      have htaken := Source.taken_of_line? hline'
      rw [← h, Source.bytes_of_line?_eq_none hline, List.length_nil] at htaken
      omega
  | some line =>
    cases hline' : source'.line? with
    | none =>
      have htaken := Source.taken_of_line? hline
      rw [h, Source.bytes_of_line?_eq_none hline', List.length_nil] at htaken
      omega
    | some line' =>
      -- Text, length and rest of a line are functions of the bytes that it begins.
      obtain ⟨ending, hbegins⟩ := Source.begins_of_line? hline
      obtain ⟨ending', hbegins'⟩ := Source.begins_of_line? hline'
      rw [← h] at hbegins'
      have htext : line.text = line'.text := hbegins.text_eq.trans hbegins'.text_eq.symm
      have htaken : line.taken = line'.taken := by
        rw [hbegins.taken_eq_of_bytes, hbegins'.taken_eq_of_bytes, htext]
      refine .inr ⟨line, line', rfl, rfl, htext, htaken, ?_⟩
      rw [hbegins.rest_eq, hbegins'.rest_eq, htaken]

/-- A carriage return takes a line feed along that arrives in a later piece. -/
example : (Source.line? [[0x61, carriageReturn], [], [lineFeed, 0x62]]).map Line.taken
    = some 3 := by
  decide

/-! ### Steps -/

namespace Reader

/-- Readers that stand at the same place, with the same bytes to come. -/
structure Alike (reader reader' : Reader) : Prop where
  /-- The bytes to come are the same, though the pieces may differ. -/
  bytes_eq : reader.source.bytes = reader'.source.bytes
  /-- The positions are the same. -/
  position_eq : reader.position = reader'.position
  /-- As many lines have been taken. -/
  line_eq : reader.line = reader'.line

namespace Alike

variable {reader reader' : Reader}

/-- A line that one reader takes, the other takes as well. -/
theorem exists_line (h : reader.Alike reader') {line : Line}
    (hline : reader.source.line? = some line) :
    ∃ line', reader'.source.line? = some line' ∧ line.text = line'.text ∧
      (reader.past line).Alike (reader'.past line') := by
  obtain ⟨hnone, -⟩ | ⟨_, line', hsome, hline', htext, htaken, hrest⟩ :=
    Source.line?_alike h.bytes_eq
  · simp [hline] at hnone
  · obtain rfl := Option.some.inj (hline.symm.trans hsome)
    exact ⟨line', hline', htext, hrest, congrArg₂ (· + ·) h.position_eq htaken,
      congrArg (· + 1) h.line_eq⟩

/-- Readers that are alike find the same line, and are alike behind it. -/
theorem nextLine? (h : reader.Alike reader') :
    reader.nextLine?.1 = reader'.nextLine?.1 ∧ reader.nextLine?.2.Alike reader'.nextLine?.2 := by
  induction reader using nextLine?_induction generalizing reader' with
  | done reader hline =>
    obtain ⟨-, hline'⟩ | ⟨_, _, hsome, -⟩ := Source.line?_alike h.bytes_eq
    · rw [nextLine?_of_none hline, nextLine?_of_none hline']
      exact ⟨rfl, h⟩
    · simp [hline] at hsome
  | blank reader line hline hblank ih =>
    obtain ⟨line', hline', htext, hpast⟩ := h.exists_line hline
    rw [nextLine?_of_some hline, if_pos hblank, nextLine?_of_some hline', ← htext, if_pos hblank]
    exact ih hpast
  | found reader line hline hfound =>
    obtain ⟨line', hline', htext, hpast⟩ := h.exists_line hline
    rw [nextLine?_of_some hline, if_neg hfound, nextLine?_of_some hline', ← htext, if_neg hfound,
      h.position_eq]
    exact ⟨rfl, hpast⟩

/-- Readers that are alike read the same word, or fail in the same way. -/
theorem next (h : reader.Alike reader') :
    reader.next.1 = reader'.next.1 ∧ reader.next.2.Alike reader'.next.2 := by
  obtain ⟨hfound, hafter⟩ := h.nextLine?
  unfold Reader.next
  rcases hline : reader.nextLine? with ⟨found, after⟩
  rcases hline' : reader'.nextLine? with ⟨found', after'⟩
  rw [hline, hline'] at hfound hafter
  obtain rfl : found = found' := hfound
  cases found with
  | none => exact ⟨rfl, hafter⟩
  | some run =>
    dsimp only
    cases Utf8.decode? run.2 with
    -- The error tells how many lines were taken, which is the same number for both.
    | none => exact ⟨congrArg (Except.error <| ListError.badEncoding ·) hafter.line_eq, hafter⟩
    | some word => exact ⟨rfl, hafter⟩

/-- Readers that are alike pass over as many words. -/
theorem skip (h : reader.Alike reader') (count : Nat) :
    (Reader.skip count reader).1 = (Reader.skip count reader').1 ∧
      (Reader.skip count reader).2.Alike (Reader.skip count reader').2 := by
  induction count generalizing reader reader' with
  | zero => exact ⟨rfl, h⟩
  | succ count ih =>
    obtain ⟨hfound, hafter⟩ := h.nextLine?
    rw [Reader.skip, Reader.skip]
    rcases hline : reader.nextLine? with ⟨found, after⟩
    rcases hline' : reader'.nextLine? with ⟨found', after'⟩
    rw [hline, hline'] at hfound hafter
    obtain rfl : found = found' := hfound
    cases found with
    | none => exact ⟨rfl, hafter⟩
    | some run =>
      obtain ⟨hskipped, hlast⟩ := ih hafter
      exact ⟨congrArg (· + 1) hskipped, hlast⟩

/-- What one reader reads, the other reads as well. -/
theorem exists_next (h : reader.Alike reader') {found : Except ListError (Option (Nat × Word))}
    {after : Reader} (hnext : reader.next = (found, after)) :
    ∃ after', reader'.next = (found, after') ∧ after.Alike after' := by
  obtain ⟨hfound, hafter⟩ := h.next
  rw [hnext] at hfound hafter
  exact ⟨reader'.next.2, Prod.ext hfound.symm rfl, hafter⟩

/-- Readers that are alike feed the same words, and fail in the same way. -/
theorem foldWords {β : Type} (h : reader.Alike reader')
    (step : β → Nat × Word → Except ListError β) (acc : β) :
    reader.foldWords step acc = reader'.foldWords step acc := by
  fun_induction Reader.foldWords step reader acc generalizing reader' with
  | case1 reader acc e after hnext =>
    obtain ⟨after', hnext', -⟩ := h.exists_next hnext
    rw [foldWords_eq, hnext']
  | case2 reader acc after hnext =>
    obtain ⟨after', hnext', -⟩ := h.exists_next hnext
    rw [foldWords_eq, hnext']
  | case3 reader acc found after hnext hsize e hstep =>
    obtain ⟨after', hnext', -⟩ := h.exists_next hnext
    rw [foldWords_eq, hnext']
    show Except.error e = step acc found >>= _
    rw [hstep]
    rfl
  | case4 reader acc found after hnext hsize acc' hstep ih =>
    obtain ⟨after', hnext', hafter⟩ := h.exists_next hnext
    rw [foldWords_eq step reader', hnext']
    show _ = step acc found >>= after'.foldWords step
    rw [hstep]
    exact ih hafter

end Alike

/-! ### Observations -/

/-- A step that a user of a reader can take. -/
inductive Step where
  /-- Reads the next word. -/
  | next
  /-- Passes over words. -/
  | skip (count : Nat)

/-- What a step answers. -/
inductive Answer where
  /-- A word with its offset, the end of the text, or an error. -/
  | word (found : Except ListError (Option (Nat × Word)))
  /-- The number of words passed over. -/
  | skipped (count : Nat)

/-- Takes a step. -/
def step (reader : Reader) : Step → Answer × Reader
  | .next => (.word reader.next.1, reader.next.2)
  | .skip count => (.skipped (skip count reader).1, (skip count reader).2)

/-- The reader after some steps, whatever they answered. -/
def afterSteps (reader : Reader) (steps : List Step) : Reader :=
  steps.foldl (fun reader s => (reader.step s).2) reader

/-- What can be seen after a step. -/
structure Seen where
  /-- The answer of the step. -/
  answer : Answer
  /-- The position that the reader has reached. -/
  position : Nat
  /-- The bytes that are left to whoever takes the source back. -/
  unread : Bytes

/-- Takes steps one after the other, whatever they answer, and tells what is seen after each. -/
def observe (reader : Reader) : List Step → List Seen
  | [] => []
  | s :: steps =>
    let (answer, after) := reader.step s
    ⟨answer, after.position, after.source.bytes⟩ :: after.observe steps

/-- A step shows the same of readers that are alike, which stay alike. -/
theorem Alike.step {reader reader' : Reader} (h : reader.Alike reader') (s : Step) :
    (reader.step s).1 = (reader'.step s).1 ∧ (reader.step s).2.Alike (reader'.step s).2 := by
  cases s with
  | next => exact ⟨congrArg Answer.word h.next.1, h.next.2⟩
  | skip count => exact ⟨congrArg Answer.skipped (h.skip count).1, (h.skip count).2⟩

/-- Readers that are alike show the same under any steps. -/
theorem Alike.observe {reader reader' : Reader} (h : reader.Alike reader') (steps : List Step) :
    reader.observe steps = reader'.observe steps := by
  induction steps generalizing reader reader' with
  | nil => rfl
  | cons s steps ih =>
    obtain ⟨hanswer, hafter⟩ := h.step s
    rw [Reader.observe, Reader.observe]
    dsimp only
    rw [hanswer, hafter.position_eq, hafter.bytes_eq, ih hafter]

/-- What taking a line off keeps, every step keeps. -/
theorem step_keeps (P : Reader → Prop)
    (hpast : ∀ reader line, reader.source.line? = some line → P reader → P (reader.past line))
    {reader : Reader} (h : P reader) (s : Step) : P (reader.step s).2 := by
  cases s with
  | next => exact next_keeps P hpast h
  | skip count => exact skip_keeps P hpast h count

/-- So do any steps, one after the other. -/
theorem afterSteps_keeps (P : Reader → Prop)
    (hpast : ∀ reader line, reader.source.line? = some line → P reader → P (reader.past line))
    {reader : Reader} (h : P reader) (steps : List Step) : P (reader.afterSteps steps) := by
  induction steps generalizing reader with
  | nil => exact h
  | cons s steps ih => exact ih (step_keeps P hpast h s)

/-- A step stays within the text. -/
theorem Within.step {reader : Reader} {start : Nat} {bytes : Bytes}
    (h : reader.Within start bytes) (s : Step) : (reader.step s).2.Within start bytes :=
  step_keeps (·.Within start bytes) (fun _ _ hline h => h.past hline) h s

/-- Whatever steps a reader takes, the bytes to come are those of the text from its position. -/
theorem Within.observe {reader : Reader} {start : Nat} {bytes : Bytes}
    (h : reader.Within start bytes) {steps : List Step} {seen : Seen}
    (hseen : seen ∈ reader.observe steps) :
    start ≤ seen.position ∧ seen.position ≤ start + bytes.length ∧
      seen.unread = bytes.drop (seen.position - start) := by
  induction steps generalizing reader with
  | nil => simp [Reader.observe] at hseen
  | cons s steps ih =>
    have hafter := h.step s
    rcases List.mem_cons.mp hseen with rfl | hseen
    · exact ⟨hafter.start_le, hafter.le_end, hafter.unread⟩
    · exact ih hafter hseen

/-- **Pieces make no difference.** Whatever steps a reader takes and in whatever pieces the bytes
    of the text arrive, what is seen is the same as when they arrive at once; and after each step,
    also one that fails, the bytes to come are those of the text from the position on. -/
theorem observe_pieces (source : Source) (start : Nat) (steps : List Step) :
    (startAt source start).observe steps = (startAt [source.bytes] start).observe steps ∧
      ∀ seen ∈ (startAt source start).observe steps,
        start ≤ seen.position ∧ seen.position ≤ start + source.bytes.length ∧
          seen.unread = source.bytes.drop (seen.position - start) := by
  -- At the start, the readers differ in nothing but the pieces.
  have halike : (startAt source start).Alike (startAt [source.bytes] start) :=
    ⟨(List.append_nil source.bytes).symm, rfl, rfl⟩
  exact ⟨halike.observe steps, fun seen => (Within.startAt source start).observe⟩

/-- Readers at the start of the same bytes feed the same words. -/
theorem foldWords_start {β : Type} {source source' : Source} (h : source.bytes = source'.bytes)
    (step : β → Nat × Word → Except ListError β) (acc : β) :
    (start source).foldWords step acc = (start source').foldWords step acc := by
  have halike : (start source).Alike (start source') := ⟨h, rfl, rfl⟩
  exact halike.foldWords step acc

end Reader

/-- The words of a source, or the error of reading them, do not depend on the pieces. -/
theorem Source.words_congr {source source' : Source} (h : source.bytes = source'.bytes) :
    source.words = source'.words :=
  congrArg (Except.map List.reverse) (Reader.foldWords_start h _ _)

end Lexicon
