import Lexicon.Source
import Mathlib.Data.List.TakeWhile

namespace Lexicon

/-!
# The first line of a source

What `Source.line?` takes off a source depends on the bytes of the source, and not on the
pieces in which they arrive.

* `LineEnding` — the bytes that may end a line, before given others.
* `Line.Begins` — a line that stands at the beginning of some bytes.
* `Source.begins_of_line?` — the first line of a source begins its bytes.
-/

/-! ### Ends of lines -/

/-- What may end a line in front of the bytes `after`.  A carriage return ends a line alone only
    where no line feed follows; nothing ends the last line. -/
inductive LineEnding (after : Bytes) : (ending : Bytes) → Prop where
  | feed : LineEnding after [lineFeed]
  | both : LineEnding after [carriageReturn, lineFeed]
  | alone : after.head? ≠ some lineFeed → LineEnding after [carriageReturn]
  | none : after = [] → LineEnding after []

/-- Every byte of an ending is a terminator. -/
theorem LineEnding.isTerminator {after ending : Bytes} (h : LineEnding after ending) :
    ∀ b ∈ ending, isTerminator b = true := by
  cases h <;> simp [Lexicon.isTerminator]

/-- Only the end of the bytes ends a line with nothing. -/
theorem LineEnding.eq_nil {after : Bytes} (h : LineEnding after []) : after = [] := by
  cases h with
  | none h => exact h

/-- A line at the beginning of some bytes: its text, an ending, and the rest. -/
structure Line.Begins (line : Line) (bytes ending : Bytes) : Prop where
  /-- The text, the ending and the rest are the bytes. -/
  bytes_eq : bytes = line.text ++ ending ++ line.rest.bytes
  /-- The text and the ending are taken. -/
  taken_eq : line.taken = line.text.length + ending.length
  /-- The text holds no terminator. -/
  text_plain : ∀ b ∈ line.text, isTerminator b = false
  /-- The ending ends a line there. -/
  ending : LineEnding line.rest.bytes ending

/-- Behind the text of a line stands a terminator, or nothing at all. -/
theorem Line.Begins.head?_ending {line : Line} {bytes ending : Bytes}
    (h : line.Begins bytes ending) :
    ∀ b ∈ (ending ++ line.rest.bytes).head?, isTerminator b = true := by
  intro b hb
  have hending := h.ending
  cases ending with
  | nil => simp [hending.eq_nil] at hb
  | cons c ending =>
    simp only [List.cons_append, List.head?_cons, Option.mem_def, Option.some.injEq] at hb
    exact hb ▸ hending.isTerminator c List.mem_cons_self

/-! ### Line feeds -/

theorem Source.bytes_cons (piece : Bytes) (source : Source) :
    Source.bytes (piece :: source) = piece ++ Source.bytes source := rfl

theorem Source.bytes_of_dropLineFeed? {source rest : Source}
    (h : Source.dropLineFeed? source = some rest) :
    source.bytes = lineFeed :: rest.bytes := by
  fun_induction Source.dropLineFeed? source with
  | case1 => simp at h
  | case2 source ih => exact ih h
  | case3 b piece source hb =>
    obtain rfl : b = lineFeed := by simpa using hb
    obtain rfl := Option.some.inj h
    rfl
  | case4 => simp at h

theorem Source.head?_of_dropLineFeed? {source : Source} (h : Source.dropLineFeed? source = none) :
    source.bytes.head? ≠ some lineFeed := by
  fun_induction Source.dropLineFeed? source with
  | case1 => simp [Source.bytes]
  | case2 source ih => exact ih h
  | case3 => simp at h
  | case4 b piece source hb =>
    rw [Source.bytes_cons]
    simpa using hb

/-! ### Lines -/

/-- A line ended by a terminator begins the bytes that it was cut from. -/
theorem Line.begins_ended {text : Bytes} {b : UInt8} (rest : Source)
    (htext : ∀ b ∈ text, isTerminator b = false) (hb : isTerminator b = true) :
    ∃ ending, (Line.ended text b rest).Begins (text ++ b :: rest.bytes) ending := by
  unfold Line.ended
  split_ifs with hreturn
  · obtain rfl : b = carriageReturn := by simpa using hreturn
    -- A line feed right behind it belongs to the same ending, also where a new piece begins.
    cases hdrop : Source.dropLineFeed? rest with
    | some after =>
      refine ⟨[carriageReturn, lineFeed], ?_, rfl, htext, .both⟩
      rw [Source.bytes_of_dropLineFeed? hdrop, List.append_assoc]
      rfl
    | none =>
      refine ⟨[carriageReturn], ?_, rfl, htext, .alone (Source.head?_of_dropLineFeed? hdrop)⟩
      rw [List.append_assoc]
      rfl
  · obtain rfl : b = lineFeed := by
      simp only [isTerminator, Bool.or_eq_true] at hb
      simpa using hb.resolve_right hreturn
    refine ⟨[lineFeed], ?_, rfl, htext, .feed⟩
    rw [List.append_assoc]
    rfl

/-- Bytes before a line that holds no terminator belong to the line. -/
theorem Line.Begins.prepend {line : Line} {bytes ending : Bytes} (h : line.Begins bytes ending)
    {text : Bytes} (htext : ∀ b ∈ text, isTerminator b = false) :
    Line.Begins ⟨text ++ line.text, text.length + line.taken, line.rest⟩ (text ++ bytes)
      ending where
  bytes_eq := by rw [h.bytes_eq, List.append_assoc, List.append_assoc, List.append_assoc]
  taken_eq := by rw [h.taken_eq, List.length_append, Nat.add_assoc]
  text_plain := by
    intro b hb
    rcases List.mem_append.mp hb with hb | hb
    · exact htext b hb
    · exact h.text_plain b hb
  ending := h.ending

/-- **The first line.** A line taken off a source begins the bytes of the source, in whatever
    pieces they arrive. -/
theorem Source.begins_of_line? {source : Source} {line : Line} (h : source.line? = some line) :
    ∃ ending, line.Begins source.bytes ending := by
  induction source generalizing line with
  | nil => simp [Source.line?] at h
  | cons piece rest ih =>
    have hpiece := List.takeWhile_append_dropWhile (l := piece) (p := fun b => !isTerminator b)
    have htext : ∀ b ∈ piece.takeWhile (!isTerminator ·), isTerminator b = false := by
      intro b hb
      simpa using List.mem_takeWhile_imp hb
    have hhead := List.head?_dropWhile_not (fun b => !isTerminator b) piece
    simp only [Source.line?] at h
    -- From here on only the cut counts, not how it was found.
    generalize piece.takeWhile (!isTerminator ·) = text at hpiece htext h
    rw [Source.bytes_cons, ← hpiece]
    split at h
    · next b after hdrop =>
      obtain rfl := Option.some.inj h
      rw [hdrop] at hhead ⊢
      rw [List.append_assoc]
      exact Line.begins_ended (after :: rest) htext (by simpa using hhead)
    · next hdrop =>
      -- This piece ends within the line, which goes on in the later ones if there are any.
      rw [hdrop, List.append_nil]
      unfold Line.resumed at h
      split at h
      · next line' hrest =>
        obtain rfl := Option.some.inj h
        obtain ⟨ending, hbegins⟩ := ih hrest
        exact ⟨ending, hbegins.prepend htext⟩
      · next hnone =>
        split_ifs at h with hempty
        obtain rfl := Option.some.inj h
        refine ⟨[], ?_, rfl, htext, .none rfl⟩
        rw [Source.bytes_of_line?_eq_none hnone]
        simp [Source.bytes]

end Lexicon
