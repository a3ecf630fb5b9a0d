import Lexicon.Proofs.Reading.Line
import Mathlib.Data.List.Basic

namespace Lexicon

/-!
# How many lines some bytes have

Lines are counted by their ends, where a line feed, a carriage return and both in that order are
one end each; what stands behind the last end is a line as well.

* `endsLine`, `terminators` — the places where lines end, and their number.
* `lineCount` — the number of lines, blank ones included.
* `PartsLines` — bytes that are parted between two lines; the lines of the parts add up
  (`PartsLines.lineCount_append`).
* `LineEnding.lineCount_eq`, `LineEnding.partsLines` — a text and its end are one line, and are
  parted from what follows.
-/

/-- Whether a line ends behind a byte, in front of the bytes `rest`.  A carriage return leaves the
    end to a line feed that follows. -/
def endsLine (b : UInt8) (rest : Bytes) : Bool :=
  isTerminator b && !(b == carriageReturn && rest.head? == some lineFeed)

/-- The number of line ends. -/
def terminators : Bytes → Nat
  | [] => 0
  | b :: rest => (if endsLine b rest then 1 else 0) + terminators rest

/-- The number of lines, blank ones included.  The last one may have no end. -/
def lineCount : Bytes → Nat
  | [] => 0
  | b :: rest => (if endsLine b rest || rest.isEmpty then 1 else 0) + lineCount rest

/-- A carriage return, a line feed and both are one end each, and "a" has none. -/
example : terminators [0x0D, 0x0D, 0x0A, 0x0A, 0x61] = 3 ∧
    lineCount [0x0D, 0x0D, 0x0A, 0x0A, 0x61] = 4 := by
  decide

theorem endsLine_of_plain {b : UInt8} (hb : isTerminator b = false) (rest : Bytes) :
    endsLine b rest = false := by
  rw [endsLine, hb, Bool.false_and]

theorem isTerminator_of_endsLine {b : UInt8} {rest : Bytes} (h : endsLine b rest = true) :
    isTerminator b = true := by
  rw [endsLine, Bool.and_eq_true] at h
  exact h.1

/-! ### Parted lines -/

/-- Bytes are parted between two lines, or at their end. -/
def PartsLines (front back : Bytes) : Prop :=
  ∀ b ∈ front.getLast?, endsLine b back = true ∨ back = []

namespace PartsLines

variable {front back : Bytes}

theorem nil (back : Bytes) : PartsLines [] back :=
  fun _ hb => nomatch hb

/-- Only the first byte behind matters. -/
theorem of_head? {back' : Bytes} (h : PartsLines front back) (hne : back ≠ [])
    (hhead : back.head? = back'.head?) : PartsLines front back' := by
  intro b hb
  rw [endsLine, ← hhead]
  exact .inl ((h b hb).resolve_right hne)

/-- A terminator stands in front of what is left, unless nothing does. -/
theorem closed (h : PartsLines front back) (hne : back ≠ []) :
    ∀ b ∈ front.getLast?, isTerminator b = true :=
  fun b hb => isTerminator_of_endsLine ((h b hb).resolve_right hne)

/-- **Lines add up.** Where bytes are parted between lines, no line is lost and none is cut in
    two. -/
theorem lineCount_append (h : PartsLines front back) :
    lineCount (front ++ back) = lineCount front + lineCount back := by
  induction front with
  | nil => exact (Nat.zero_add _).symm
  | cons b front ih =>
    rw [List.cons_append, lineCount, lineCount]
    cases front with
    | nil =>
      -- The last byte in front ends a line on either side.
      have hend : (endsLine b back || back.isEmpty) = true := by
        rw [Bool.or_eq_true, List.isEmpty_iff]
        exact h b rfl
      rw [List.nil_append, hend, List.isEmpty_nil, Bool.or_true]
      rfl
    | cons c front =>
      have hsame : endsLine b (c :: front ++ back) = endsLine b (c :: front) := rfl
      rw [hsame, ih h, Nat.add_assoc]
      rfl

end PartsLines

/-- Where the last line has an end, there are as many lines as ends. -/
theorem lineCount_eq_terminators {bytes : Bytes}
    (h : ∀ b ∈ bytes.getLast?, isTerminator b = true) : lineCount bytes = terminators bytes := by
  induction bytes with
  | nil => rfl
  | cons b rest ih =>
    rw [lineCount, terminators]
    cases rest with
    | nil =>
      have hend : endsLine b [] = true := by
        rw [endsLine, h b rfl]
        simp
      rw [hend]
      rfl
    | cons c rest =>
      rw [ih h, List.isEmpty_cons, Bool.or_false]

/-! ### One line -/

namespace LineEnding

variable {text ending after : Bytes}

/-- A text with its end is parted from what follows. -/
theorem partsLines (h : LineEnding after ending) (text : Bytes) :
    PartsLines (text ++ ending) after := by
  intro b hb
  cases h with
  | none hnil => exact .inr hnil
  | feed =>
    rw [List.getLast?_concat, Option.mem_some_iff] at hb
    exact .inl (hb ▸ rfl)
  | both =>
    rw [List.append_cons, List.getLast?_concat, Option.mem_some_iff] at hb
    exact .inl (hb ▸ rfl)
  | alone hnone =>
    rw [List.getLast?_concat, Option.mem_some_iff] at hb
    refine .inl (hb ▸ ?_)
    simpa [endsLine, Lexicon.isTerminator] using hnone

/-- A text without a terminator and its end are one line. -/
theorem lineCount_eq (h : LineEnding after ending)
    (htext : ∀ b ∈ text, Lexicon.isTerminator b = false) (hne : text ++ ending ≠ []) :
    lineCount (text ++ ending) = 1 := by
  induction text with
  | nil =>
    cases h with
    | none => exact absurd rfl hne
    | feed => rfl
    | both => rfl
    | alone => rfl
  | cons b text ih =>
    obtain ⟨hb, htext⟩ := List.forall_mem_cons.mp htext
    rw [List.cons_append, lineCount, endsLine_of_plain hb, Bool.false_or]
    cases hrest : text ++ ending with
    | nil => rfl
    | cons c rest =>
      rw [← hrest, ih htext (hrest ▸ List.cons_ne_nil c rest), hrest]
      rfl

end LineEnding

end Lexicon
