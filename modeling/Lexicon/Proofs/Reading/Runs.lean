import Lexicon.Proofs.Reading.Line
import Lexicon.Reader

namespace Lexicon

/-!
# The runs between terminators

A reader finds the maximal runs of bytes that hold no terminator, whatever the terminators are
and however many stand in a row.

* `runsFrom` — the runs of some bytes, with their offsets.
* `Line.Begins.runsFrom_eq` — a line is a run, or no run at all if it is blank.
* `runsFrom_drop` — reading that starts anew at the offset of a run finds that run and all
  later ones.
-/

/-- The bytes up to the first terminator. -/
def plainPart (bytes : Bytes) : Bytes :=
  bytes.takeWhile (!isTerminator ·)

/-- The bytes from the first terminator on. -/
def afterPlain (bytes : Bytes) : Bytes :=
  bytes.dropWhile (!isTerminator ·)

/-- Bytes are cut where the ones without a terminator end. -/
theorem cut_plain {text rest : Bytes} (htext : ∀ b ∈ text, isTerminator b = false)
    (hrest : ∀ b ∈ rest.head?, isTerminator b = true) :
    plainPart (text ++ rest) = text ∧ afterPlain (text ++ rest) = rest := by
  have hplain : ∀ b ∈ text, (!isTerminator b) = true := by
    intro b hb
    simp [htext b hb]
  unfold plainPart afterPlain
  rw [List.takeWhile_append_of_pos hplain, List.dropWhile_append_of_pos hplain]
  cases rest with
  | nil => simp
  | cons c rest => simp [hrest c rfl]

theorem length_afterPlain_le (bytes : Bytes) : (afterPlain bytes).length ≤ bytes.length :=
  (List.dropWhile_sublist _).length_le

/-- The maximal runs of bytes without a terminator, each with its offset, where the first byte
    stands at `position`. -/
def runsFrom (position : Nat) (bytes : Bytes) : List (Nat × Bytes) :=
  match bytes with
  | [] => []
  | b :: rest =>
    if isTerminator b then runsFrom (position + 1) rest
    else
      have := length_afterPlain_le rest
      (position, b :: plainPart rest) ::
        runsFrom (position + (plainPart rest).length + 1) (afterPlain rest)
termination_by bytes.length

/-! ### Runs and lines -/

@[simp] theorem runsFrom_nil (position : Nat) : runsFrom position [] = [] := by
  rw [runsFrom]

theorem runsFrom_terminator {b : UInt8} (hb : isTerminator b = true) (position : Nat)
    (rest : Bytes) : runsFrom position (b :: rest) = runsFrom (position + 1) rest := by
  rw [runsFrom, if_pos hb]

/-- Terminators hold no run. -/
theorem runsFrom_terminators {ending : Bytes} (h : ∀ b ∈ ending, isTerminator b = true)
    (position : Nat) (rest : Bytes) :
    runsFrom position (ending ++ rest) = runsFrom (position + ending.length) rest := by
  induction ending generalizing position with
  | nil => rfl
  | cons b ending ih =>
    rw [List.cons_append, runsFrom_terminator (h b List.mem_cons_self),
      ih (fun b hb => h b (List.mem_cons_of_mem _ hb)), List.length_cons, Nat.add_assoc,
      Nat.add_comm 1]

/-- Bytes without a terminator, up to one or to the end, are a run. -/
theorem runsFrom_plain {text rest : Bytes} (htext : ∀ b ∈ text, isTerminator b = false)
    (hne : text ≠ []) (hrest : ∀ b ∈ rest.head?, isTerminator b = true) (position : Nat) :
    runsFrom position (text ++ rest)
      = (position, text) :: runsFrom (position + text.length) rest := by
  obtain ⟨b, text, rfl⟩ := List.exists_cons_of_ne_nil hne
  obtain ⟨htake, hdrop⟩ := cut_plain (fun c hc => htext c (List.mem_cons_of_mem _ hc)) hrest
  have hb := htext b List.mem_cons_self
  rw [List.cons_append, runsFrom, if_neg (by simp [hb]), htake, hdrop, List.length_cons,
    Nat.add_assoc]

/-- The run of a line: its text, unless the line is blank. -/
def Line.run? (line : Line) (position : Nat) : List (Nat × Bytes) :=
  if line.text.isEmpty then [] else [(position, line.text)]

/-- The runs of some bytes are that of the first line and those after it. -/
theorem Line.Begins.runsFrom_eq {line : Line} {bytes ending : Bytes} (h : line.Begins bytes ending)
    (position : Nat) :
    runsFrom position bytes
      = line.run? position ++ runsFrom (position + line.taken) line.rest.bytes := by
  -- An ending holds no run, so that those behind the text are those behind the line.
  have hrest := runsFrom_terminators h.ending.isTerminator (position + line.text.length)
    line.rest.bytes
  rw [Nat.add_assoc, ← h.taken_eq] at hrest
  rw [h.bytes_eq, List.append_assoc, ← hrest, Line.run?]
  split_ifs with hblank
  · rw [List.isEmpty_iff.mp hblank, List.nil_append, List.nil_append]
    rfl
  · rw [List.singleton_append]
    exact runsFrom_plain h.text_plain (by simpa using hblank) h.head?_ending position

/-! ### Starting anew -/

/-- Reading anew at the offset of a run finds that run and the later ones. -/
theorem runsFrom_drop {position : Nat} {bytes : Bytes} {k offset : Nat} {text : Bytes}
    (h : (runsFrom position bytes)[k]? = some (offset, text)) :
    position ≤ offset ∧
      runsFrom offset (bytes.drop (offset - position)) = (runsFrom position bytes).drop k := by
  -- Induction along the runs: reading on from a later offset drops what stands in front of it.
  fun_induction runsFrom position bytes generalizing k with
  | case1 => simp at h
  | case2 position b rest hb ih =>
    obtain ⟨hle, hruns⟩ := ih h
    refine ⟨by omega, ?_⟩
    rw [← hruns, show offset - position = (offset - (position + 1)) + 1 by omega,
      List.drop_succ_cons]
  | case3 position b rest hb hlength ih =>
    have hafter : rest.drop (plainPart rest).length = afterPlain rest := by
      have hsplit : plainPart rest ++ afterPlain rest = rest := List.takeWhile_append_dropWhile
      have hdrop : (plainPart rest ++ afterPlain rest).drop (plainPart rest).length
          = afterPlain rest := List.drop_left
      rwa [hsplit] at hdrop
    cases k with
    | zero =>
      simp only [List.getElem?_cons_zero, Option.some.injEq, Prod.mk.injEq] at h
      obtain ⟨rfl, -⟩ := h
      refine ⟨Nat.le_refl _, ?_⟩
      rw [Nat.sub_self, List.drop_zero, List.drop_zero, runsFrom, if_neg hb]
    | succ k =>
      rw [List.getElem?_cons_succ] at h
      obtain ⟨hle, hruns⟩ := ih h
      refine ⟨by omega, ?_⟩
      rw [List.drop_succ_cons, ← hruns, ← hafter, List.drop_drop]
      congr 1
      rw [show offset - position
          = (plainPart rest).length + (offset - (position + (plainPart rest).length + 1)) + 1 by
            omega,
        List.drop_succ_cons]

end Lexicon
