import Lexicon.Proofs.Reading.Buffered
import Lexicon.Proofs.Reading.Maximal

namespace Lexicon

/-!
# Passing over is reading and discarding

Words that are passed over are not decoded.  Still a reader that passes over words comes to stand
where it would if it read them, whatever they are, and only the end of the text stops it.

* `discard` — reads words and forgets about them, up to the end.
* `Reader.skip_eq_discard` — passing over words does the same, without reading them.
* `Reader.next_eq_ok_none_iff` — the end is where no run is left.
* `Reader.skip_add` — words can be passed over in two steps.
* `discard_congr` — readers that read alike discard alike.
* `Reader.skip_reads_and_discards` — all this of any reader, and of readers with a buffer.
-/

/-- Reads up to `count` times, whatever is read, and no more once there is nothing left to read;
    answers with how many of the reads were for a word, also for one that is malformed. -/
def discard {R : Type} (read : R → Except ListError (Option (Nat × Word)) × R) :
    (count : Nat) → R → Nat × R
  | 0, reader => (0, reader)
  | count + 1, reader =>
    match read reader with
    | (.ok none, after) => (0, after)
    | (.ok (some _), after) | (.error _, after) =>
      let (discarded, last) := discard read count after
      (discarded + 1, last)

/-- Readers that stay related while they read the same discard the same. -/
theorem discard_congr {R R' : Type} {read : R → Except ListError (Option (Nat × Word)) × R}
    {read' : R' → Except ListError (Option (Nat × Word)) × R'} (rel : R → R' → Prop)
    (hread : ∀ {reader reader'}, rel reader reader' →
      (read reader).1 = (read' reader').1 ∧ rel (read reader).2 (read' reader').2)
    (count : Nat) {reader : R} {reader' : R'} (h : rel reader reader') :
    (discard read count reader).1 = (discard read' count reader').1 ∧
      rel (discard read count reader).2 (discard read' count reader').2 := by
  induction count generalizing reader reader' with
  | zero => exact ⟨rfl, h⟩
  | succ count ih =>
    obtain ⟨hfound, hafter⟩ := hread h
    rw [discard, discard]
    rcases hnext : read reader with ⟨found, after⟩
    rcases hnext' : read' reader' with ⟨found', after'⟩
    rw [hnext, hnext'] at hfound hafter
    obtain rfl : found = found' := hfound
    obtain ⟨hcount, hlast⟩ := ih hafter
    match found with
    | .ok none => exact ⟨rfl, hafter⟩
    | .ok (some _) => exact ⟨congrArg (· + 1) hcount, hlast⟩
    | .error _ => exact ⟨congrArg (· + 1) hcount, hlast⟩

namespace Reader

/-- **Passing over is reading and discarding.** Either way the reader is the same in the end, and
    as many words are counted. -/
theorem skip_eq_discard (count : Nat) (reader : Reader) :
    skip count reader = discard next count reader := by
  induction count generalizing reader with
  | zero => rfl
  | succ count ih =>
    rw [skip, discard, next]
    rcases reader.nextLine? with ⟨_ | ⟨offset, text⟩, after⟩
    · rfl
    · -- Whether the line decodes makes no difference to what is left.
      dsimp only
      rw [ih]
      cases Utf8.decode? text <;> rfl

/-! ### The end -/

/-- Reading finds nothing exactly if no run is left. -/
theorem next_eq_ok_none_iff {reader : Reader} : reader.next.1 = .ok none ↔ reader.runs = [] := by
  constructor
  · intro hnone
    cases hruns : reader.runs with
    | nil => rfl
    | cons run later =>
      obtain ⟨after, -, hnext⟩ := next_of_runs_cons hruns
      rw [hnext] at hnone
      cases hword : Utf8.decode? run.2 <;> simp [hword] at hnone
  · intro hruns
    obtain ⟨after, hnext, -⟩ := next_of_runs_nil hruns
    rw [hnext]

/-- After some reads there is nothing left to read exactly if there were no more runs. -/
theorem next_afterReads_eq_ok_none_iff {reader : Reader} {count : Nat} :
    (reader.afterReads count).next.1 = .ok none ↔ reader.runs.length ≤ count := by
  rw [next_eq_ok_none_iff, runs_afterReads, List.drop_eq_nil_iff]

/-! ### Two steps -/

/-- A reader that has found the end stays there. -/
theorem nextLine?_of_nextLine?_none {reader after : Reader}
    (h : reader.nextLine? = (none, after)) : after.nextLine? = (none, after) := by
  induction reader using nextLine?_induction with
  | done reader hline =>
    rw [nextLine?_of_none hline] at h
    obtain ⟨-, rfl⟩ := Prod.mk.inj h
    exact nextLine?_of_none hline
  | blank reader line hline hblank ih =>
    rw [nextLine?_of_some hline, if_pos hblank] at h
    exact ih h
  | found reader line hline hfound =>
    rw [nextLine?_of_some hline, if_neg hfound] at h
    exact nomatch h

/-- At the end there is nothing to pass over. -/
theorem skip_of_nextLine?_none {reader : Reader} (h : reader.nextLine? = (none, reader))
    (count : Nat) : skip count reader = (0, reader) := by
  cases count with
  | zero => rfl
  | succ count => rw [skip, h]

/-- Words can be passed over in two steps. -/
theorem skip_add (count more : Nat) (reader : Reader) :
    skip (count + more) reader =
      ((skip count reader).1 + (skip more (skip count reader).2).1,
        (skip more (skip count reader).2).2) := by
  induction count generalizing reader with
  | zero =>
    simp only [Nat.zero_add, skip]
  | succ count ih =>
    rw [Nat.succ_add_eq_add_succ, Nat.add_succ, skip, skip]
    rcases hline : reader.nextLine? with ⟨_ | found, after⟩
    · -- The first step has come to the end, so that the second one stays there.
      dsimp only
      rw [skip_of_nextLine?_none (nextLine?_of_nextLine?_none hline), Nat.zero_add]
    · dsimp only
      rw [ih, Nat.add_right_comm]

/-- **Passing over is reading and discarding.** A reader that passes over words comes to the same
    state as one that reads as many times, or up to the end, whatever it reads, and answers with the
    number of reads that do not find the end.  So it passes over less words than it is to exactly if
    one of the reads finds the end, and not where a read fails.  In two steps it passes over as many
    words and comes to the same state.  A reader with a buffer, whatever is in it, comes to the same
    place either way. -/
theorem skip_reads_and_discards (reader : Reader) (count : Nat) :
    skip count reader = discard next count reader ∧
      (skip count reader).1 ≤ count ∧
      ((skip count reader).1 < count ↔ ∃ k < count, (reader.afterReads k).next.1 = .ok none) ∧
      (∀ k < count, ∀ e, (reader.afterReads k).next.1 = .error e → k < (skip count reader).1) ∧
      (∀ more, skip (count + more) reader =
        ((skip count reader).1 + (skip more (skip count reader).2).1,
          (skip more (skip count reader).2).2)) ∧
      ∀ buffered : BufferedReader, buffered.reader.Alike reader →
        (buffered.skip count).1 = (skip count reader).1 ∧
        (buffered.skip count).2.reader.Alike (skip count reader).2 ∧
        (discard BufferedReader.next count buffered).1 = (skip count reader).1 ∧
        (discard BufferedReader.next count buffered).2.reader.Alike (skip count reader).2 := by
  have hcount := (skip_spec count reader).1
  refine ⟨skip_eq_discard count reader, ?_, ⟨fun hlt => ?_, ?_⟩, ?_,
    fun more => skip_add count more reader, fun buffered h => ?_⟩
  · omega
  · exact ⟨reader.runs.length, by omega, next_afterReads_eq_ok_none_iff.mpr (Nat.le_refl _)⟩
  · rintro ⟨k, hk, hnone⟩
    have hle := next_afterReads_eq_ok_none_iff.mp hnone
    omega
  · intro k hk e herror
    -- A read that fails has found a run, and so is one of those that are counted.
    have hlt : k < reader.runs.length := by
      by_contra hge
      rw [next_afterReads_eq_ok_none_iff.mpr (Nat.le_of_not_lt hge)] at herror
      exact nomatch herror
    omega
  · obtain ⟨hskipped, hplace⟩ := h.skip_buffered count
    obtain ⟨hdiscarded, hlast⟩ := discard_congr
      (fun (buffered : BufferedReader) reader => buffered.reader.Alike reader)
      Alike.next_buffered count h
    rw [← skip_eq_discard] at hdiscarded hlast
    exact ⟨hskipped, hplace, hdiscarded, hlast⟩

end Reader

end Lexicon
