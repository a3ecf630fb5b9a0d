import Lexicon.Proofs.WordList.Ascending
import Lexicon.Proofs.WordList.Disk

namespace Lexicon

/-!
# Which sources become lists

A list on disk checks the order of its words while it reads them, a list in memory once it has
read them all.  Either way the same sources are accepted; a source with a malformed line and a
word out of order in front of it is refused for the line in memory, and for the word on disk.

* `Source.leadingWords` — the words in front of the first malformed line.
* `Verdict` — the ways in which a scan and a reading of all words can end.
* `scan_verdict` — a scan and a reading of the same source end in one of these ways.
* `disk_accepts_what_memory_accepts` — the same for the lists that are built.
-/

/-! ### Scans and checks -/

namespace Scan

variable {order : WordOrder}

/-- A scan that has a last word checks the words behind it. -/
theorem foldlM_add_check {s : Scan} {previous : Word} (h : s.previous = some previous)
    (found : List (Nat × Word)) :
    (found.foldlM (Scan.add order) s).map (fun _ => ())
      = ensureAscendingAfter order s.size previous (found.map Prod.snd) := by
  induction found generalizing s previous with
  | nil => rfl
  | cons head found ih =>
    obtain ⟨offset, word⟩ := head
    -- Both stop at a word that the one in front of it exceeds, and count the words up to it.
    rw [List.foldlM_cons, List.map_cons, ensureAscendingAfter]
    by_cases hcompare : order.compare previous word = .gt
    · have hadd : Scan.add order s (offset, word) = .error (.unsorted s.size previous word) := by
        simp [Scan.add, h, hcompare]
      rw [hadd, if_pos (beq_iff_eq.mpr hcompare)]
      rfl
    · have hadd : Scan.add order s (offset, word)
          = .ok ⟨s.size + 1, some word, s.sampled.offer s.size offset⟩ :=
        (add_eq_ok_iff offset word).mpr ⟨by simpa [h] using hcompare, rfl⟩
      rw [hadd, if_neg (mt beq_iff_eq.mp hcompare)]
      exact ih rfl

/-- A scan checks all words that it is fed. -/
theorem foldlM_add_start (order : WordOrder) (sampled : OffsetIndex) (found : List (Nat × Word)) :
    (found.foldlM (Scan.add order) ⟨0, none, sampled⟩).map (fun _ => ())
      = ensureAscending order (found.map Prod.snd) := by
  cases found with
  | nil => rfl
  | cons head found => exact foldlM_add_check rfl found

end Scan

/-! ### Verdicts -/

/-- The words of a source in front of its first malformed line, all of them if there is none. -/
def Source.leadingWords (source : Source) : List Word :=
  (leading (runsFrom 0 source.bytes)).map Prod.snd

/-- The ways in which the scan of a source and the check of all its words can end. -/
inductive Verdict (order : WordOrder) (source : Source) :
    (scanned checked : Except ListError Unit) → Prop where
  /-- No line is malformed, and the words are in order. -/
  | accepted (hascends : order.Ascends source.leadingWords) : Verdict order source (.ok ()) (.ok ())
  /-- No line is malformed, but the words are not in order. -/
  | unsorted {index : Nat} {previous word : Word}
      (hdrop : FirstDrop order source.leadingWords index previous word) :
      Verdict order source (.error (.unsorted index previous word))
        (.error (.unsorted index previous word))
  /-- A line is malformed, and the words in front of it are in order. -/
  | malformed {line : Nat} (hascends : order.Ascends source.leadingWords) :
      Verdict order source (.error (.badEncoding line)) (.error (.badEncoding line))
  /-- A line is malformed, and the words in front of it are not in order. -/
  | unsortedMalformed {line index : Nat} {previous word : Word}
      (hdrop : FirstDrop order source.leadingWords index previous word) :
      Verdict order source (.error (.unsorted index previous word)) (.error (.badEncoding line))

/-- The scan of a source and the check of all its words end in one of these ways. -/
theorem scan_verdict (order : WordOrder) (sampled : OffsetIndex) (source : Source) :
    Verdict order source ((scan order sampled source).map fun _ => ())
      (source.words >>= ensureAscending order) := by
  obtain ⟨line, hfold⟩ := (Reader.start source).exists_foldWords_eq
  have hruns : (Reader.start source).runs = runsFrom 0 source.bytes := rfl
  rw [hruns] at hfold
  -- Both fail at the same line if they come to it.
  have hscan : (scan order sampled source).map (fun _ => ())
      = ensureAscending order source.leadingWords >>= fun _ =>
          if (decodeRuns (runsFrom 0 source.bytes)).isSome then .ok ()
          else .error (.badEncoding line) := by
    rw [scan, hfold, Source.leadingWords, ← Scan.foldlM_add_start order sampled]
    cases (leading (runsFrom 0 source.bytes)).foldlM (Scan.add order) ⟨0, none, sampled⟩ with
    | error e => rfl
    | ok s => cases (decodeRuns (runsFrom 0 source.bytes)).isSome <;> rfl
  have hchecked : source.words >>= ensureAscending order
      = if (decodeRuns (runsFrom 0 source.bytes)).isSome then
          ensureAscending order source.leadingWords
        else .error (.badEncoding line) := by
    rw [Source.words, hfold, foldlM_gather, List.append_nil]
    cases (decodeRuns (runsFrom 0 source.bytes)).isSome with
    | false => rfl
    | true => exact congrArg (ensureAscending order) (List.reverse_reverse _)
  rw [hscan, hchecked]
  obtain ⟨hascends, hcheck⟩ | ⟨index, previous, word, hdrop, hcheck⟩ :=
    ensureAscending_cases order source.leadingWords
  · rw [hcheck]
    cases (decodeRuns (runsFrom 0 source.bytes)).isSome with
    | false => exact .malformed hascends
    | true => exact .accepted hascends
  · rw [hcheck]
    cases (decodeRuns (runsFrom 0 source.bytes)).isSome with
    | false => exact .unsortedMalformed hdrop
    | true => exact .unsorted hdrop

/-! ### Lists -/

/-- Opening a file comes to what the scan of its bytes comes to. -/
theorem Stored.ofContents_outcome {percent : Int} {fresh : OffsetIndex} (order : WordOrder)
    (hfresh : OffsetIndex.ofPercent percent = .ok fresh) (source : Source) :
    (Stored.ofContents order percent source.bytes).map (fun _ => ())
      = (scan order fresh source).map fun _ => () := by
  rw [Stored.ofContents, Stored.ofFile, hfresh, ← scan_congr (Source.bytes_ofFile source.bytes)]
  exact map_bind_eq _ (scan order fresh (Source.ofFile source.bytes)) _

/-- A list in memory of a source that is not to be sorted comes to what the check of its words
    comes to. -/
theorem InMemory.ofSources_outcome (order : WordOrder) (source : Source) :
    (InMemory.ofSources order none [source]).map (fun _ => ())
      = source.words >>= ensureAscending order := by
  unfold InMemory.ofSources
  cases hwords : source.words with
  | error e => simp [hwords, bind, Except.bind, Except.map]
  | ok words =>
    have hsources : [source].mapM Source.words = .ok [words] := by
      simp [hwords, bind, Except.bind, pure, Except.pure]
    rw [hsources]
    show Except.map _ (InMemory.ofSorted order [words].flatten) = ensureAscending order words
    rw [List.flatten_singleton, InMemory.ofSorted]
    cases ensureAscending order words <;> rfl

/-- Both lists on disk refuse some contents, with the same error. -/
def RefusedOnDisk (order : WordOrder) (percent : Int) (contents : Bytes) (e : ListError) : Prop :=
  Stored.ofContents order percent contents = .error e ∧
    Mapped.ofContents order percent contents = .error e

theorem refusedOnDisk_of_outcome {order : WordOrder} {percent : Int} {contents : Bytes}
    {e : ListError}
    (h : (Stored.ofContents order percent contents).map (fun _ => ()) = .error e) :
    RefusedOnDisk order percent contents e := by
  have hstored := map_eq_error_iff.mp h
  refine ⟨hstored, ?_⟩
  rw [Mapped.ofContents_eq, hstored]
  rfl

/-- **One verdict on every source.** With any share of kept offsets, an open file and a mapped one
    become lists of the same size with the same index, or are refused with the same error; and
    they become lists exactly if the same bytes, in whatever pieces they arrive, become a list in
    memory.  If that reports a word out of order, so do the lists on disk; if it reports a malformed
    line, they report the line, or else the first word out of order in front of it. -/
theorem disk_accepts_what_memory_accepts (order : WordOrder) (percent : Int)
    (hpercent : 0 ≤ percent ∧ percent ≤ 100) (source : Source) :
    (Stored.ofContents order percent source.bytes).map (fun list => (list.size, list.sampled))
        = (Mapped.ofContents order percent source.bytes).map
            (fun list => (list.size, list.sampled)) ∧
      (Stored.ofContents order percent source.bytes).isOk
        = (InMemory.ofSources order none [source]).isOk ∧
      (∀ index previous word,
        InMemory.ofSources order none [source] = .error (.unsorted index previous word) →
          RefusedOnDisk order percent source.bytes (.unsorted index previous word)) ∧
      ∀ line, InMemory.ofSources order none [source] = .error (.badEncoding line) →
        (order.Ascends source.leadingWords ∧
            RefusedOnDisk order percent source.bytes (.badEncoding line)) ∨
          ∃ index previous word, FirstDrop order source.leadingWords index previous word ∧
            RefusedOnDisk order percent source.bytes (.unsorted index previous word) := by
  have hfresh : OffsetIndex.ofPercent percent = .ok ⟨OffsetIndex.strideFor percent.toNat, #[]⟩ :=
    if_pos hpercent
  have hverdict := scan_verdict order ⟨OffsetIndex.strideFor percent.toNat, #[]⟩ source
  rw [← Stored.ofContents_outcome order hfresh, ← InMemory.ofSources_outcome] at hverdict
  generalize hdisk : (Stored.ofContents order percent source.bytes).map (fun _ => ()) = disk,
    hmemory : (InMemory.ofSources order none [source]).map (fun _ => ()) = memory at hverdict
  refine ⟨?_, ?_, ?_, ?_⟩
  · rw [Mapped.ofContents_eq]
    cases Stored.ofContents order percent source.bytes <;> rfl
  · have hstored := isOk_map (fun _ => ()) (Stored.ofContents order percent source.bytes)
    have hsources := isOk_map (fun _ => ()) (InMemory.ofSources order none [source])
    rw [← hstored, ← hsources, hdisk, hmemory]
    cases hverdict <;> rfl
  · intro index previous word herror
    obtain rfl := hmemory.symm.trans (map_eq_error_iff.mpr herror)
    cases hverdict with
    | unsorted hdrop => exact refusedOnDisk_of_outcome hdisk
  · intro line herror
    obtain rfl := hmemory.symm.trans (map_eq_error_iff.mpr herror)
    cases hverdict with
    | malformed hascends => exact .inl ⟨hascends, refusedOnDisk_of_outcome hdisk⟩
    | unsortedMalformed hdrop =>
      exact .inr ⟨_, _, _, hdrop, refusedOnDisk_of_outcome hdisk⟩

/-- The lines "b" and "a", and one that is malformed. -/
def dropThenMalformed : Bytes := [0x62, 0x0A, 0x61, 0x0A, 0xFF]

/-- A source with both faults is refused for its third line in memory, and for a word in front of
    it on disk. -/
theorem disk_reports_drop_in_front :
    InMemory.ofSources .exact none [[dropThenMalformed]] = .error (.badEncoding 3) ∧
      ∃ index previous word,
        FirstDrop .exact (Source.leadingWords [dropThenMalformed]) index previous word ∧
          RefusedOnDisk .exact 50 dropThenMalformed (.unsorted index previous word) := by
  have hmemory : InMemory.ofSources .exact none [[dropThenMalformed]] = .error (.badEncoding 3) := by
    with_unfolding_all rfl
  have hwords : Source.leadingWords [dropThenMalformed] = [['b'], ['a']] := by decide +kernel
  obtain ⟨-, -, -, hmalformed⟩ :=
    disk_accepts_what_memory_accepts .exact 50 (by decide) [dropThenMalformed]
  obtain ⟨hascends, -⟩ | hdrop := hmalformed 3 hmemory
  · rw [hwords] at hascends
    have hpair := List.rel_of_pairwise_cons hascends List.mem_cons_self
    exact absurd (by decide) hpair
  · exact ⟨hmemory, hdrop⟩

end Lexicon
