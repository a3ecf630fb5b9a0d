import Lexicon.Proofs.Order.Laws
import Lexicon.Proofs.Reading.Pieces
import Lexicon.Proofs.WordList.Sampled
import Lexicon.WordList.Scan

namespace Lexicon

/-!
# What a scan learns

A scan that succeeds has seen all words of a source, in order, and has sampled their offsets.

* `Scan.Reflects` — a scan that has taken in the given words, with their offsets.
* `Scan.Reflects.add`, `Scan.Reflects.foldlM` — one more word, and many more, keep it so.
* `scan_spec` — what a successful scan of a source says about its runs.
* `scan_congr` — a scan does not depend on the pieces of its source.
-/

/-- A scan that has taken in the given words, with their offsets. -/
structure Scan.Reflects (s : Scan) (order : WordOrder) (found : List (Nat × Word)) : Prop where
  /-- Every word is counted. -/
  size_eq : s.size = found.length
  /-- The last word is remembered. -/
  previous_eq : s.previous = (found.map Prod.snd).getLast?
  /-- The offsets are sampled. -/
  samples : s.sampled.Samples (found.map Prod.fst)
  /-- The words are in order. -/
  ascends : order.Ascends (found.map Prod.snd)

namespace Scan

variable {s t : Scan} {order : WordOrder} {found : List (Nat × Word)}

theorem reflects_nil {percent : Int} {sampled : OffsetIndex} (order : WordOrder)
    (h : OffsetIndex.ofPercent percent = .ok sampled) :
    Reflects ⟨0, none, sampled⟩ order [] where
  size_eq := rfl
  previous_eq := rfl
  samples := OffsetIndex.samples_nil h
  ascends := List.Pairwise.nil

/-- A scan takes a word in unless the last one comes after it. -/
theorem add_eq_ok_iff (offset : Nat) (word : Word) :
    Scan.add order s (offset, word) = .ok t ↔
      (∀ last ∈ s.previous, order.compare last word ≠ .gt) ∧
        t = ⟨s.size + 1, some word, s.sampled.offer s.size offset⟩ := by
  unfold Scan.add
  cases s.previous with
  | none => simp [eq_comm]
  | some last =>
    cases hcompare : order.compare last word <;> simp [hcompare, eq_comm]

/-- The next word, when it is taken in, is reflected as well. -/
theorem Reflects.add (h : s.Reflects order found) {offset : Nat} {word : Word}
    (ht : Scan.add order s (offset, word) = .ok t) :
    t.Reflects order (found ++ [(offset, word)]) := by
  obtain ⟨hlast, rfl⟩ := (add_eq_ok_iff offset word).mp ht
  refine ⟨?_, ?_, ?_, ?_⟩
  · simp [h.size_eq]
  · simp
  · have hsamples := h.samples.offer offset
    rw [List.length_map, ← h.size_eq] at hsamples
    simpa using hsamples
  · rw [List.map_append]
    -- None of the words in order is above the new one if the last of them is not.
    refine (order.ascends_concat_iff _ _).mpr ⟨h.ascends, ?_⟩
    rwa [h.previous_eq] at hlast

/-- All words that a scan takes in are reflected. -/
theorem Reflects.foldlM (h : s.Reflects order found) {more : List (Nat × Word)}
    (ht : more.foldlM (Scan.add order) s = .ok t) : t.Reflects order (found ++ more) := by
  induction more generalizing s found with
  | nil =>
    obtain rfl := Except.ok.inj ht
    rwa [List.append_nil]
  | cons head more ih =>
    rw [List.foldlM_cons] at ht
    obtain ⟨next, hnext, hrest⟩ := bind_eq_ok_iff.mp ht
    have hmore := ih (h.add hnext) hrest
    rwa [List.append_assoc, List.singleton_append] at hmore

end Scan

/-- What a scan learns of a source: its words with their offsets. -/
theorem scan_spec {order : WordOrder} {percent : Int} {sampled : OffsetIndex} {source : Source}
    {s : Scan} (hsampled : OffsetIndex.ofPercent percent = .ok sampled)
    (h : scan order sampled source = .ok s) :
    ∃ found, decodeRuns (runsFrom 0 source.bytes) = some found ∧ s.Reflects order found := by
  obtain ⟨found, hfound, hfold⟩ := (Reader.foldWords_eq_ok_iff _ _ _ _).mp h
  exact ⟨found, hfound, (Scan.reflects_nil order hsampled).foldlM hfold⟩

/-- A scan comes to the same on the same bytes in other pieces. -/
theorem scan_congr {source source' : Source} (h : source.bytes = source'.bytes) (order : WordOrder)
    (sampled : OffsetIndex) : scan order sampled source = scan order sampled source' :=
  Reader.foldWords_start h _ _

end Lexicon
