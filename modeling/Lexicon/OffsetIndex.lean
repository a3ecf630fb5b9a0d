import Lexicon.Error

namespace Lexicon

/-!
# Sampled offsets

A list on disk remembers where some of its words begin.  Words are sampled evenly, so the
nearest one at or before an index is found by a division.

* `OffsetIndex.ofPercent` — an empty index with room for a share of the words.
* `OffsetIndex.offer` — offers the offset of the next word.
* `OffsetIndex.anchor` — the last sampled word at or before an index.
-/

/-- Offsets of every `stride`-th word, in order. -/
structure OffsetIndex where
  /-- The distance of sampled words, or zero when none is sampled. -/
  stride : Nat
  /-- The offsets of the sampled words. -/
  offsets : Array Nat

namespace OffsetIndex

/-- Share of the words whose offsets are kept unless another one is asked for. -/
def defaultPercent : Int := 5

/-- Distance of sampled words that keeps at least `percent` of a hundred offsets, or zero to
    keep none. -/
def strideFor (percent : Nat) : Nat :=
  if percent = 0 then 0 else 100 / percent

/-- An empty index for a share of the words to come. -/
def ofPercent (percent : Int) : Except ListError OffsetIndex :=
  if 0 ≤ percent ∧ percent ≤ 100 then .ok ⟨strideFor percent.toNat, #[]⟩
  else .error (.badPercent percent)

/-- Keeps the offset of the word at `index` if that word is sampled.  Words are offered in
    order, from the first one on. -/
def offer (sampled : OffsetIndex) (index offset : Nat) : OffsetIndex :=
  if sampled.stride ≠ 0 ∧ index % sampled.stride = 0 then
    { sampled with offsets := sampled.offsets.push offset }
  else sampled

/-- Index and offset of the last sampled word at or before `index`; the start of the file
    stands in when there is none. -/
def anchor (sampled : OffsetIndex) (index : Nat) : Nat × Nat :=
  if sampled.stride = 0 then (0, 0)
  else
    let slot := min (index / sampled.stride) (sampled.offsets.size - 1)
    match sampled.offsets[slot]? with
    | some offset => (slot * sampled.stride, offset)
    | none => (0, 0)

end OffsetIndex

end Lexicon
