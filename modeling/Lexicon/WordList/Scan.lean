import Lexicon.OffsetIndex
import Lexicon.Reader

namespace Lexicon

/-!
# Scanning a word list file

A list on disk is read once from end to end when it is opened, to check that its words
ascend and to learn where some of them begin.

* `Scan` — what a scan has learnt so far.
* `scan` — the scan of a source.
* `Reader.wordAfter` — the way back to a word from a sampled one before it.
-/

/-- What the words read so far have shown. -/
structure Scan where
  /-- The number of words. -/
  size : Nat
  /-- The last word. -/
  previous : Option Word
  /-- The offsets of the sampled words. -/
  sampled : OffsetIndex

/-- Takes the next word in; fails if it sorts before the last one. -/
def Scan.add (order : WordOrder) (s : Scan) (found : Nat × Word) : Except ListError Scan :=
  let (offset, word) := found
  let next : Scan := ⟨s.size + 1, some word, s.sampled.offer s.size offset⟩
  match s.previous with
  | none => .ok next
  | some previous =>
    if order.compare previous word == .gt then .error (.unsorted s.size previous word)
    else .ok next

/-- Scans a source from its first byte, which counts as offset zero. -/
def scan (order : WordOrder) (sampled : OffsetIndex) (source : Source) :
    Except ListError Scan :=
  (Reader.start source).foldWords (Scan.add order) ⟨0, none, sampled⟩

/-- Reads the word that comes after `gap` others, if there are as many. -/
def Reader.wordAfter (gap : Nat) (reader : Reader) : Except ListError (Option Word) × Reader :=
  let (skipped, reader) := Reader.skip gap reader
  if skipped < gap then (.ok none, reader)
  else
    let (found, reader) := reader.next
    (found.map fun found => found.map Prod.snd, reader)

end Lexicon
