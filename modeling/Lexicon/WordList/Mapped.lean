import Lexicon.Entry
import Lexicon.WordList.Basic
import Lexicon.WordList.Scan

namespace Lexicon

/-!
# Word lists in mapped memory

The bytes of the file are at hand, so that reading a word needs no cursor.

* `Mapped.ofContents` — scans the mapped bytes.
* `Mapped.ofEntry` — maps and scans what a path leads to.
* `Mapped.get` — the word at an index.
-/

/-- A list that reads its words from the bytes of a file in memory. -/
structure Mapped where
  /-- The order that the words ascend in. -/
  order : WordOrder
  /-- The number of words. -/
  size : Nat
  /-- The offsets of some of the words. -/
  sampled : OffsetIndex
  /-- The bytes, until the list is closed. -/
  contents : Option Bytes

namespace Mapped

/-- Scans the bytes of a file. -/
def ofContents (order : WordOrder) (percent : Int) (contents : Bytes) :
    Except ListError Mapped := do
  let sampled ← OffsetIndex.ofPercent percent
  let scanned ← scan order sampled [contents]
  return ⟨order, scanned.size, scanned.sampled, some contents⟩

/-- Maps what a path leads to.  Nothing is mapped before the percentage is known to be one. -/
def ofEntry (order : WordOrder) (percent : Int) : Entry → Except ListError Mapped
  | .file contents => ofContents order percent contents
  | .directory => do
    let _ ← OffsetIndex.ofPercent percent
    throw (.file .notMappable)

/-- Word at an index, found from the nearest sampled word on. -/
def get (list : Mapped) (index : Nat) : Except ListError Word :=
  if list.size ≤ index then .error (.outOfRange index list.size)
  else
    match list.contents with
    | none => .error .closed
    | some contents =>
      let (base, offset) := list.sampled.anchor index
      match ((Reader.startAt [contents.drop offset] offset).wordAfter (index - base)).1 with
      | .ok (some word) => .ok word
      | .ok none => .error (.outOfRange index list.size)
      | .error e => .error e

/-- Gives the mapping back. -/
def close (list : Mapped) : Mapped :=
  { list with contents := none }

/-- Whether the mapping has been given back. -/
def isClosed (list : Mapped) : Bool :=
  list.contents.isNone

end Mapped

instance : WordList Mapped where
  order := Mapped.order
  size := Mapped.size
  fetch list index := (list.get index, list)
  close := Mapped.close

end Lexicon
