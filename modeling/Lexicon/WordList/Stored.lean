import Lexicon.Entry
import Lexicon.WordList.Basic
import Lexicon.WordList.Scan

namespace Lexicon

/-!
# Word lists in an open file

Only the sampled offsets are held in memory.  To read a word, the cursor of the file is set
to the nearest sampled word before it, and the words in between are passed over.

* `OpenFile` — the contents of a file, as they are now, and the cursor.
* `Stored.ofFile` — scans an open file from its cursor on.
* `Stored.ofEntry` — scans what a path leads to.
* `Stored.fetch` — reads a word; the place where the cursor was does not matter.
-/

/-- A file open for reading. -/
structure OpenFile where
  /-- The bytes of the file. -/
  contents : Bytes
  /-- The offset of the next byte to be read. -/
  cursor : Nat

namespace OpenFile

/-- Sets the cursor. -/
def seek (file : OpenFile) (offset : Nat) : OpenFile :=
  { file with cursor := offset }

/-- The bytes from the cursor on. -/
def rest (file : OpenFile) : Bytes :=
  file.contents.drop file.cursor

/-- Reader of the words from the cursor on. -/
def reader (file : OpenFile) : Reader :=
  Reader.startAt (Source.ofFile file.rest) file.cursor

end OpenFile

/-- A list that reads its words from an open file. -/
structure Stored where
  /-- The order that the words ascend in. -/
  order : WordOrder
  /-- The number of words. -/
  size : Nat
  /-- The offsets of some of the words. -/
  sampled : OffsetIndex
  /-- The file, until the list is closed. -/
  file : Option OpenFile

namespace Stored

/-- Scans a file from its cursor on, with offsets counted from there, and sets the cursor back
    to the start. -/
def ofFile (order : WordOrder) (percent : Int) (file : OpenFile) : Except ListError Stored := do
  let sampled ← OffsetIndex.ofPercent percent
  let scanned ← scan order sampled (Source.ofFile file.rest)
  return ⟨order, scanned.size, scanned.sampled, some (file.seek 0)⟩

/-- Opens a file by its contents, with the cursor at the start. -/
def ofContents (order : WordOrder) (percent : Int) (contents : Bytes) : Except ListError Stored :=
  ofFile order percent ⟨contents, 0⟩

/-- Opens what a path leads to.  Nothing is read before the percentage is known to be one. -/
def ofEntry (order : WordOrder) (percent : Int) : Entry → Except ListError Stored
  | .file contents => ofContents order percent contents
  | .directory => do
    let _ ← OffsetIndex.ofPercent percent
    throw (.file .isDirectory)

/-- Reads the word at an index, from the nearest sampled word on. -/
def fetch (list : Stored) (index : Nat) : Except ListError Word × Stored :=
  if list.size ≤ index then (.error (.outOfRange index list.size), list)
  else
    match list.file with
    | none => (.error .closed, list)
    | some file =>
      -- Reading starts at the sampled word, wherever the cursor was left.
      let (base, offset) := list.sampled.anchor index
      let (found, reader) := (file.seek offset).reader.wordAfter (index - base)
      let after := { list with file := some (file.seek reader.position) }
      match found with
      | .ok (some word) => (.ok word, after)
      | .ok none => (.error (.outOfRange index list.size), after)
      | .error e => (.error e, after)

/-- Gives the file back. -/
def close (list : Stored) : Stored :=
  { list with file := none }

/-- Whether the file has been given back. -/
def isClosed (list : Stored) : Bool :=
  list.file.isNone

/-- The list after another program has put new contents into the file. -/
def overwrite (list : Stored) (contents : Bytes) : Stored :=
  { list with file := list.file.map fun file => { file with contents } }

end Stored

instance : WordList Stored where
  order := Stored.order
  size := Stored.size
  fetch := Stored.fetch
  close := Stored.close

end Lexicon
