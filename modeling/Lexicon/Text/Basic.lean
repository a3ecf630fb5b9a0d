namespace Lexicon

/-!
# Text and bytes

The two raw materials of the library.

* `Text` — the characters of a word, a line or a message, in order.
* `Bytes` — the contents of a file or of a stream, before decoding.
-/

/-- Characters in reading order. -/
abbrev Text := List Char

/-- Raw bytes in file order. -/
abbrev Bytes := List UInt8

end Lexicon
