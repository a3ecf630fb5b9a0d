import Lexicon.Text.Basic

namespace Lexicon.Utf8

/-!
# UTF-8

The encoding of word list files, with a decoder that accepts exactly the shortest
form of every scalar value.

* `encode` — the bytes of a text.
* `decode?` — the text of some bytes, when they are well formed.
* `length_lt_of_decodeChar?` — decoding a character consumes a byte, so `decode?` ends.
-/

/-! ### Writing -/

/-- Bytes of one character: a lead byte that tells the length, then six bits a byte. -/
def encodeChar (c : Char) : Bytes :=
  let v := c.toNat
  if v < 0x80 then
    [UInt8.ofNat v]
  else if v < 0x800 then
    [UInt8.ofNat (0xC0 + v / 0x40), UInt8.ofNat (0x80 + v % 0x40)]
  else if v < 0x10000 then
    [UInt8.ofNat (0xE0 + v / 0x1000), UInt8.ofNat (0x80 + v / 0x40 % 0x40),
      UInt8.ofNat (0x80 + v % 0x40)]
  else
    [UInt8.ofNat (0xF0 + v / 0x40000), UInt8.ofNat (0x80 + v / 0x1000 % 0x40),
      UInt8.ofNat (0x80 + v / 0x40 % 0x40), UInt8.ofNat (0x80 + v % 0x40)]

/-- Bytes of a text, character after character. -/
def encode (text : Text) : Bytes :=
  text.flatMap encodeChar

/-! ### Reading -/

/-- Appends the six bits of each of `count` continuation bytes to `value`. -/
def trail? : (count value : Nat) → Bytes → Option (Nat × Bytes)
  | 0, value, rest => some (value, rest)
  | _ + 1, _, [] => none
  | count + 1, value, b :: rest =>
    if b.toNat / 0x40 = 2 then trail? count (value * 0x40 + b.toNat % 0x40) rest else none

/-- Accepts a value that no shorter form could hold and that is a scalar value. -/
def scalar? (least value : Nat) : Option Char :=
  if least ≤ value ∧ value.isValidChar then some (Char.ofNat value) else none

/-- Reads a character of `count` continuation bytes whose lead byte carries `bits`. -/
def longChar? (count least bits : Nat) (rest : Bytes) : Option (Char × Bytes) :=
  match trail? count bits rest with
  | none => none
  | some (value, after) => (scalar? least value).map (·, after)

/-- Splits off the first character, or fails when no character is well formed there. -/
def decodeChar? : Bytes → Option (Char × Bytes)
  | [] => none
  | lead :: rest =>
    let b := lead.toNat
    if b < 0x80 then some (Char.ofNat b, rest)
    else if b < 0xC0 then none
    else if b < 0xE0 then longChar? 1 0x80 (b - 0xC0) rest
    else if b < 0xF0 then longChar? 2 0x800 (b - 0xE0) rest
    else if b < 0xF8 then longChar? 3 0x10000 (b - 0xF0) rest
    else none

theorem length_le_of_trail? {count value value' : Nat} {bytes rest : Bytes}
    (h : trail? count value bytes = some (value', rest)) : rest.length ≤ bytes.length := by
  induction count generalizing value bytes with
  | zero => simp only [trail?, Option.some.injEq, Prod.mk.injEq] at h; simp [h.2]
  | succ count ih =>
    cases bytes with
    | nil => simp [trail?] at h
    | cons b tail =>
      simp only [trail?] at h
      split at h
      · have := ih h
        simp only [List.length_cons]
        omega
      · simp at h

theorem length_le_of_longChar? {count least bits : Nat} {bytes rest : Bytes} {c : Char}
    (h : longChar? count least bits bytes = some (c, rest)) : rest.length ≤ bytes.length := by
  unfold longChar? at h
  split at h
  · simp at h
  · next value after htrail =>
    simp only [Option.map_eq_some_iff, Prod.mk.injEq] at h
    obtain ⟨_, _, _, rfl⟩ := h
    exact length_le_of_trail? htrail

/-- A decoded character takes at least its lead byte away. -/
theorem length_lt_of_decodeChar? {bytes rest : Bytes} {c : Char}
    (h : decodeChar? bytes = some (c, rest)) : rest.length < bytes.length := by
  cases bytes with
  | nil => simp [decodeChar?] at h
  | cons lead tail =>
    simp only [decodeChar?] at h
    have shorter : rest.length ≤ tail.length := by
      repeat' split at h
      · simp only [Option.some.injEq, Prod.mk.injEq] at h; simp [h.2]
      · simp at h
      · exact length_le_of_longChar? h
      · exact length_le_of_longChar? h
      · exact length_le_of_longChar? h
      · simp at h
    simp only [List.length_cons]
    omega

/-- Text of well-formed bytes; one bad byte spoils them all. -/
def decode? (bytes : Bytes) : Option Text :=
  if bytes.isEmpty then some []
  else
    match h : decodeChar? bytes with
    | none => none
    | some (c, rest) =>
      have := length_lt_of_decodeChar? h
      (decode? rest).map (c :: ·)
termination_by bytes.length

end Lexicon.Utf8
