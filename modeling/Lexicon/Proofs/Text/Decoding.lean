import Lexicon.Text.Utf8
import Mathlib.Tactic.SplitIfs

namespace Lexicon.Utf8

/-!
# Decoding against encoding

The decoder accepts exactly the bytes that the encoder writes, and gives back the text that
they were written for.

* `trail?_succ_eq_some_iff`, `longChar?_eq_some_iff` — what the parts of the decoder accept.
* `decodeChar?_encodeChar_append` — the bytes of a character are read as that character.
* `eq_append_of_decodeChar?` — no other bytes are read as it.
* `decode?_eq_some_iff` — hence the same of whole texts.
-/

/-! ### Values -/

theorem toNat_byte {value : Nat} (h : value < 0x100) : (UInt8.ofNat value).toNat = value := by
  rw [UInt8.toNat_ofNat', Nat.mod_eq_of_lt h]

theorem toNat_scalar {value : Nat} (h : value.isValidChar) : (Char.ofNat value).toNat = value := by
  rw [Char.ofNat, dif_pos h]
  rfl

/-! ### Long forms -/

theorem trail?_zero_eq_some_iff {value value' : Nat} {bytes after : Bytes} :
    trail? 0 value bytes = some (value', after) ↔ value = value' ∧ bytes = after := by
  rw [trail?, Option.some.injEq, Prod.mk.injEq]

/-- A continuation byte appends six bits. -/
theorem trail?_succ_eq_some_iff {count value value' : Nat} {bytes after : Bytes} :
    trail? (count + 1) value bytes = some (value', after) ↔
      ∃ digit rest, digit < 0x40 ∧ bytes = UInt8.ofNat (0x80 + digit) :: rest ∧
        trail? count (value * 0x40 + digit) rest = some (value', after) := by
  constructor
  · intro h
    cases bytes with
    | nil => simp [trail?] at h
    | cons b rest =>
      rw [trail?] at h
      split_ifs at h with hmark
      refine ⟨b.toNat % 0x40, rest, Nat.mod_lt _ (by decide), ?_, h⟩
      rw [show 0x80 + b.toNat % 0x40 = b.toNat by omega, UInt8.ofNat_toNat]
  · rintro ⟨digit, rest, hdigit, rfl, h⟩
    rw [trail?, toNat_byte (by omega), if_pos (by omega),
      show (0x80 + digit) % 0x40 = digit by omega]
    exact h

/-- A long form stands for the character whose scalar value its bits write, unless a shorter
    form could hold that value. -/
theorem longChar?_eq_some_iff {count least bits : Nat} {bytes rest : Bytes} {c : Char} :
    longChar? count least bits bytes = some (c, rest) ↔
      least ≤ c.toNat ∧ trail? count bits bytes = some (c.toNat, rest) := by
  unfold longChar? scalar?
  constructor
  · intro h
    split at h
    · simp at h
    · next value after htrail =>
      split_ifs at h with hvalue
      · obtain ⟨rfl, rfl⟩ := Prod.mk.inj (Option.some.inj h)
        rw [toNat_scalar hvalue.2]
        exact ⟨hvalue.1, htrail⟩
      · simp at h
  · rintro ⟨hleast, htrail⟩
    simp only [htrail]
    rw [if_pos ⟨hleast, c.valid⟩, Char.ofNat_toNat]
    rfl

/-! ### Characters -/

/-- The bytes of a character are read as that character, whatever follows. -/
theorem decodeChar?_encodeChar_append (c : Char) (rest : Bytes) :
    decodeChar? (encodeChar c ++ rest) = some (c, rest) := by
  have hvalid : c.toNat < 0x110000 := by
    have h := c.valid
    simp only [UInt32.isValidChar, Nat.isValidChar] at h
    show c.val.toNat < _
    omega
  unfold encodeChar
  dsimp only
  -- By the number of bytes: the lead byte tells it, and each byte behind it gives six bits.
  split_ifs with hone htwo hthree <;> simp only [List.cons_append, List.nil_append]
  · rw [decodeChar?, toNat_byte (by omega), if_pos hone, Char.ofNat_toNat]
  · rw [decodeChar?, toNat_byte (by omega), if_neg (by omega), if_neg (by omega),
      if_pos (by omega), longChar?_eq_some_iff]
    simp only [trail?_succ_eq_some_iff, trail?_zero_eq_some_iff]
    exact ⟨by omega, _, _, Nat.mod_lt _ (by decide), rfl, by omega, rfl⟩
  · rw [decodeChar?, toNat_byte (by omega), if_neg (by omega), if_neg (by omega),
      if_neg (by omega), if_pos (by omega), longChar?_eq_some_iff]
    simp only [trail?_succ_eq_some_iff, trail?_zero_eq_some_iff]
    exact ⟨by omega, _, _, Nat.mod_lt _ (by decide), rfl, _, _, Nat.mod_lt _ (by decide), rfl,
      by omega, rfl⟩
  · rw [decodeChar?, toNat_byte (by omega), if_neg (by omega), if_neg (by omega),
      if_neg (by omega), if_neg (by omega), if_pos (by omega), longChar?_eq_some_iff]
    simp only [trail?_succ_eq_some_iff, trail?_zero_eq_some_iff]
    exact ⟨by omega, _, _, Nat.mod_lt _ (by decide), rfl, _, _, Nat.mod_lt _ (by decide), rfl,
      _, _, Nat.mod_lt _ (by decide), rfl, by omega, rfl⟩

/-- No other bytes are read as a character than its own. -/
theorem eq_append_of_decodeChar? {bytes rest : Bytes} {c : Char}
    (h : decodeChar? bytes = some (c, rest)) : bytes = encodeChar c ++ rest := by
  cases bytes with
  | nil => simp [decodeChar?] at h
  | cons lead tail =>
    rw [decodeChar?] at h
    have hlead := UInt8.ofNat_toNat (x := lead)
    generalize lead.toNat = b at h hlead
    subst hlead
    unfold encodeChar
    -- The bits that the lead byte carries and the digits behind it are those of the value.
    split_ifs at h with hone hmark htwo hthree hfour
    · obtain ⟨rfl, rfl⟩ := Prod.mk.inj (Option.some.inj h)
      rw [toNat_scalar (.inl (by omega)), if_pos hone]
      rfl
    · obtain ⟨hleast, htrail⟩ := longChar?_eq_some_iff.mp h
      simp only [trail?_succ_eq_some_iff, trail?_zero_eq_some_iff] at htrail
      obtain ⟨d, _, hd, rfl, hvalue, rfl⟩ := htrail
      rw [← hvalue, if_neg (by omega), if_pos (by omega)]
      rw [show 0xC0 + ((b - 0xC0) * 0x40 + d) / 0x40 = b by omega,
        show ((b - 0xC0) * 0x40 + d) % 0x40 = d by omega]
      rfl
    · obtain ⟨hleast, htrail⟩ := longChar?_eq_some_iff.mp h
      simp only [trail?_succ_eq_some_iff, trail?_zero_eq_some_iff] at htrail
      obtain ⟨d, _, hd, rfl, e, _, he, rfl, hvalue, rfl⟩ := htrail
      rw [if_neg (by omega), if_neg (by omega), if_pos (by omega)]
      rw [show 0xE0 + c.toNat / 0x1000 = b by omega, show c.toNat / 0x40 % 0x40 = d by omega,
        show c.toNat % 0x40 = e by omega]
      rfl
    · obtain ⟨hleast, htrail⟩ := longChar?_eq_some_iff.mp h
      simp only [trail?_succ_eq_some_iff, trail?_zero_eq_some_iff] at htrail
      obtain ⟨d, _, hd, rfl, e, _, he, rfl, f, _, hf, rfl, hvalue, rfl⟩ := htrail
      rw [if_neg (by omega), if_neg (by omega), if_neg (by omega)]
      rw [show 0xF0 + c.toNat / 0x40000 = b by omega,
        show c.toNat / 0x1000 % 0x40 = d by omega, show c.toNat / 0x40 % 0x40 = e by omega,
        show c.toNat % 0x40 = f by omega]
      rfl

/-! ### Texts -/

/-- The bytes that encode a text are read as that text. -/
theorem decode?_encode (text : Text) : decode? (encode text) = some text := by
  induction text with
  | nil => rw [decode?]; rfl
  | cons c text ih =>
    have hread := decodeChar?_encodeChar_append c (encode text)
    show decode? (encodeChar c ++ encode text) = _
    rw [decode?]
    split_ifs with hempty
    · -- A character has at least one byte.
      rw [List.isEmpty_iff.mp hempty, decodeChar?] at hread
      simp at hread
    · split
      · next hnone => simp [hread] at hnone
      · next c' rest hsome =>
        rw [hread] at hsome
        obtain ⟨rfl, rfl⟩ := Prod.mk.inj (Option.some.inj hsome)
        simp only [ih, Option.map_some]

/-- **Decoding inverts encoding.** Bytes have a text exactly if they encode it. -/
theorem decode?_eq_some_iff {bytes : Bytes} {text : Text} :
    decode? bytes = some text ↔ bytes = encode text := by
  constructor
  · intro h
    fun_induction decode? bytes generalizing text with
    | case1 bytes hempty =>
      obtain rfl := Option.some.inj h
      exact List.isEmpty_iff.mp hempty
    | case2 bytes hempty hread => simp at h
    | case3 bytes hempty c rest hread hlength ih =>
      obtain ⟨text, htext, rfl⟩ := Option.map_eq_some_iff.mp h
      rw [eq_append_of_decodeChar? hread, ih htext]
      rfl
  · rintro rfl
    exact decode?_encode text

/-- Bytes have no text exactly if no text has them as its encoding. -/
theorem decode?_eq_none_iff {bytes : Bytes} :
    decode? bytes = none ↔ ∀ text, bytes ≠ encode text := by
  rw [Option.eq_none_iff_forall_ne_some]
  exact forall_congr' fun text => not_congr decode?_eq_some_iff

end Lexicon.Utf8
