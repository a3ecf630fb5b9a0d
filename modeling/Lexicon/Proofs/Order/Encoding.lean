import Lexicon.Text.Utf8
import Mathlib.Order.Defs.LinearOrder

namespace Lexicon.Utf8

/-!
# The order of encoded text

Encoded texts compare, byte by byte, as the texts do character by character.

* `compare_digits` — two numbers compare as their quotients and then their remainders do, so
  that a sequence of digits compares as the number that it writes.
* `compareLex_encodeChar_append` — the encoded bytes of two characters decide the comparison
  of what begins with them, unless the characters are the same.
* `compareLex_encode` — hence the comparison of whole texts.
-/

/-! ### Numbers and their digits -/

/-- Quotients decide the comparison of two numbers, and remainders where quotients agree. -/
theorem compare_digits (a b n : Nat) :
    (compare (a / n) (b / n)).then (compare (a % n) (b % n)) = compare a b := by
  have ha := Nat.div_add_mod a n
  have hb := Nat.div_add_mod b n
  -- Numbers with the same quotient differ by what their remainders do.
  rcases Nat.lt_trichotomy (a / n) (b / n) with hlt | heq | hgt
  · rw [Nat.compare_eq_lt.mpr hlt, Nat.compare_eq_lt.mpr (Nat.lt_of_div_lt_div hlt)]
    rfl
  · rw [Nat.compare_eq_eq.mpr heq, Ordering.eq_then]
    rw [heq] at ha
    rcases Nat.lt_trichotomy (a % n) (b % n) with h | h | h
    · rw [Nat.compare_eq_lt.mpr h, Nat.compare_eq_lt.mpr (by omega)]
    · rw [Nat.compare_eq_eq.mpr h, Nat.compare_eq_eq.mpr (by omega)]
    · rw [Nat.compare_eq_gt.mpr h, Nat.compare_eq_gt.mpr (by omega)]
  · rw [Nat.compare_eq_gt.mpr hgt, Nat.compare_eq_gt.mpr (Nat.lt_of_div_lt_div hgt)]
    rfl

/-- The same offset on both sides changes no comparison. -/
theorem compare_add_left (k a b : Nat) : compare (k + a) (k + b) = compare a b := by
  rcases Nat.lt_trichotomy a b with h | h | h
  · rw [Nat.compare_eq_lt.mpr h, Nat.compare_eq_lt.mpr (by omega)]
  · rw [Nat.compare_eq_eq.mpr h, Nat.compare_eq_eq.mpr (by omega)]
  · rw [Nat.compare_eq_gt.mpr h, Nat.compare_eq_gt.mpr (by omega)]

/-- Bytes compare as the numbers that they hold. -/
theorem compare_ofNat {a b : Nat} (ha : a < 256) (hb : b < 256) :
    compare (UInt8.ofNat a) (UInt8.ofNat b) = compare a b := by
  show compareOfLessAndEq _ _ = _
  rw [Nat.compare_eq_ite_lt]
  simp only [compareOfLessAndEq, UInt8.lt_iff_toNat_lt, ← UInt8.toNat_inj, UInt8.toNat_ofNat']
  rw [Nat.mod_eq_of_lt ha, Nat.mod_eq_of_lt hb]
  split_ifs <;> first | rfl | omega

/-- Characters compare as their scalar values. -/
theorem compare_toNat (c d : Char) : compare c.toNat d.toNat = compare c d := by
  show _ = compareOfLessAndEq c d
  rw [Nat.compare_eq_ite_lt]
  simp only [compareOfLessAndEq, Char.lt_def, UInt32.lt_iff_toNat_lt, Char.ext_iff,
    ← UInt32.toNat_inj, Char.toNat]
  split_ifs <;> first | rfl | omega

/-! ### One character -/

/-- No character has a scalar value beyond the four byte forms. -/
theorem toNat_lt_fourBytes (c : Char) : c.toNat < 0x200000 := by
  have h := c.valid
  simp only [UInt32.isValidChar, Nat.isValidChar] at h
  show c.val.toNat < _
  omega

/-- Lead bytes of different lengths compare as the values that they lead. -/
theorem compareLex_cons_of_lt {a b v w : Nat} (hab : a < b) (hb : b < 256) (hvw : v < w)
    (s t : Bytes) (o : Ordering) :
    List.compareLex compare (UInt8.ofNat a :: s) (UInt8.ofNat b :: t) = (compare v w).then o := by
  rw [List.compareLex_cons_cons, compare_ofNat (by omega) hb, Nat.compare_eq_lt.mpr hab,
    Nat.compare_eq_lt.mpr hvw]
  rfl

theorem compareLex_cons_of_gt {a b v w : Nat} (hab : b < a) (ha : a < 256) (hvw : w < v)
    (s t : Bytes) (o : Ordering) :
    List.compareLex compare (UInt8.ofNat a :: s) (UInt8.ofNat b :: t) = (compare v w).then o := by
  rw [List.compareLex_cons_cons, compare_ofNat ha (by omega), Nat.compare_eq_gt.mpr hab,
    Nat.compare_eq_gt.mpr hvw]
  rfl

/-- Bytes with the same mark compare as the digits that they carry. -/
theorem compareLex_cons_mark (mark a b : Nat) (ha : mark + a < 256) (hb : mark + b < 256)
    (s t : Bytes) :
    List.compareLex compare (UInt8.ofNat (mark + a) :: s) (UInt8.ofNat (mark + b) :: t)
      = (compare a b).then (List.compareLex compare s t) := by
  rw [List.compareLex_cons_cons, compare_ofNat ha hb, compare_add_left]

/-- Without its lowest digits a value compares as its upper digits do, one after the other. -/
theorem compare_upper_digits {n k : Nat} (hk : k = n * 0x40) (v w : Nat) :
    (compare (v / k) (w / k)).then (compare (v / n % 0x40) (w / n % 0x40))
      = compare (v / n) (w / n) := by
  rw [hk, ← Nat.div_div_eq_div_mul, ← Nat.div_div_eq_div_mul, compare_digits]

/-- The encoded bytes of two characters decide a comparison unless they are the same. -/
theorem compareLex_encodeChar_append (c d : Char) (s t : Bytes) :
    List.compareLex compare (encodeChar c ++ s) (encodeChar d ++ t)
      = (compare c d).then (List.compareLex compare s t) := by
  have hc := toNat_lt_fourBytes c
  have hd := toNat_lt_fourBytes d
  rw [← compare_toNat]
  simp only [encodeChar]
  generalize c.toNat = v at *
  generalize d.toNat = w at *
  split_ifs <;> simp only [List.cons_append, List.nil_append]
  -- Characters of different lengths differ in the lead byte; the others digit by digit.
  any_goals (refine compareLex_cons_of_lt ?_ ?_ ?_ _ _ _ <;> omega)
  any_goals (refine compareLex_cons_of_gt ?_ ?_ ?_ _ _ _ <;> omega)
  · rw [List.compareLex_cons_cons, compare_ofNat (by omega) (by omega)]
  · rw [compareLex_cons_mark _ _ _ (by omega) (by omega),
      compareLex_cons_mark _ _ _ (by omega) (by omega), ← Ordering.then_assoc, compare_digits]
  · rw [compareLex_cons_mark _ _ _ (by omega) (by omega),
      compareLex_cons_mark _ _ _ (by omega) (by omega),
      compareLex_cons_mark _ _ _ (by omega) (by omega), ← Ordering.then_assoc,
      ← Ordering.then_assoc, compare_upper_digits (by rfl), compare_digits]
  · rw [compareLex_cons_mark _ _ _ (by omega) (by omega),
      compareLex_cons_mark _ _ _ (by omega) (by omega),
      compareLex_cons_mark _ _ _ (by omega) (by omega),
      compareLex_cons_mark _ _ _ (by omega) (by omega), ← Ordering.then_assoc,
      ← Ordering.then_assoc, ← Ordering.then_assoc, compare_upper_digits (by rfl),
      compare_upper_digits (by rfl), compare_digits]

/-! ### Texts -/

theorem encodeChar_ne_nil (c : Char) : encodeChar c ≠ [] := by
  simp only [encodeChar]
  split_ifs <;> exact List.cons_ne_nil _ _

/-- **Encoding keeps the order.** The bytes of two texts compare as their characters do. -/
theorem compareLex_encode (a b : Text) :
    List.compareLex compare (encode a) (encode b) = List.compareLex compare a b := by
  induction a generalizing b with
  | nil =>
    cases b with
    | nil => rfl
    | cons d b =>
      -- A character has at least one byte, so the empty text comes first in bytes as well.
      obtain ⟨x, xs, hx⟩ := List.exists_cons_of_ne_nil (encodeChar_ne_nil d)
      simp only [encode, List.flatMap_nil, List.flatMap_cons, hx, List.cons_append,
        List.compareLex_nil_cons]
  | cons c a ih =>
    cases b with
    | nil =>
      obtain ⟨x, xs, hx⟩ := List.exists_cons_of_ne_nil (encodeChar_ne_nil c)
      simp only [encode, List.flatMap_nil, List.flatMap_cons, hx, List.cons_append,
        List.compareLex_cons_nil]
    | cons d b =>
      show List.compareLex compare (encodeChar c ++ encode a) (encodeChar d ++ encode b) = _
      rw [compareLex_encodeChar_append, ih, List.compareLex_cons_cons]

end Lexicon.Utf8
