import Lexicon.Decimal.Numeral
import Mathlib.Data.List.Induction
import Mathlib.Data.Nat.Digits.Defs

namespace Lexicon.Decimal

/-!
# What whole numbers look like

* `IsNumeral`, `valueOf` — texts of digits and the numbers that they write.
* `IsSigned32`, `IsCount64` — numbers as option values write them.
* `signed?_eq_some_iff`, `unsigned?_eq_some_iff` — these are the texts that are read, as the
  numbers that they write.
-/

/-! ### Digits -/

/-- A text of one or more ASCII digits. -/
def IsNumeral (text : Text) : Prop :=
  text ≠ [] ∧ ∀ c ∈ text, c.isDigit = true

/-- The number that digits write, the last of which counts ones. -/
def valueOf (text : Text) : Nat :=
  Nat.ofDigits 10 (text.reverse.map fun c => c.toNat - '0'.toNat)

theorem valueOf_concat (text : Text) (c : Char) :
    valueOf (text ++ [c]) = valueOf text * 10 + (c.toNat - '0'.toNat) := by
  simp only [valueOf, List.reverse_append, List.reverse_singleton, List.singleton_append,
    List.map_cons, Nat.ofDigits_cons]
  omega

theorem digit?_eq_some_iff {c : Char} {n : Nat} :
    digit? c = some n ↔ c.isDigit = true ∧ c.toNat - '0'.toNat = n := by
  have hdigit : ('0' ≤ c ∧ c ≤ '9') ↔ c.isDigit = true := by
    simp only [Char.isDigit, Bool.and_eq_true, decide_eq_true_eq]
    rfl
  unfold digit?
  by_cases h : c.isDigit = true
  · simp [hdigit.mpr h, h]
  · simp [mt hdigit.mp h, h]

/-- Digits are read one after the other, each as ten times what stands in front of it. -/
theorem foldlM_digit?_eq_some_iff {text : Text} {n : Nat} :
    text.foldlM (fun value c => (digit? c).map (value * 10 + ·)) 0 = some n ↔
      (∀ c ∈ text, c.isDigit = true) ∧ valueOf text = n := by
  -- From the back, as the last digit is the last one read and counts ones.
  induction text using List.reverseRecOn generalizing n with
  | nil =>
    constructor
    · rintro ⟨⟩
      exact ⟨by simp, rfl⟩
    · rintro ⟨-, rfl⟩
      rfl
  | append_singleton text c ih =>
    rw [List.foldlM_append, valueOf_concat]
    simp only [Option.bind_eq_bind, Option.bind_eq_some_iff, ih, List.foldlM_cons, List.foldlM_nil,
      Option.map_eq_some_iff, digit?_eq_some_iff, List.mem_append, List.mem_singleton]
    constructor
    · rintro ⟨front, ⟨hfront, rfl⟩, value, ⟨digit, ⟨hc, rfl⟩, rfl⟩, hn⟩
      refine ⟨?_, Option.some.inj hn⟩
      rintro d (hd | rfl)
      · exact hfront d hd
      · exact hc
    · rintro ⟨hdigits, rfl⟩
      exact ⟨_, ⟨fun d hd => hdigits d (.inl hd), rfl⟩, _, ⟨_, ⟨hdigits c (.inr rfl), rfl⟩, rfl⟩,
        rfl⟩

theorem digits?_eq_some_iff {text : Text} {n : Nat} :
    digits? text = some n ↔ IsNumeral text ∧ valueOf text = n := by
  cases text with
  | nil => simp [digits?, IsNumeral]
  | cons c text =>
    rw [digits?, foldlM_digit?_eq_some_iff]
    · simp [IsNumeral]
    · simp

/-! ### Signs -/

/-- A text of digits, behind a sign or not, writes a number. -/
inductive Writes : Text → Int → Prop where
  /-- Digits alone. -/
  | plain {digits : Text} (h : IsNumeral digits) : Writes digits (valueOf digits)
  /-- Digits behind a plus sign. -/
  | plus {digits : Text} (h : IsNumeral digits) : Writes ('+' :: digits) (valueOf digits)
  /-- Digits behind a minus sign. -/
  | minus {digits : Text} (h : IsNumeral digits) : Writes ('-' :: digits) (-valueOf digits)

/-- A text that writes a number of 32 bits. -/
def IsSigned32 (text : Text) (n : Int) : Prop :=
  Writes text n ∧ -2 ^ 31 ≤ n ∧ n < 2 ^ 31

/-- A text without a minus sign that writes a number of 64 bits. -/
def IsCount64 (text : Text) (n : Nat) : Prop :=
  Writes text n ∧ text.head? ≠ some '-' ∧ n < 2 ^ 64

/-- Digits do not begin with a sign. -/
theorem IsNumeral.head?_ne {text : Text} (h : IsNumeral text) {c : Char} (hc : c.isDigit = false) :
    text.head? ≠ some c := by
  intro hhead
  have := h.2 c (List.mem_of_mem_head? hhead)
  rw [hc] at this
  exact absurd this Bool.false_ne_true

theorem writes_plus_iff {digits : Text} {n : Int} :
    Writes ('+' :: digits) n ↔ IsNumeral digits ∧ (valueOf digits : Int) = n := by
  constructor
  · intro h
    cases h with
    -- A plus sign is no digit.
    | plain h => exact absurd rfl (h.head?_ne (c := '+') rfl)
    | plus h => exact ⟨h, rfl⟩
  · rintro ⟨h, rfl⟩
    exact .plus h

theorem writes_minus_iff {digits : Text} {n : Int} :
    Writes ('-' :: digits) n ↔ IsNumeral digits ∧ -(valueOf digits : Int) = n := by
  constructor
  · intro h
    cases h with
    | plain h => exact absurd rfl (h.head?_ne (c := '-') rfl)
    | minus h => exact ⟨h, rfl⟩
  · rintro ⟨h, rfl⟩
    exact .minus h

theorem writes_iff_of_head? {text : Text} {n : Int} (hplus : text.head? ≠ some '+')
    (hminus : text.head? ≠ some '-') :
    Writes text n ↔ IsNumeral text ∧ (valueOf text : Int) = n := by
  constructor
  · intro h
    cases h with
    | plain h => exact ⟨h, rfl⟩
    | plus h => exact absurd rfl hplus
    | minus h => exact absurd rfl hminus
  · rintro ⟨h, rfl⟩
    exact .plain h

/-- A number is kept if it lies between the bounds of 32 bits. -/
theorem bind_within?_eq_some_iff {read : Option Int} {n : Int} :
    read.bind (within? (-0x80000000) 0x7FFFFFFF) = some n ↔
      read = some n ∧ -2 ^ 31 ≤ n ∧ n < 2 ^ 31 := by
  cases read with
  | none => simp
  | some value =>
    rw [Option.bind_some, within?]
    split_ifs with h
    · rw [Option.some.injEq]
      omega
    · simp only [Option.some.injEq, false_iff]
      omega

theorem head?_ne_of_forall {text : Text} {c : Char} (h : ∀ rest, text = c :: rest → False) :
    text.head? ≠ some c := by
  intro hhead
  obtain ⟨rest, rfl⟩ := List.head?_eq_some_iff.mp hhead
  exact h rest rfl

/-- The texts that are read as numbers of 32 bits are those that write one. -/
theorem signed?_eq_some_iff {text : Text} {n : Int} :
    signed? text = some n ↔ IsSigned32 text n := by
  -- The bounds are the same on both sides, so that only the sign is left to look at.
  rw [signed?.eq_def, bind_within?_eq_some_iff, IsSigned32]
  refine and_congr_left fun _ => ?_
  split
  · next digits => simp [writes_plus_iff, digits?_eq_some_iff]
  · next digits => simp [writes_minus_iff, digits?_eq_some_iff]
  · next hplus hminus =>
    rw [writes_iff_of_head? (head?_ne_of_forall hplus) (head?_ne_of_forall hminus)]
    simp [digits?_eq_some_iff]

/-- A number is kept if it fits in 64 bits. -/
theorem bind_greatestCount_eq_some_iff {read : Option Nat} {n : Nat} :
    (read.bind fun n => if n ≤ greatestCount then some n else none) = some n ↔
      read = some n ∧ n < 2 ^ 64 := by
  cases read with
  | none => simp
  | some value =>
    rw [Option.bind_some, greatestCount]
    split_ifs with h
    · rw [Option.some.injEq]
      omega
    · simp only [Option.some.injEq, false_iff]
      omega

/-- The texts that are read as numbers of 64 bits are those that write one. -/
theorem unsigned?_eq_some_iff {text : Text} {n : Nat} :
    unsigned? text = some n ↔ IsCount64 text n := by
  rw [unsigned?.eq_def, bind_greatestCount_eq_some_iff, IsCount64, ← and_assoc]
  refine and_congr_left fun _ => ?_
  split
  · next digits => simp [writes_plus_iff, digits?_eq_some_iff]
  · next hplus =>
    rw [digits?_eq_some_iff]
    constructor
    · rintro ⟨hdigits, rfl⟩
      exact ⟨.plain hdigits, hdigits.head?_ne rfl⟩
    · rintro ⟨hwrites, hminus⟩
      obtain ⟨hdigits, hvalue⟩ :=
        (writes_iff_of_head? (head?_ne_of_forall hplus) hminus).mp hwrites
      exact ⟨hdigits, Int.ofNat.inj hvalue⟩

end Lexicon.Decimal
