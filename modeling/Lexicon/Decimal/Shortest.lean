namespace Lexicon.Decimal

/-!
# Shortest decimals

A binary floating point value stands for every real number that rounds to it.  Its shortest
decimal is the point of that interval that lies on the coarsest grid of powers of ten.

* `Binary`, `Scaled` — values written with a power of two, or of ten.
* `Binary.holds` — whether a decimal lies in the interval of a binary value.
* `shortest` — the decimal with the fewest digits in the interval, the nearest of those, and
  of two equally near the greater.
-/

/-- The value `mantissa · 2 ^ exponent` of a double, with the mantissa in full. -/
structure Binary where
  /-- All bits of the value, the leading one included. -/
  mantissa : Nat
  /-- The power of two that the mantissa is multiplied by. -/
  exponent : Int

/-- The value `digits · 10 ^ exponent`. -/
structure Scaled where
  /-- The digits as one number. -/
  digits : Nat
  /-- The power of ten that the digits are multiplied by. -/
  exponent : Int

/-- The leading bit of a full mantissa, which has 53 bits. -/
def leadingBit : Nat := 0x10000000000000

/-- The exponent of the least doubles, whose neighbours lie evenly on both sides. -/
def leastExponent : Int := -1074

/-! ### The interval that rounds to a value, in quarters of a mantissa unit -/

/-- Quarters from zero to the lower end; below a power of two the gap is half as wide. -/
def Binary.lowQuarters (b : Binary) : Nat :=
  if b.mantissa = leadingBit ∧ leastExponent < b.exponent then 4 * b.mantissa - 1
  else 4 * b.mantissa - 2

/-- Quarters from zero to the upper end. -/
def Binary.highQuarters (b : Binary) : Nat :=
  4 * b.mantissa + 2

/-- A quarter of a mantissa unit, measured in the unit it shares with `gridUnit`. -/
def Binary.quarterUnit (b : Binary) (power : Int) : Nat :=
  Nat.pow 2 (b.exponent - 2).toNat * Nat.pow 10 (-power).toNat

/-- The distance of neighbours on the grid of `10 ^ power`, in the same unit. -/
def Binary.gridUnit (b : Binary) (power : Int) : Nat :=
  Nat.pow 10 power.toNat * Nat.pow 2 (2 - b.exponent).toNat

/-- Whether a decimal rounds to the value; the ends do when the mantissa is even. -/
def Binary.holds (b : Binary) (d : Scaled) : Bool :=
  let point := d.digits * b.gridUnit d.exponent
  let low := b.lowQuarters * b.quarterUnit d.exponent
  let high := b.highQuarters * b.quarterUnit d.exponent
  if b.mantissa % 2 = 0 then low ≤ point && point ≤ high else low < point && point < high

/-! ### Selection -/

/-- The better of the two grid points around the value, when one of them rounds to it. -/
def Binary.nearest? (b : Binary) (power : Int) : Option Scaled :=
  let value := 4 * b.mantissa * b.quarterUnit power
  let grid := b.gridUnit power
  let below : Scaled := ⟨value / grid, power⟩
  let above : Scaled := ⟨value / grid + 1, power⟩
  match b.holds below, b.holds above with
  | true, true => some (if 2 * (value % grid) < grid then below else above)
  | true, false => some below
  | false, true => some above
  | false, false => none

/-- The value itself, with all its digits. -/
def Binary.exact (b : Binary) : Scaled :=
  if 0 ≤ b.exponent then ⟨b.mantissa * Nat.pow 2 b.exponent.toNat, 0⟩
  else ⟨b.mantissa * Nat.pow 5 (-b.exponent).toNat, b.exponent⟩

/-- Powers of ten from above the greatest double to below the least one. -/
def gridPowers : List Int :=
  (List.range 700).map fun (i : Nat) => 310 - (i : Int)

/-- The point of the interval on the coarsest grid that has one. -/
def shortest (b : Binary) : Scaled :=
  (gridPowers.findSome? b.nearest?).getD b.exact

end Lexicon.Decimal
