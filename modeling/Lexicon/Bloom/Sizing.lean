import Lexicon.Error

namespace Lexicon.Bloom

/-!
# Size of a filter

* `Sizing` — how many bits a filter has, and how many of them each item sets.
* `Sizing.ofRate` — the size that keeps false positives down to a rate.
-/

/-- Number of bits, and number of bits that an item sets. -/
structure Sizing where
  /-- The number of bits of the filter. -/
  bits : Nat
  /-- The number of bits that each item sets. -/
  hashes : Nat

/-- The natural logarithm of two. -/
def lnTwo : Float := 0.693147180559945309417232121458

/-- Keeps a number between two bounds. -/
def clamp (least greatest x : Float) : Float :=
  if x < least then least else if greatest < x then greatest else x

/-- The least number of bits of any filter, those of one storage word. -/
def leastBits : Float := 64

/-- Bits for the given number of items: `-n ln p / (ln 2)²`, rounded up. -/
def bitsFor (items rate : Float) : Nat :=
  let bits := ((-items * rate.log) / (lnTwo * lnTwo)).ceil
  (if leastBits ≤ bits then bits else leastBits).toUInt64.toNat

/-- Bits to an item: `m/n · ln 2`, rounded, between 1 and 32. -/
def hashesFor (items : Float) (bits : Nat) : Nat :=
  (clamp 1 32 ((Float.ofNat bits / items) * lnTwo).round).toUInt64.toNat

/-- Size for a number of items, at least one, and a rate strictly between zero and one. -/
def Sizing.ofRate (expected : Nat) (rate : Float) : Except DictionaryError Sizing :=
  if 0 < rate ∧ rate < 1 then
    let items := Float.ofNat (max expected 1)
    let bits := bitsFor items rate
    .ok ⟨bits, hashesFor items bits⟩
  else .error (.badRate rate)

end Lexicon.Bloom
