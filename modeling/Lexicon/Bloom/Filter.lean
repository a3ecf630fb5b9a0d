import Lexicon.Bloom.Sizing
import Std.Data.HashMap

namespace Lexicon.Bloom

/-!
# Bloom filters

A filter remembers words by the bits that their hashes set.  It may take a word for one that
it has seen, but never the other way round.

* `Hasher` — the two hashes of a word; nothing in the library depends on their choice.
* `position` — the bit that a pair of hashes sets in a round.
* `Filter.insert`, `Filter.contains` — sets, or looks at, the bits of a word.
-/

/-! ### Hashes -/

/-- A hash of words, and a hash of words together with their first hash. -/
structure Hasher where
  /-- The hash of a word. -/
  first : Word → UInt64
  /-- The hash of a word and its first hash. -/
  second : Word → UInt64 → UInt64

/-- The two hashes of a word, of which the second one is made odd. -/
def Hasher.pair (hasher : Hasher) (word : Word) : UInt64 × UInt64 :=
  let h1 := hasher.first word
  (h1, hasher.second word h1 ||| 1)

/-- Mixes bytes into a 64-bit state. -/
def absorb (state : UInt64) (bytes : Bytes) : UInt64 :=
  bytes.foldl (fun state b => (state ^^^ b.toUInt64) * 0x100000001B3) state

/-- Lets every bit of a state act on every other one. -/
def scramble (state : UInt64) : UInt64 :=
  let a := (state ^^^ (state >>> 33)) * 0xFF51AFD7ED558CCD
  let b := (a ^^^ (a >>> 33)) * 0xC4CEB9FE1A85EC53
  b ^^^ (b >>> 33)

/-- Hashes of the encoded bytes of a word. -/
def Hasher.ofBytes : Hasher where
  first word := scramble (absorb 0xCBF29CE484222325 (Utf8.encode word))
  second word h1 := scramble (absorb (h1 ^^^ 0x9E3779B97F4A7C15) (Utf8.encode word))

/-- Bit that a pair of hashes sets in a round: the first hash, moved on by the second one each
    round in 64-bit words, modulo the number of bits. -/
def position (bits : Nat) (h1 h2 : UInt64) (round : Nat) : Nat :=
  (h1 + h2 * UInt64.ofNat round).toNat % bits

/-! ### Filters -/

/-- Bits in 64-bit storage words, of which those without a bit set are left out. -/
structure Filter where
  /-- The number of bits, and of bits to an item. -/
  sizing : Sizing
  /-- The hashes that choose the bits. -/
  hasher : Hasher
  /-- The storage words with a bit set, by their number. -/
  cells : Std.HashMap Nat UInt64

namespace Filter

/-- A filter without items. -/
def empty (sizing : Sizing) (hasher : Hasher) : Filter :=
  ⟨sizing, hasher, ∅⟩

/-- Storage word with the given number. -/
def cell (filter : Filter) (index : Nat) : UInt64 :=
  filter.cells.getD index 0

/-- The bits of a word. -/
def positions (filter : Filter) (word : Word) : List Nat :=
  let (h1, h2) := filter.hasher.pair word
  (List.range filter.sizing.hashes).map (position filter.sizing.bits h1 h2)

/-- Sets a bit. -/
def setBit (filter : Filter) (bit : Nat) : Filter :=
  let mask := (1 : UInt64) <<< UInt64.ofNat (bit % 64)
  { filter with cells := filter.cells.insert (bit / 64) (filter.cell (bit / 64) ||| mask) }

/-- Whether a bit is set. -/
def hasBit (filter : Filter) (bit : Nat) : Bool :=
  let mask := (1 : UInt64) <<< UInt64.ofNat (bit % 64)
  filter.cell (bit / 64) &&& mask != 0

/-- Sets the bits of a word. -/
def insert (filter : Filter) (word : Word) : Filter :=
  (filter.positions word).foldl setBit filter

/-- Whether all bits of a word are set. -/
def contains (filter : Filter) (word : Word) : Bool :=
  (filter.positions word).all filter.hasBit

end Filter

end Lexicon.Bloom
