import Lexicon.Bloom.Filter
import Mathlib.Data.Nat.Bitwise

namespace Lexicon.Bloom

/-!
# What a filter remembers

* `Filter.hasBit_setBit` — setting a bit sets that bit and no other.
* `Filter.hasBit_insert` — a word that is added sets its bits and no others.
* `Filter.contains_insert_self`, `Filter.contains_insert_of_contains` — a word that was added is
  found from then on.
* `Filter.hasBit_insertMany`, `Filter.contains_insertMany` — the bits after many words were added,
  and the words that are found.
* `Filter.cell_eq_of_hasBit` — filters with the same bits have the same storage words.
-/

/-! ### Bits of a storage word -/

/-- The mask of a bit in its storage word. -/
theorem toNat_mask (bit : Nat) :
    ((1 : UInt64) <<< UInt64.ofNat (bit % 64)).toNat = 2 ^ (bit % 64) := by
  have hlt : bit % 64 < 64 := Nat.mod_lt _ (by omega)
  have hpow : 2 ^ (bit % 64) < 2 ^ 64 := Nat.pow_lt_pow_right (by omega) hlt
  rw [UInt64.toNat_shiftLeft, UInt64.toNat_ofNat_of_lt' (by simp [UInt64.size]; omega), Nat.mod_mod,
    UInt64.toNat_one, Nat.one_shiftLeft, Nat.mod_eq_of_lt hpow]

namespace Filter

variable (filter : Filter)

/-- A bit is set if it is set in its storage word. -/
theorem hasBit_eq (bit : Nat) :
    filter.hasBit bit = (filter.cell (bit / 64)).toNat.testBit (bit % 64) := by
  have hmasked : (filter.cell (bit / 64) &&& (1 : UInt64) <<< UInt64.ofNat (bit % 64)).toNat
      = 2 ^ (bit % 64) * ((filter.cell (bit / 64)).toNat.testBit (bit % 64)).toNat := by
    rw [UInt64.toNat_and, toNat_mask, Nat.and_comm, Nat.two_pow_and]
  rw [hasBit, Bool.eq_iff_iff, bne_iff_ne, ne_eq, ← UInt64.toNat_inj, hmasked]
  cases (filter.cell (bit / 64)).toNat.testBit (bit % 64) <;> simp

/-- Setting a bit changes its storage word only. -/
theorem cell_setBit (bit index : Nat) :
    (filter.setBit bit).cell index =
      if bit / 64 = index then
        filter.cell index ||| (1 : UInt64) <<< UInt64.ofNat (bit % 64)
      else filter.cell index := by
  simp only [setBit, cell, Std.HashMap.getD_insert, beq_iff_eq]
  split_ifs with hindex
  · rw [hindex]
  · rfl

/-- Setting a bit sets that bit and no other. -/
theorem hasBit_setBit (bit other : Nat) :
    (filter.setBit bit).hasBit other = (bit == other || filter.hasBit other) := by
  rw [hasBit_eq, hasBit_eq, cell_setBit]
  -- Bits of one storage word differ by their places in it, and others by their storage words.
  split_ifs with hcell
  · rw [UInt64.toNat_or, toNat_mask, Nat.testBit_or, Nat.testBit_two_pow, Bool.or_comm]
    congr 1
    rw [Bool.eq_iff_iff, decide_eq_true_eq, beq_iff_eq]
    omega
  · have hne : (bit == other) = false := by
      rw [beq_eq_false_iff_ne]
      rintro rfl
      exact hcell rfl
    rw [hne, Bool.false_or]

/-! ### Words -/

theorem hasBit_foldl_setBit (bits : List Nat) (other : Nat) :
    (bits.foldl setBit filter).hasBit other = (bits.contains other || filter.hasBit other) := by
  induction bits generalizing filter with
  | nil => rfl
  | cons bit bits ih =>
    rw [List.foldl_cons, ih, hasBit_setBit, List.contains_cons, Bool.beq_comm, ← Bool.or_assoc,
      Bool.or_comm (bits.contains other)]

/-- Setting bits leaves the size and the hashes of a filter as they are. -/
theorem exists_foldl_setBit (bits : List Nat) :
    ∃ cells, bits.foldl setBit filter = { filter with cells } := by
  induction bits generalizing filter with
  | nil => exact ⟨filter.cells, rfl⟩
  | cons bit bits ih => exact ih (filter.setBit bit)

/-- A word that is added sets its bits and no others. -/
theorem hasBit_insert (word : Word) (bit : Nat) :
    (filter.insert word).hasBit bit
      = ((filter.positions word).contains bit || filter.hasBit bit) :=
  hasBit_foldl_setBit filter _ bit

/-- Adding a word leaves the size and the hashes of a filter as they are. -/
theorem exists_insert (word : Word) : ∃ cells, filter.insert word = { filter with cells } :=
  exists_foldl_setBit filter _

/-- The bits of a word are the same whatever was added. -/
theorem positions_insert (word other : Word) :
    (filter.insert word).positions other = filter.positions other := by
  obtain ⟨cells, hcells⟩ := filter.exists_insert word
  rw [hcells]
  rfl

/-- A word is found after it was added. -/
theorem contains_insert_self (word : Word) : (filter.insert word).contains word = true := by
  rw [contains, positions_insert, List.all_eq_true]
  intro bit hbit
  rw [hasBit_insert, List.contains_iff_mem.mpr hbit, Bool.true_or]

/-- A word that is found is found after others were added. -/
theorem contains_insert_of_contains {word : Word} (h : filter.contains word = true)
    (other : Word) : (filter.insert other).contains word = true := by
  rw [contains, List.all_eq_true] at h
  rw [contains, positions_insert, List.all_eq_true]
  intro bit hbit
  rw [hasBit_insert, h bit hbit, Bool.or_true]

/-! ### Many words -/

/-- Adds words one after the other. -/
def insertMany (words : List Word) : Filter :=
  words.foldl insert filter

theorem exists_insertMany (words : List Word) :
    ∃ cells, filter.insertMany words = { filter with cells } := by
  induction words generalizing filter with
  | nil => exact ⟨filter.cells, rfl⟩
  | cons word words ih =>
    obtain ⟨cells, hcells⟩ := filter.exists_insert word
    obtain ⟨cells', hcells'⟩ := ih (filter.insert word)
    refine ⟨cells', ?_⟩
    show (filter.insert word).insertMany words = _
    rw [hcells', hcells]

/-- Words that are added set their bits and no others. -/
theorem hasBit_insertMany (words : List Word) (bit : Nat) :
    (filter.insertMany words).hasBit bit = true ↔
      (∃ word ∈ words, bit ∈ filter.positions word) ∨ filter.hasBit bit = true := by
  induction words generalizing filter with
  | nil => simp [insertMany]
  | cons word words ih =>
    refine (ih (filter.insert word)).trans ?_
    simp only [positions_insert, hasBit_insert, Bool.or_eq_true, List.contains_iff_mem,
      List.mem_cons, or_and_right, exists_or, exists_eq_left]
    rw [or_assoc, or_left_comm]

/-- A word is found exactly if each of its bits is set by one of the words that were added, unless
    it was set before. -/
theorem contains_insertMany (words : List Word) (word : Word) :
    (filter.insertMany words).contains word = true ↔
      ∀ bit ∈ filter.positions word,
        (∃ other ∈ words, bit ∈ filter.positions other) ∨ filter.hasBit bit = true := by
  have hpositions : (filter.insertMany words).positions word = filter.positions word := by
    obtain ⟨cells, hcells⟩ := filter.exists_insertMany words
    rw [hcells]
    rfl
  simp only [contains, hpositions, List.all_eq_true, hasBit_insertMany]

theorem hasBit_empty (sizing : Sizing) (hasher : Hasher) (bit : Nat) :
    (empty sizing hasher).hasBit bit = false := by
  rw [hasBit_eq]
  simp [empty, cell]

/-- Storage words are known from their bits. -/
theorem cell_eq_of_hasBit {filter filter' : Filter}
    (h : ∀ bit, filter.hasBit bit = true ↔ filter'.hasBit bit = true) (index : Nat) :
    filter.cell index = filter'.cell index := by
  rw [← UInt64.toNat_inj]
  refine Nat.eq_of_testBit_eq fun place => ?_
  by_cases hplace : place < 64
  · have hbit := Bool.eq_iff_iff.mpr (h (64 * index + place))
    have hindex : (64 * index + place) / 64 = index := by omega
    have hmod : (64 * index + place) % 64 = place := by omega
    rwa [hasBit_eq, hasBit_eq, hindex, hmod] at hbit
  · -- Behind the last place of a storage word there is no bit.
    have hbehind : ∀ cell : UInt64, cell.toNat.testBit place = false := fun cell =>
      Nat.testBit_lt_two_pow (cell.toNat_lt.trans_le (Nat.pow_le_pow_right (by omega) (by omega)))
    rw [hbehind, hbehind]

end Filter

end Lexicon.Bloom
