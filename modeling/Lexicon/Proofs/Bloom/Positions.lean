import Lexicon.Proofs.Bloom.Storage
import Mathlib.Algebra.Order.Ring.Abs
import Mathlib.Data.Nat.ModEq
import Mathlib.Data.Nat.Prime.Basic
import Mathlib.Tactic.Linarith

namespace Lexicon.Bloom

/-!
# Words with a single bit

Each round moves on by the second hash of a word, which is odd.  An odd step leads to another bit
where the number of bits is even, but not where it is odd and divides the step.

* `hashAt`, `IsStep`, `exists_step` — the hash of a round, and the two numbers that the next one can
  differ by from it.
* `IsStep.odd_of_dvd`, `IsStep.eq_of_dvd` — steps that lead to the same bit.
* `Collapses`, `collapses_iff` — all rounds set one bit just if all take the same step, up or down.
* `exists_collapses_iff`, `words_collapse_for_odd_bits_only` — the sizes of a filter for which there
  are such words.
* `odd_step_collapses` — one of them.
-/

variable {bits hashes round : Nat} {h1 h2 : UInt64} {step step' : Int}

/-! ### Steps -/

/-- Hash of a round: the first hash, moved on by the second one each round. -/
def hashAt (h1 h2 : UInt64) (round : Nat) : Nat :=
  (h1 + h2 * UInt64.ofNat round).toNat

/-- What the hash of the next round can differ by: the second hash, less the range of hashes where
    the sum leaves it. -/
def IsStep (h2 : UInt64) (step : Int) : Prop :=
  step = h2.toNat ∨ step = h2.toNat - 2 ^ 64

theorem hashAt_zero (h1 h2 : UInt64) : hashAt h1 h2 0 = h1.toNat := by
  simp [hashAt]

theorem hashAt_lt (h1 h2 : UInt64) (round : Nat) : hashAt h1 h2 round < 2 ^ 64 :=
  UInt64.toNat_lt _

/-- Both kinds of steps lead to the same hash. -/
theorem hashAt_eq (h1 : UInt64) (hstep : IsStep h2 step) (round : Nat) :
    (hashAt h1 h2 round : Int) = (h1.toNat + round * step) % 2 ^ 64 := by
  have hnat : hashAt h1 h2 round = (h1.toNat + round * h2.toNat) % 2 ^ 64 := by
    rw [hashAt, UInt64.toNat_add, UInt64.toNat_mul, UInt64.toNat_ofNat', Nat.mul_mod_mod,
      Nat.add_mod_mod, Nat.mul_comm]
  have hup : (hashAt h1 h2 round : Int) = (h1.toNat + round * h2.toNat) % 2 ^ 64 := by
    exact_mod_cast hnat
  rcases hstep with rfl | rfl
  · exact hup
  · rw [hup, Int.mul_sub, ← Int.add_sub_assoc, Int.sub_mul_emod_self_right]

/-- Each round takes one of the two steps. -/
theorem exists_step (h1 h2 : UInt64) (round : Nat) :
    ∃ step, IsStep h2 step ∧ (hashAt h1 h2 (round + 1) : Int) = hashAt h1 h2 round + step := by
  have hup := hashAt_eq h1 (.inl rfl : IsStep h2 h2.toNat) round
  have hnext := hashAt_eq h1 (.inl rfl : IsStep h2 h2.toNat) (round + 1)
  have hlt := hashAt_lt h1 h2 round
  have hlt2 := h2.toNat_lt
  rw [Nat.cast_succ, Int.add_mul, Int.one_mul, ← Int.add_assoc, ← Int.emod_add_emod, ← hup] at hnext
  -- Both hashes are below the range, so that the sum leaves it once at most.
  by_cases hover : hashAt h1 h2 round + h2.toNat < 2 ^ 64
  · refine ⟨h2.toNat, .inl rfl, ?_⟩
    omega
  · refine ⟨h2.toNat - 2 ^ 64, .inr rfl, ?_⟩
    omega

theorem IsStep.odd (hstep : IsStep h2 step) (hodd : Odd h2.toNat) : Odd step := by
  have hup : Odd (h2.toNat : Int) := by exact_mod_cast hodd
  rcases hstep with rfl | rfl
  · exact hup
  · exact hup.sub_even (by decide)

/-- A number of bits that divides an odd step is odd. -/
theorem IsStep.odd_of_dvd (hstep : IsStep h2 step) (hodd : Odd h2.toNat) (h : (bits : Int) ∣ step) :
    Odd bits :=
  Odd.of_dvd_nat (Int.natAbs_odd.mpr (hstep.odd hodd)) (Int.natCast_dvd.mp h)

/-- At most one of the two steps is divided by a number of bits. -/
theorem IsStep.eq_of_dvd (hbits : 2 ≤ bits) (hodd : Odd h2.toNat) (hstep : IsStep h2 step)
    (hstep' : IsStep h2 step') (h : (bits : Int) ∣ step) (h' : (bits : Int) ∣ step') :
    step = step' := by
  -- The steps differ by the range, which is a power of two, while the number of bits is odd.
  have hne : ¬(bits : Int) ∣ 2 ^ 64 := by
    intro hrange
    have hcoprime : bits.Coprime (2 ^ 64) :=
      (Nat.coprime_two_right.mpr (hstep.odd_of_dvd hodd h)).pow_right 64
    have hone := hcoprime.eq_one_of_dvd (by exact_mod_cast hrange)
    omega
  rcases hstep with rfl | rfl <;> rcases hstep' with rfl | rfl
  · rfl
  · exact absurd (by simpa using dvd_sub h h') hne
  · exact absurd (by simpa using dvd_sub h' h) hne
  · rfl

/-! ### Rounds that set one bit -/

/-- All rounds set the same bit. -/
def Collapses (bits hashes : Nat) (h1 h2 : UInt64) : Prop :=
  ∀ round < hashes, position bits h1 h2 round = position bits h1 h2 0

instance : Decidable (Collapses bits hashes h1 h2) :=
  inferInstanceAs (Decidable (∀ round < hashes, _ = _))

/-- A step to the same bit is a multiple of the number of bits. -/
theorem dvd_step (hnext : (hashAt h1 h2 (round + 1) : Int) = hashAt h1 h2 round + step)
    (h : position bits h1 h2 (round + 1) = position bits h1 h2 round) : (bits : Int) ∣ step := by
  have hmod : hashAt h1 h2 round ≡ hashAt h1 h2 (round + 1) [MOD bits] := h.symm
  have hdvd := Nat.modEq_iff_dvd.mp hmod
  rwa [hnext, add_sub_cancel_left] at hdvd

/-- Where the number of bits is even, an odd step leads to another bit. -/
theorem position_succ_ne (hbits : Even bits) (hodd : Odd h2.toNat) (h1 : UInt64) (round : Nat) :
    position bits h1 h2 (round + 1) ≠ position bits h1 h2 round := by
  intro hsame
  obtain ⟨step, hstep, hnext⟩ := exists_step h1 h2 round
  have hbits' := hstep.odd_of_dvd hodd (dvd_step hnext hsame)
  exact (Nat.not_odd_iff_even.mpr hbits) hbits'

/-- Rounds that set one bit all take the same step. -/
theorem Collapses.exists_run (h : Collapses bits hashes h1 h2) (hbits : 2 ≤ bits)
    (hhashes : 2 ≤ hashes) (hodd : Odd h2.toNat) :
    ∃ step, IsStep h2 step ∧ (bits : Int) ∣ step ∧
      ∀ round < hashes, (hashAt h1 h2 round : Int) = h1.toNat + round * step := by
  obtain ⟨step, hstep, hfirst⟩ := exists_step h1 h2 0
  have hdvd : (bits : Int) ∣ step := dvd_step hfirst (h 1 (by omega))
  refine ⟨step, hstep, hdvd, fun round hround => ?_⟩
  induction round with
  | zero => simp [hashAt_zero]
  | succ round ih =>
    obtain ⟨step', hstep', hnext⟩ := exists_step h1 h2 round
    have hsame : position bits h1 h2 (round + 1) = position bits h1 h2 round :=
      (h _ hround).trans (h round (by omega)).symm
    -- The other step would lead to another bit.
    obtain rfl := hstep'.eq_of_dvd hbits hodd hstep (dvd_step hnext hsame) hdvd
    rw [hnext, ih (by omega)]
    push_cast
    linarith

/-- A number on the way from one place in a range to another is in the range. -/
theorem inside_of_inside_last {start last step range : Int} {round : Nat} (hstart : 0 ≤ start)
    (hstart' : start < range) (hround : (round : Int) ≤ last) (hlast : 0 ≤ start + last * step)
    (hlast' : start + last * step < range) :
    0 ≤ start + round * step ∧ start + round * step < range := by
  rcases le_total 0 step with hup | hdown
  · have hle := mul_le_mul_of_nonneg_right hround hup
    have hnonneg := mul_nonneg (Int.natCast_nonneg round) hup
    omega
  · have hle := mul_le_mul_of_nonpos_right hround hdown
    have hnonpos := mul_nonpos_of_nonneg_of_nonpos (Int.natCast_nonneg round) hdown
    omega

/-- All rounds set one bit just if all take the same step, which is a multiple of the number of
    bits and leads from the first hash to that of the last round inside the range of hashes. -/
theorem collapses_iff (hbits : 2 ≤ bits) (hhashes : 2 ≤ hashes) (hodd : Odd h2.toNat) :
    Collapses bits hashes h1 h2 ↔
      ∃ step, IsStep h2 step ∧ (bits : Int) ∣ step ∧
        0 ≤ h1.toNat + ((hashes - 1 : Nat) : Int) * step ∧
        h1.toNat + ((hashes - 1 : Nat) : Int) * step < 2 ^ 64 := by
  constructor
  · intro h
    obtain ⟨step, hstep, hdvd, hrun⟩ := h.exists_run hbits hhashes hodd
    have hlt := hashAt_lt h1 h2 (hashes - 1)
    refine ⟨step, hstep, hdvd, ?_⟩
    rw [← hrun (hashes - 1) (by omega)]
    omega
  · rintro ⟨step, hstep, hdvd, hleast, hmost⟩ round hround
    have hlt := h1.toNat_lt
    have hlast : (round : Int) ≤ (hashes - 1 : Nat) := by omega
    obtain ⟨hnonneg, hrange⟩ := inside_of_inside_last (Int.natCast_nonneg h1.toNat)
      (by omega) hlast hleast hmost
    have hround : (hashAt h1 h2 round : Int) - hashAt h1 h2 0 = round * step := by
      rw [hashAt_eq h1 hstep, Int.emod_eq_of_lt hnonneg hrange, hashAt_zero,
        add_sub_cancel_left]
    have hmod : hashAt h1 h2 0 ≡ hashAt h1 h2 round [MOD bits] := by
      rw [Nat.modEq_iff_dvd, hround]
      exact hdvd.mul_left _
    exact hmod.symm

/-- There are words that set a single bit just if the number of bits is odd, unless that is too
    great for the rounds to stay inside the range of hashes. -/
theorem exists_collapses_iff (hbits : 2 ≤ bits) (hhashes : 2 ≤ hashes) :
    (∃ h1 h2 : UInt64, Odd h2.toNat ∧ Collapses bits hashes h1 h2) ↔
      Odd bits ∧ (hashes - 1) * bits < 2 ^ 64 := by
  constructor
  · rintro ⟨h1, h2, hodd, h⟩
    obtain ⟨step, hstep, hdvd, hleast, hmost⟩ := (collapses_iff hbits hhashes hodd).mp h
    refine ⟨hstep.odd_of_dvd hodd hdvd, ?_⟩
    have hlt := h1.toNat_lt
    -- An odd step is not zero, and so is at least as long as what divides it.
    have hle : bits ≤ step.natAbs :=
      Nat.le_of_dvd (Int.natAbs_pos.mpr fun hzero => by simpa [hzero] using hstep.odd hodd)
        (Int.natCast_dvd.mp hdvd)
    have hmul : (hashes - 1) * bits ≤ (hashes - 1) * step.natAbs := Nat.mul_le_mul_left _ hle
    have habs : (((hashes - 1) * step.natAbs : Nat) : Int) < 2 ^ 64 := by
      rw [Nat.cast_mul, Int.natCast_natAbs, ← Nat.abs_cast (hashes - 1), ← abs_mul, abs_lt]
      constructor <;> omega
    exact hmul.trans_lt (by exact_mod_cast habs)
  · rintro ⟨hodd, hrange⟩
    have hlt : bits < 2 ^ 64 := (Nat.le_mul_of_pos_left bits (by omega)).trans_lt hrange
    have hstep : (UInt64.ofNat bits).toNat = bits := by
      rw [UInt64.toNat_ofNat', Nat.mod_eq_of_lt hlt]
    -- From zero, with the number of bits itself for a step.
    refine ⟨0, UInt64.ofNat bits, by rwa [hstep], ?_⟩
    refine (collapses_iff hbits hhashes (by rwa [hstep])).mpr ⟨bits, ?_, dvd_rfl, ?_, ?_⟩
    · exact .inl (by rw [hstep])
    · positivity
    · simpa using by exact_mod_cast hrange

/-! ### The bits of a word -/

/-- The second hash of a word is odd. -/
theorem odd_pair (hasher : Hasher) (word : Word) : Odd (hasher.pair word).2.toNat := by
  rw [Hasher.pair, UInt64.toNat_or, Nat.odd_iff, UInt64.toNat_one, Nat.or_mod_two_eq_one]
  exact .inr rfl

/-- A word sets a single bit if all rounds set the same one. -/
theorem exists_bitsOf_eq_iff (bits hashes : Nat) (hasher : Hasher) (word : Word) :
    (∃ only, ∀ bit ∈ bitsOf ⟨bits, hashes⟩ hasher word, bit = only) ↔
      Collapses bits hashes (hasher.pair word).1 (hasher.pair word).2 := by
  have hmem : ∀ bit, bit ∈ bitsOf ⟨bits, hashes⟩ hasher word ↔
      ∃ round < hashes, position bits (hasher.pair word).1 (hasher.pair word).2 round = bit := by
    intro bit
    rw [bitsOf, Filter.positions, List.mem_map]
    simp only [List.mem_range]
    rfl
  constructor
  · rintro ⟨only, honly⟩ round hround
    have hfirst := honly _ ((hmem _).mpr ⟨0, by omega, rfl⟩)
    rw [honly _ ((hmem _).mpr ⟨round, hround, rfl⟩), hfirst]
  · intro h
    refine ⟨position bits (hasher.pair word).1 (hasher.pair word).2 0, fun bit hbit => ?_⟩
    obtain ⟨round, hround, rfl⟩ := (hmem bit).mp hbit
    exact h round hround

/-- **Odd steps do not keep the bits of a word apart.**  Where the number of bits is even, each
    round sets another bit than the one in front of it.  Where it is odd, and not too great, there
    are words that set a single bit: those whose hashes differ from round to round by the same
    multiple of the number of bits. -/
theorem words_collapse_for_odd_bits_only {bits hashes : Nat} (hbits : 2 ≤ bits)
    (hhashes : 2 ≤ hashes) :
    ((∃ h1 h2 : UInt64, Odd h2.toNat ∧ Collapses bits hashes h1 h2) ↔
        Odd bits ∧ (hashes - 1) * bits < 2 ^ 64) ∧
      (∀ h1 h2 : UInt64, Odd h2.toNat →
        (Collapses bits hashes h1 h2 ↔
          ∃ step, IsStep h2 step ∧ (bits : Int) ∣ step ∧
            0 ≤ h1.toNat + ((hashes - 1 : Nat) : Int) * step ∧
            h1.toNat + ((hashes - 1 : Nat) : Int) * step < 2 ^ 64) ∧
        (Even bits → ∀ round, position bits h1 h2 (round + 1) ≠ position bits h1 h2 round)) ∧
      ∀ (hasher : Hasher) (word : Word),
        Odd (hasher.pair word).2.toNat ∧
          ((∃ only, ∀ bit ∈ bitsOf ⟨bits, hashes⟩ hasher word, bit = only) ↔
            Collapses bits hashes (hasher.pair word).1 (hasher.pair word).2) := by
  refine ⟨exists_collapses_iff hbits hhashes, fun h1 h2 hodd => ⟨?_, fun heven round => ?_⟩,
    fun hasher word => ⟨odd_pair hasher word, exists_bitsOf_eq_iff bits hashes hasher word⟩⟩
  · exact collapses_iff hbits hhashes hodd
  · exact position_succ_ne heven hodd h1 round

/-- Sizes next to each other, of which only the odd one has words with a single bit. -/
theorem words_collapse_for_odd_bits_only_small :
    2 ≤ 77 ∧ 2 ≤ 78 ∧ 2 ≤ 3 ∧
      (∃ h1 h2 : UInt64, Odd h2.toNat ∧ Collapses 77 3 h1 h2) ∧
      ¬∃ h1 h2 : UInt64, Odd h2.toNat ∧ Collapses 78 3 h1 h2 := by
  refine ⟨by decide, by decide, by decide, ?_, ?_⟩
  · exact (words_collapse_for_odd_bits_only (by decide) (by decide)).1.mpr (by decide)
  · rw [(words_collapse_for_odd_bits_only (by decide) (by decide)).1]
    decide

/-- With 77 bits and three rounds, a word with the hashes 0 and 77 sets the first bit three times,
    although its second hash is odd. -/
theorem odd_step_collapses :
    bitsOf ⟨77, 3⟩ ⟨fun _ => 0, fun _ _ => 77⟩ [] = [0, 0, 0] ∧
      ¬∀ bits hashes : Nat, 64 ≤ bits → 2 ≤ hashes → hashes ≤ 32 →
        ∀ h1 h2 : UInt64, Odd h2.toNat → ¬Collapses bits hashes h1 h2 := by
  refine ⟨by decide, fun h => ?_⟩
  exact h 77 3 (by decide) (by decide) (by decide) 0 77 (by decide) (by decide)

end Lexicon.Bloom
