import Lexicon.Proofs.Sort.InPlace.Rounds
import Mathlib.Data.Nat.Log
import Mathlib.Tactic.Ring

namespace Lexicon.Sort.InPlace

/-!
# Calls of quicksort are nested a logarithm deep

A nested call gets at most half of what the call that makes it has to sort, and what that call
goes on with only gets shorter.  So a call that has `d` others outside of it has at most one part
in `2 ^ d` of the words, however the comparison answers.

* `Fits`, `Nested` — what a call has to sort, by the number of calls outside of it.
* `Nested.choice` — a choice that halves the range of the innermost call keeps the calls nested.
* `Stage.Nests.after_round`, `Reaches.nests` — so does a round, and so does a run.
* `Nested.length_le` — nested calls are no more than the logarithm of the number of words.
* `calls_nest_within_log2` — rounds that halve their ranges, and a run that ends without ever
  having more calls open.
-/

variable {σ α : Type} {count depth : Nat} {range : Stretch} {outer calls : List Stretch}
  {c : Choice} {ask : Comparison σ α}

/-! ### What a call has to sort -/

/-- A call with `depth` others outside of it has at most one part in `2 ^ depth` of the words to
    sort; since it began with two words or more, there are enough of them. -/
structure Fits (count depth : Nat) (range : Stretch) : Prop where
  /-- The range lies among the words. -/
  stop_le : range.stop ≤ count
  /-- It is one part in `2 ^ depth` at most. -/
  size_le : range.size * 2 ^ depth ≤ count
  /-- Such a part may have two words. -/
  two_pow_le : 2 ^ (depth + 1) ≤ count

/-- Each call fits the number of calls outside of it. -/
def Nested (count : Nat) : List Stretch → Prop
  | [] => True
  | range :: outer => Fits count outer.length range ∧ Nested count outer

theorem Fits.kept (h : Fits count depth range) (hc : Halves range c) : Fits count depth c.kept where
  stop_le := Nat.le_trans hc.kept_within.2 h.stop_le
  size_le := Nat.le_trans (Nat.mul_le_mul_right _ (Nat.le_of_lt hc.kept_shorter)) h.size_le
  two_pow_le := h.two_pow_le

/-- Half of a range fits one call deeper. -/
theorem Fits.nested {s : Stretch} (h : Fits count depth range) (hc : Halves range c)
    (hs : s ∈ c.nested) : Fits count (depth + 1) s := by
  have hsize : s.size * 2 ^ (depth + 1) ≤ count :=
    calc s.size * 2 ^ (depth + 1) = 2 * s.size * 2 ^ depth := by ring
      _ ≤ range.size * 2 ^ depth := Nat.mul_le_mul_right _ (hc.nested_half s hs)
      _ ≤ count := h.size_le
  refine ⟨Nat.le_trans (hc.nested_within s hs).2 h.stop_le, hsize, ?_⟩
  calc 2 ^ (depth + 1 + 1) = 2 * 2 ^ (depth + 1) := by ring
    _ ≤ s.size * 2 ^ (depth + 1) := Nat.mul_le_mul_right _ (hc.two_le_nested s hs)
    _ ≤ count := hsize

theorem Nested.choice (h : Nested count (range :: outer)) (hc : Halves range c) :
    Nested count (c.calls ++ outer) := by
  obtain ⟨hfits, houter⟩ := h
  obtain ⟨nested, kept⟩ := c
  have hkept : Nested count (kept :: outer) := ⟨hfits.kept hc, houter⟩
  cases nested with
  | none => exact hkept
  | some s => exact ⟨hfits.nested hc rfl, hkept⟩

/-- The innermost call alone tells how deep the calls are nested. -/
theorem Nested.length_le (h : Nested count calls) : calls.length ≤ count.log2 := by
  cases calls with
  | nil => exact Nat.zero_le _
  | cons range outer =>
    -- The innermost call has all others outside of it: there are `2 ^ calls.length` words or more.
    have hpow := h.1.two_pow_le
    have hpos := Nat.two_pow_pos (outer.length + 1)
    exact (Nat.le_log2 (by omega)).mpr hpow

/-! ### Runs -/

/-- All words are there, and the open calls are nested. -/
structure Stage.Nests (count : Nat) (stage : Stage α) : Prop where
  /-- No word is lost. -/
  length_words : stage.words.length = count
  /-- The open calls are nested. -/
  nested : Nested count stage.calls

theorem Stage.nests_begun {words : List α} (h : 2 ≤ words.length) :
    (begun words).Nests words.length where
  length_words := rfl
  nested := by
    refine ⟨⟨Nat.le_refl _, ?_, by simpa using h⟩, True.intro⟩
    show (words.length - 0) * 2 ^ 0 ≤ words.length
    omega

/-- A round keeps the open calls nested: it halves a range, or a call returns. -/
theorem Stage.Nests.after_round {stage next : Stage α} {state after : σ} (h : stage.Nests count)
    (hround : round ask stage state = some (next, after)) : next.Nests count := by
  obtain ⟨words, calls⟩ := stage
  obtain ⟨rfl, hnested⟩ := h
  cases calls with
  | nil => cases hround
  | cons range outer =>
    by_cases hsize : range.size ≤ 1
    · -- The innermost call returns, and those outside of it stay nested.
      rw [round_of_size_le ask words outer hsize] at hround
      cases hround
      exact ⟨rfl, hnested.2⟩
    · obtain ⟨parted, c, after', heq, -, hlength, hc⟩ :=
        exists_round ask words (by omega) hnested.1.stop_le outer state
      rw [heq] at hround
      cases hround
      exact ⟨hlength, hnested.choice hc⟩

theorem Reaches.nests {here there : Stage α × σ} (h : Reaches ask here there)
    (hhere : here.1.Nests count) : there.1.Nests count := by
  -- Every round keeps the invariant, and a run is one round after the other.
  induction h with
  | refl => exact hhere
  | tail _ hround ih => exact ih.after_round hround

/-- **Nesting of quicksort.** Whatever a comparison answers, and whatever it remembers, a round on
    two words or more makes at most one nested call, on two words or more that are at most half of
    the range, and leaves a shorter part of it to go on with, which is how `quickStretch` sorts the
    range; and every call returns, with what `quickStretch` makes of its range.  A run that begins
    with one call on two words or more never has more calls open than the logarithm of their
    number, and ends with what `Sort.quick` makes of the words. -/
theorem calls_nest_within_log2 (ask : Comparison σ α) (words : List α) (state : σ) :
    (∀ (range : Stretch) (outer : List Stretch), range.stop ≤ words.length →
      (2 ≤ range.size → ∃ parted c after,
        round ask ⟨words, range :: outer⟩ state = some (⟨parted, c.calls ++ outer⟩, after) ∧
          quickStretch ask words range state = c.sort ask parted after ∧ Halves range c) ∧
      ∃ sorted after, quickStretch ask words range state = some (sorted, after) ∧
        Reaches ask (⟨words, range :: outer⟩, state) (⟨sorted, outer⟩, after)) ∧
    (2 ≤ words.length →
      (∀ stage now, Reaches ask (.begun words, state) (stage, now) →
        stage.calls.length ≤ words.length.log2) ∧
      Reaches ask (.begun words, state)
        (⟨(Sort.quick ask words state).1, []⟩, (Sort.quick ask words state).2)) := by
  refine ⟨fun range outer hstop => ⟨fun hsize => ?_, ?_⟩, fun htwo => ⟨?_, ?_⟩⟩
  · obtain ⟨parted, c, after, hround, hsort, -, hc⟩ :=
      exists_round ask words hsize hstop outer state
    exact ⟨parted, c, after, hround, hsort, hc⟩
  · obtain ⟨sorted, after, hsort, -, hreaches⟩ :=
      returns_quickStretch ask words range hstop outer state
    exact ⟨sorted, after, hsort, hreaches⟩
  · intro stage now hreaches
    exact (hreaches.nests (Stage.nests_begun htwo)).nested.length_le
  · exact reaches_quick ask htwo state

/-- Answers by turns that a word is above another one and that it is below. -/
def byTurns : Comparison Bool Nat :=
  fun _ _ => modifyGet fun above => (if above then .gt else .lt, !above)

/-- Five words have room for two calls, which a comparison that contradicts itself brings about;
    the run ends all the same, with words that are not in order. -/
theorem calls_nest_within_log2_by_turns :
    (∃ parted c after,
      round byTurns (.begun [0, 1, 2, 3, 4]) true = some (⟨parted, c.calls⟩, after) ∧
        quickStretch byTurns [0, 1, 2, 3, 4] ⟨0, 5⟩ true = c.sort byTurns parted after ∧
        Halves ⟨0, 5⟩ c) ∧
    Reaches byTurns (.begun [0, 1, 2, 3, 4], true)
      (⟨[4, 3, 2, 1, 0], [⟨3, 5⟩, ⟨0, 2⟩]⟩, true) ∧
    [Stretch.mk 3 5, ⟨0, 2⟩].length ≤ Nat.log2 5 ∧
    Reaches byTurns (.begun [0, 1, 2, 3, 4], true) (⟨[3, 4, 2, 0, 1], []⟩, true) := by
  have hround : round byTurns (.begun [0, 1, 2, 3, 4]) true
      = some (⟨[4, 3, 2, 1, 0], [⟨3, 5⟩, ⟨0, 2⟩]⟩, true) := by with_unfolding_all rfl
  have hquick : Sort.quick byTurns [0, 1, 2, 3, 4] true = ([3, 4, 2, 0, 1], true) := by
    with_unfolding_all rfl
  have hreaches : Reaches byTurns (.begun [0, 1, 2, 3, 4], true)
      (⟨[4, 3, 2, 1, 0], [⟨3, 5⟩, ⟨0, 2⟩]⟩, true) := .single hround
  obtain ⟨hcalls, hruns⟩ := calls_nest_within_log2 byTurns [0, 1, 2, 3, 4] true
  obtain ⟨parted, c, after, hfirst, hsort, hc⟩ := (hcalls ⟨0, 5⟩ [] (by decide)).1 (by decide)
  obtain ⟨hbound, hends⟩ := hruns (by decide)
  rw [List.append_nil] at hfirst
  rw [hquick] at hends
  exact ⟨⟨parted, c, after, hfirst, hsort, hc⟩, hreaches, hbound _ _ hreaches, hends⟩

end Lexicon.Sort.InPlace
