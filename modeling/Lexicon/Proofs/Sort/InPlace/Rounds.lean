import Lexicon.Proofs.Sort.InPlace.Quick
import Mathlib.Logic.Relation

namespace Lexicon.Sort.InPlace

open Attempt

/-!
# Quicksort in place, round by round

A run of quicksort goes on in rounds.  A round parts what the innermost call has yet to sort; the
call then sorts one side by a nested call, and goes on with the other side.  A call that has fewer
than two words left returns to the call outside of it.

* `Stage`, `round` — the words and the open calls between two rounds, and what a round does.
* `Halves` — a nested call on at most half of a range, and less of it to go on with.
* `quickRange_choice` — a call sorts one side by a nested call, if it makes one, and then the other.
* `exists_round` — a round does not fail, and halves its range.
* `Returns` — from a stage with some calls innermost, a run comes to where these have returned.
* `returns_quickStretch` — every call returns, with its range sorted.
* `reaches_quick` — so a run ends, with what `Sort.quick` makes of the words.
-/

variable {σ α : Type} {n first last : Nat} {ask : Comparison σ α}

/-! ### Rounds -/

/-- What a call does with the two sides of its range. -/
structure Choice where
  /-- The side that it sorts by a nested call, if it makes one. -/
  nested : Option Stretch
  /-- The side that it goes on with. -/
  kept : Stretch

/-- What the nested call and the call that makes it have yet to sort, the innermost first. -/
def Choice.calls (c : Choice) : List Stretch :=
  c.nested.toList ++ [c.kept]

/-- A nested call is made for two words or more. -/
def callOn (s : Stretch) : Option Stretch :=
  if s.start < s.stop - 1 then some s else none

/-- The side with the smaller span is the one for a nested call; of equal spans it is the right
    one.  The sides are given by the last position of the left one, if it has any, and by the
    first position of the right one. -/
def Choice.ofEnds (first last : Nat) (left? : Option Nat) (right : Nat) : Choice :=
  let leftSide : Stretch := ⟨first, stopAfter left?⟩
  let rightSide : Stretch := ⟨right, last + 1⟩
  let leftSpan := left?.elim 0 fun left => left - first
  let rightSpan := last - right
  if leftSpan < rightSpan then ⟨callOn leftSide, rightSide⟩ else ⟨callOn rightSide, leftSide⟩

/-- Sorts the side for a nested call, if one is made, and then the other side. -/
def Choice.sort (c : Choice) (ask : Comparison σ α) (words : List α) : Attempt σ (List α) := do
  let words ← c.nested.elim (pure words) (quickStretch ask words)
  quickStretch ask words c.kept

/-- A run between two rounds. -/
structure Stage (α : Type) where
  /-- The words as they stand. -/
  words : List α
  /-- What each call that has begun and not returned has yet to sort, the innermost first. -/
  calls : List Stretch

/-- A round of the innermost call.  The call stays open while a nested call that it makes is, even
    if nothing is left for it to do after that. -/
def round (ask : Comparison σ α) (stage : Stage α) : Attempt σ (Stage α) :=
  match stage.calls with
  | [] => failure
  | range :: outer =>
    if range.start < range.stop - 1 then do
      let (words, left?, right) ← partition ask stage.words range.start (range.stop - 1)
      return ⟨words, (Choice.ofEnds range.start (range.stop - 1) left? right).calls ++ outer⟩
    else return ⟨stage.words, outer⟩

/-- Rounds lead from one stage, with a state of the comparison, to another. -/
abbrev Reaches (ask : Comparison σ α) : Stage α × σ → Stage α × σ → Prop :=
  Relation.ReflTransGen fun here next => round ask here.1 here.2 = some next

theorem start_lt_iff (s : Stretch) : s.start < s.stop - 1 ↔ 2 ≤ s.size := by
  unfold Stretch.size
  omega

theorem mem_callOn_iff {s t : Stretch} : t ∈ callOn s ↔ t = s ∧ 2 ≤ s.size := by
  unfold callOn
  by_cases h : s.start < s.stop - 1
  · rw [if_pos h, Option.mem_some_iff, eq_comm, and_iff_left ((start_lt_iff s).mp h)]
  · rw [if_neg h, ← start_lt_iff]
    simp [h]

theorem callOn_of_size_le {s : Stretch} (h : s.size ≤ 1) : callOn s = none :=
  if_neg fun hlt => absurd ((start_lt_iff s).mp hlt) (by omega)

theorem callOn_of_two_le {s : Stretch} (h : 2 ≤ s.size) : callOn s = some s :=
  if_pos ((start_lt_iff s).mpr h)

/-- Two words or more reach from a first position to a later one. -/
theorem exists_ends_eq {s : Stretch} (h : 2 ≤ s.size) :
    ∃ first last, first < last ∧ s = ⟨first, last + 1⟩ := by
  obtain ⟨first, stop⟩ := s
  have hsize : 2 ≤ stop - first := h
  refine ⟨first, stop - 1, by omega, ?_⟩
  rw [Nat.sub_add_cancel (by omega)]

/-! ### Choices halve a range -/

/-- A nested call on at most half of a range, and a shorter part of it to go on with. -/
structure Halves (range : Stretch) (c : Choice) : Prop where
  /-- The nested call sorts two words or more. -/
  two_le_nested : ∀ s ∈ c.nested, 2 ≤ s.size
  /-- They lie in the range. -/
  nested_within : ∀ s ∈ c.nested, range.start ≤ s.start ∧ s.stop ≤ range.stop
  /-- They are at most half of it. -/
  nested_half : ∀ s ∈ c.nested, 2 * s.size ≤ range.size
  /-- What is gone on with lies in the range. -/
  kept_within : range.start ≤ c.kept.start ∧ c.kept.stop ≤ range.stop
  /-- It is shorter than the range. -/
  kept_shorter : c.kept.size < range.size

theorem halves_callOn {range nested kept : Stretch}
    (hnested : range.start ≤ nested.start ∧ nested.stop ≤ range.stop)
    (hhalf : 2 ≤ nested.size → 2 * nested.size ≤ range.size)
    (hkept : range.start ≤ kept.start ∧ kept.stop ≤ range.stop)
    (hshorter : kept.size < range.size) : Halves range ⟨callOn nested, kept⟩ where
  two_le_nested s hs := by
    obtain ⟨rfl, hsize⟩ := mem_callOn_iff.mp hs
    exact hsize
  nested_within s hs := by
    obtain ⟨rfl, -⟩ := mem_callOn_iff.mp hs
    exact hnested
  nested_half s hs := by
    obtain ⟨rfl, hsize⟩ := mem_callOn_iff.mp hs
    exact hhalf hsize
  kept_within := hkept
  kept_shorter := hshorter

/-- The choice between the sides that a partition has found. -/
def Choice.ofParted (p : Parted α n first last) : Choice :=
  .ofEnds first last (lastBefore p.leftStop) p.rightStart

theorem Choice.ofParted_eq (p : Parted α n first last) :
    ofParted p = if p.left.size - 1 < p.right.size - 1 then ⟨callOn p.left, p.right⟩
      else ⟨callOn p.right, p.left⟩ := by
  unfold ofParted ofEnds
  rw [leftSpan_eq, rightSpan_eq, stopAfter_lastBefore]
  rfl

/-- The sides do not overlap, so that they have no more positions than the range. -/
theorem left_size_add_right_size_le (p : Parted α n first last) :
    p.left.size + p.right.size ≤ last + 1 - first := by
  have hstop := p.leftStop_le
  have hstart := p.lt_rightStart
  have hend := p.rightStart_le
  have hle := p.leftStop_le_rightStart
  show (p.leftStop - first) + (last + 1 - p.rightStart) ≤ last + 1 - first
  omega

theorem size_lt_of_within {s : Stretch} (h : s.Within first last) (hrange : first < last) :
    s.size < last + 1 - first := by
  have hshorter := h.shorter
  unfold Stretch.size
  omega

/-- The choice between the sides of a partition halves its range: the side with the smaller span
    has no more positions than the other one, unless it has too few for a nested call. -/
theorem halves_ofParted (hrange : first < last) (p : Parted α n first last) :
    Halves ⟨first, last + 1⟩ (.ofParted p) := by
  have hsizes := left_size_add_right_size_le p
  have hleft := p.left_within
  have hright := p.right_within
  -- Together the sides have no more positions than the range, so the smaller one has at most half.
  rw [Choice.ofParted_eq]
  by_cases hspan : p.left.size - 1 < p.right.size - 1
  · rw [if_pos hspan]
    apply halves_callOn ⟨hleft.first_le, hleft.stop_le⟩ _ ⟨hright.first_le, hright.stop_le⟩
      (size_lt_of_within hright hrange)
    intro hsize
    show 2 * p.left.size ≤ last + 1 - first
    omega
  · rw [if_neg hspan]
    apply halves_callOn ⟨hright.first_le, hright.stop_le⟩ _ ⟨hleft.first_le, hleft.stop_le⟩
      (size_lt_of_within hleft hrange)
    intro hsize
    show 2 * p.right.size ≤ last + 1 - first
    omega

/-! ### Calls sort as they choose -/

/-- A call is nested on the first of the sides, unless neither side needs one. -/
theorem Choice.ofParted_cases (p : Parted α n first last) :
    ofParted p = ⟨callOn p.sides.1, p.sides.2⟩ ∨
      p.sides.1.size ≤ 1 ∧ p.sides.2.size ≤ 1 ∧
        ofParted p = ⟨callOn p.sides.2, p.sides.1⟩ := by
  rw [ofParted_eq]
  unfold Parted.sides
  split_ifs with hspan hsize hsize
  · exact .inl rfl
  · omega
  · refine .inr ⟨?_, ?_, rfl⟩ <;> dsimp only <;> omega
  · exact .inl rfl

theorem elim_callOn (ask : Comparison σ α) (words : List α) (s : Stretch) :
    (callOn s).elim (pure words) (quickStretch ask words) = quickStretch ask words s := by
  by_cases hsize : s.size ≤ 1
  · rw [callOn_of_size_le hsize, quickStretch_of_size_le ask words hsize]
    rfl
  · rw [callOn_of_two_le (by omega)]
    rfl

/-- To sort as the choice says is to sort both sides, the smaller one first. -/
theorem Choice.sort_ofParted (ask : Comparison σ α) (p : Parted α n first last) :
    (ofParted p).sort ask p.words.toList
      = quickStretch ask p.words.toList p.sides.1 >>= fun words =>
          quickStretch ask words p.sides.2 := by
  rcases ofParted_cases p with hchoice | ⟨hsize1, hsize2, hchoice⟩
  · rw [hchoice, sort, elim_callOn]
  · -- Sides that are too short to be sorted: the order of the two does not count.
    rw [hchoice, sort, elim_callOn, quickStretch_of_size_le ask _ hsize2,
      quickStretch_of_size_le ask _ hsize1, pure_bind, pure_bind,
      quickStretch_of_size_le ask _ hsize1, quickStretch_of_size_le ask _ hsize2]

theorem quickStretch_ends (ask : Comparison σ α) (words : List α) (hrange : first < last) :
    quickStretch ask words ⟨first, last + 1⟩ = quickRange ask words first last :=
  if_pos hrange

/-- A call on a range sorts as it chooses between the sides of the range. -/
theorem quickRange_choice (ask : Comparison σ α) (words : Vector α n) (hrange : first < last)
    (hn : last < n) :
    quickRange ask words.toList first last
      = of (Sort.partition ask words first last hrange hn) >>= fun p =>
          (Choice.ofParted p).sort ask p.words.toList := by
  rw [quickRange_sides ask words.toList hrange (partition_eq ask words hrange hn)]
  exact of_bind_congr fun p => (Choice.sort_ofParted ask p).symm

/-! ### Rounds do not fail -/

theorem round_of_size_le (ask : Comparison σ α) (words : List α) {range : Stretch}
    (outer : List Stretch) (h : range.size ≤ 1) :
    round ask ⟨words, range :: outer⟩ = pure ⟨words, outer⟩ :=
  if_neg fun hlt => absurd ((start_lt_iff range).mp hlt) (by omega)

theorem round_eq (ask : Comparison σ α) (words : Vector α n) (hrange : first < last)
    (hn : last < n) (outer : List Stretch) :
    round ask ⟨words.toList, ⟨first, last + 1⟩ :: outer⟩
      = of (Sort.partition ask words first last hrange hn) >>= fun p =>
          pure ⟨p.words.toList, (Choice.ofParted p).calls ++ outer⟩ := by
  unfold round
  dsimp only
  rw [Nat.add_sub_cancel, if_pos hrange, partition_eq ask words hrange hn, bind_assoc]
  exact of_bind_congr fun p => rfl

/-- Whatever the comparison answers, a round on two words or more halves its range, and what the
    call does in all is to sort as it has chosen in this round. -/
theorem exists_round (ask : Comparison σ α) (words : List α) {range : Stretch}
    (hsize : 2 ≤ range.size) (hstop : range.stop ≤ words.length) (outer : List Stretch)
    (state : σ) :
    ∃ parted c after,
      round ask ⟨words, range :: outer⟩ state = some (⟨parted, c.calls ++ outer⟩, after) ∧
        quickStretch ask words range state = c.sort ask parted after ∧
        parted.length = words.length ∧ Halves range c := by
  obtain ⟨first, last, hrange, rfl⟩ := exists_ends_eq hsize
  -- A round and the call itself begin with the same partition, and so with the same choice.
  have hround := round_eq ask ⟨words.toArray, List.size_toArray⟩ hrange hstop outer
  have hsort := quickRange_choice ask ⟨words.toArray, List.size_toArray⟩ hrange hstop
  rw [quickStretch_ends ask words hrange]
  exact ⟨_, _, _, congrFun hround state, congrFun hsort state, Vector.length_toList,
    halves_ofParted hrange _⟩

/-! ### Calls return -/

/-- From a stage with these calls innermost, a run comes to where they have returned, with as many
    words, which are what the computation makes of them. -/
def Returns (ask : Comparison σ α) (words : List α) (calls : List Stretch)
    (sort : Attempt σ (List α)) : Prop :=
  ∀ (outer : List Stretch) (state : σ), ∃ sorted after,
    sort state = some (sorted, after) ∧ sorted.length = words.length ∧
      Reaches ask (⟨words, calls ++ outer⟩, state) (⟨sorted, outer⟩, after)

theorem returns_nil (words : List α) : Returns ask words [] (pure words) :=
  fun _ state => ⟨words, state, rfl, rfl, .refl⟩

theorem returns_of_size_le (words : List α) {s : Stretch} (h : s.size ≤ 1) :
    Returns ask words [s] (pure words) := by
  intro outer state
  have hround := congrFun (round_of_size_le ask words outer h) state
  exact ⟨words, state, rfl, rfl, .single hround⟩

/-- Some calls return, and then those outside of them do. -/
theorem Returns.append {words : List α} {inner outer : List Stretch} {sort : Attempt σ (List α)}
    {sort' : List α → Attempt σ (List α)} (h : Returns ask words inner sort)
    (h' : ∀ sorted, sorted.length = words.length → Returns ask sorted outer (sort' sorted)) :
    Returns ask words (inner ++ outer) (sort >>= sort') := by
  intro rest state
  obtain ⟨sorted, after, hsort, hlength, hreaches⟩ := h (outer ++ rest) state
  obtain ⟨sorted', after', hsort', hlength', hreaches'⟩ := h' sorted hlength rest after
  -- While the inner calls run, the outer ones are part of what waits.
  refine ⟨sorted', after', ?_, hlength'.trans hlength, ?_⟩
  · show (sort state >>= fun result => sort' result.1 result.2) = some (sorted', after')
    rw [hsort]
    exact hsort'
  · rw [List.append_assoc]
    exact hreaches.trans hreaches'

/-- The calls that a choice leaves open return if calls on its sides do. -/
theorem returns_choice {words : List α} {c : Choice}
    (hnested : ∀ s ∈ c.nested, Returns ask words [s] (quickStretch ask words s))
    (hkept : ∀ sorted, sorted.length = words.length →
      Returns ask sorted [c.kept] (quickStretch ask sorted c.kept)) :
    Returns ask words c.calls (c.sort ask words) := by
  refine Returns.append ?_ hkept
  cases hc : c.nested with
  | none => exact returns_nil words
  | some s => exact hnested s hc

/-- A call returns, whatever calls there are outside of it, with its range sorted.  A round halves
    the range, so that the calls which it leaves open return by induction on the size. -/
theorem returns_quickStretch (ask : Comparison σ α) (words : List α) (range : Stretch)
    (hstop : range.stop ≤ words.length) :
    Returns ask words [range] (quickStretch ask words range) := by
  induction hsize : range.size using Nat.strongRecOn generalizing words range with
  | ind size ih =>
    by_cases hshort : range.size ≤ 1
    · rw [quickStretch_of_size_le ask words hshort]
      exact returns_of_size_le words hshort
    · intro outer state
      obtain ⟨parted, c, after, hround, hsort, hparted, hc⟩ :=
        exists_round ask words (by omega) hstop outer state
      -- The nested side is at most half of the range and the other one is shorter than it.
      have hnested : ∀ s ∈ c.nested, Returns ask parted [s] (quickStretch ask parted s) := by
        intro s hs
        have hwithin := hc.nested_within s hs
        have hhalf := hc.nested_half s hs
        have htwo := hc.two_le_nested s hs
        exact ih s.size (by omega) parted s (by omega) rfl
      have hkept : ∀ sorted, sorted.length = parted.length →
          Returns ask sorted [c.kept] (quickStretch ask sorted c.kept) := by
        intro sorted hsorted
        have hwithin := hc.kept_within
        have hshorter := hc.kept_shorter
        exact ih c.kept.size (by omega) sorted c.kept (by omega) rfl
      obtain ⟨sorted, after', hresult, hlength, hreaches⟩ :=
        returns_choice hnested hkept outer after
      exact ⟨sorted, after', hsort.trans hresult, hlength.trans hparted, .head hround hreaches⟩

/-- The stage at which a run begins: one call, on all words. -/
def Stage.begun (words : List α) : Stage α :=
  ⟨words, [⟨0, words.length⟩]⟩

/-- A run ends, with the words sorted. -/
theorem reaches_quick (ask : Comparison σ α) {words : List α} (h : 2 ≤ words.length)
    (state : σ) :
    Reaches ask (.begun words, state)
      (⟨(Sort.quick ask words state).1, []⟩, (Sort.quick ask words state).2) := by
  have hquick : quickStretch ask words ⟨0, words.length⟩ = of (Sort.quick ask words) := by
    rw [← quick_eq, quick, if_pos (by omega), minus_eq (by omega), pure_bind]
    exact if_pos (show 0 < words.length - 1 by omega)
  obtain ⟨sorted, after, hsort, -, hreaches⟩ :=
    returns_quickStretch ask words ⟨0, words.length⟩ (Nat.le_refl _) [] state
  rw [hquick] at hsort
  have hresult : Sort.quick ask words state = (sorted, after) := Option.some.inj hsort
  rw [hresult]
  exact hreaches

end Lexicon.Sort.InPlace
