import Lexicon.Proofs.WordList.Search
import Lexicon.Proofs.WordList.Walk
import Lexicon.Ternary.Tree

namespace Lexicon

/-!
# Uses of a word list

What can be done with a list, in any order, with any number of walks under way.

* `Use` — a word is read, searched for, a walk begins or goes on, a tree is built, or the list is
  closed.
* `InUse`, `InUse.apply`, `InUse.after` — a list with the walks over it, after one use and many.
* `Walk.items` — what a walk gives when it goes on to its end.
* `InUse.apply_keeps` — what every fetch keeps, every use but a close keeps.
* `InUse.walks_within` — the walks under way stay within the list, and count what they give.
-/

/-! ### Walks to the end -/

namespace Walk

variable {L : Type} [WordList L] {walk after : Walk} {list list' : L} {item : Except ListError Word}

/-- A walk goes on by reading the word at its next index. -/
theorem step_eq_some_iff :
    walk.step list = some (item, after, list') ↔
      ∃ index, walk.next? = some (index, after) ∧ WordList.fetch list index = (item, list') := by
  unfold step
  cases walk.next? with
  | none => simp
  | some found =>
    obtain ⟨index, rest⟩ := found
    simp only [Option.some.injEq, Prod.mk.injEq]
    constructor
    · rintro ⟨rfl, rfl, rfl⟩
      exact ⟨index, ⟨rfl, rfl⟩, rfl⟩
    · rintro ⟨_, ⟨rfl, rfl⟩, hfetch⟩
      exact ⟨congrArg Prod.fst hfetch, rfl, congrArg Prod.snd hfetch⟩

theorem step_eq_none_iff : walk.step list = none ↔ walk.next? = none := by
  unfold step
  cases walk.next? <;> simp

theorem left_of_step (h : walk.step list = some (item, after, list')) :
    walk.left = after.left + 1 := by
  obtain ⟨index, hnext, -⟩ := step_eq_some_iff.mp h
  exact left_of_next? hnext

/-- What a walk gives, step by step, when it goes on to its end. -/
def items (walk : Walk) (list : L) : List (Except ListError Word) :=
  match h : walk.step list with
  | none => []
  | some (item, after, list') =>
    have := left_of_step h
    item :: after.items list'
termination_by walk.left

end Walk

/-! ### Uses -/

/-- Something that is done with a list. -/
inductive Use where
  /-- Reads the word at an index. -/
  | fetch (index : Nat)
  /-- Searches for a word. -/
  | search (query : Word)
  /-- Begins another walk, in ascending or in median order. -/
  | beginWalk (median : Bool)
  /-- Lets one of the walks go on, counted from the first that began. -/
  | stepWalk (number : Nat)
  /-- Builds a tree of all words. -/
  | buildTree (median : Bool)
  /-- Closes the list. -/
  | close

/-- A walk that has begun. -/
structure Underway where
  /-- What is left of the walk. -/
  walk : Walk
  /-- The number of items that it has given. -/
  given : Nat

/-- A list with the walks over it, in the order in which they began. -/
structure InUse (L : Type) where
  /-- The list. -/
  list : L
  /-- The walks. -/
  walks : List Underway

namespace InUse

variable {L : Type} [WordList L]

/-- Does something with a list, whatever the answer is. -/
def apply (state : InUse L) : Use → InUse L
  | .fetch index => { state with list := (WordList.fetch state.list index).2 }
  | .search query => { state with list := (binarySearch state.list query).2 }
  | .beginWalk median =>
    { state with walks := state.walks ++ [⟨Walk.ofList median state.list, 0⟩] }
  | .stepWalk number =>
    match state.walks[number]? with
    | none => state
    | some underway =>
      match underway.walk.step state.list with
      | none => state
      | some (_, walk, list) => ⟨list, state.walks.set number ⟨walk, underway.given + 1⟩⟩
  | .buildTree median => { state with list := (Ternary.Tree.ofList median state.list).2 }
  | .close => { state with list := WordList.close state.list }

/-- A list after many uses, with no walk at first. -/
def after (list : L) (uses : List Use) : InUse L :=
  uses.foldl apply ⟨list, []⟩

theorem after_concat (list : L) (uses : List Use) (use : Use) :
    after list (uses ++ [use]) = (after list uses).apply use :=
  List.foldl_concat _ _ _ _

end InUse

/-! ### What reading keeps -/

section Keeps

variable {L : Type} [WordList L] {P : L → Prop} {list : L}
  (hread : ∀ l, P l → ∀ index, P (WordList.fetch l index).2)

include hread

theorem Walk.fold_keeps {β : Type} (add : β → Word → β) (acc : β) (walk : Walk) (h : P list) :
    P (walk.fold add acc list).2 := by
  fun_induction Walk.fold add acc walk list with
  | case1 acc walk list hnext => exact h
  | case2 acc walk list index after hnext hleft e later hfetch =>
    exact keeps_of_fetch_eq hread h hfetch
  | case3 acc walk list index after hnext hleft word later hfetch ih =>
    exact ih (keeps_of_fetch_eq hread h hfetch)

/-- What every fetch keeps, every use but a close keeps. -/
theorem InUse.apply_keeps {state : InUse L} {use : Use} (h : P state.list) (huse : use ≠ .close) :
    P (state.apply use).list := by
  cases use with
  | fetch index => exact hread _ h index
  | search query => exact searchBetween_keeps hread _ query _ _ h
  | beginWalk median => exact h
  | stepWalk number =>
    unfold InUse.apply
    dsimp only
    split
    · exact h
    · split
      · exact h
      · next hstep =>
        -- A walk that goes on reads one word of the list.
        obtain ⟨index, -, hfetch⟩ := Walk.step_eq_some_iff.mp hstep
        exact keeps_of_fetch_eq hread h hfetch
  | buildTree median => exact Walk.fold_keeps hread _ _ _ h
  | close => exact absurd rfl huse

end Keeps

/-! ### Walks within a list -/

/-- A walk over a list of the given size, which has all indices before it that it has given no
    item for. -/
structure Underway.Within (underway : Underway) (size : Nat) : Prop where
  /-- No index is out of range. -/
  lt_size : ∀ index ∈ underway.walk.indices, index < size
  /-- Each index gives one item. -/
  given_add_length : underway.given + underway.walk.indices.length = size

namespace InUse

variable {L : Type} [WordList L] {state : InUse L} {size : Nat}

/-- A walk that begins has all indices before it. -/
theorem within_ofList (median : Bool) (list : L) :
    Underway.Within ⟨Walk.ofList median list, 0⟩ (WordList.size list) := by
  have hperm := Walk.indices_ofList_perm median list
  constructor
  · intro index hindex
    exact List.mem_range.mp (hperm.subset hindex)
  · rw [Nat.zero_add, hperm.length_eq, List.length_range]

/-- Whatever is done with a list, the walks over it stay within it. -/
theorem walks_within (hsize : WordList.size state.list = size)
    (h : ∀ underway ∈ state.walks, underway.Within size) (use : Use) :
    ∀ underway ∈ (state.apply use).walks, underway.Within size := by
  cases use with
  | beginWalk median =>
    intro underway hunderway
    rcases List.mem_append.mp hunderway with hold | hnew
    · exact h underway hold
    · rw [List.mem_singleton.mp hnew, ← hsize]
      exact within_ofList median state.list
  | stepWalk number =>
    unfold apply
    dsimp only
    split
    · exact h
    · next underway hnumber =>
      split
      · exact h
      · next item walk list hstep =>
        obtain ⟨index, hnext, -⟩ := Walk.step_eq_some_iff.mp hstep
        have hunderway := h underway (List.mem_of_getElem? hnumber)
        have hindices := Walk.indices_of_next?_some hnext
        intro other hother
        rcases List.mem_or_eq_of_mem_set hother with hold | rfl
        · exact h other hold
        · -- The index that the step has come to is the item that it has given.
          have hlt := hunderway.lt_size
          have hcount := hunderway.given_add_length
          rw [hindices] at hlt hcount
          refine ⟨fun i hi => hlt i (List.mem_cons_of_mem _ hi), ?_⟩
          rw [List.length_cons] at hcount
          dsimp only
          omega
  | fetch | search | buildTree | close => exact h

end InUse

end Lexicon
