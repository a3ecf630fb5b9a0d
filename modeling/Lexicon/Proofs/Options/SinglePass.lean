import Lexicon.Proofs.Options.Groups
import Mathlib.Data.List.Induction
import Mathlib.Logic.Function.Basic

namespace Lexicon

/-!
# Options in a single pass

The options could as well be found by going through the arguments once, from left to right.

* `Choices.readFrom`, `Choices.atOnce` — what is found that way.
* `Choices.readFrom_group`, `Choices.readFrom_groups` — one group, and hence all groups, are read.
* `Options.passes_parse_as_one` — five passes find in groups what a single one finds, and that is
  what the groups say.
-/

/-! ### Reading from left to right -/

namespace Choices

/-- Nothing was found yet. -/
def nothing : Choices :=
  ⟨fun _ => none, fun _ => false, []⟩

/-- An option is given a value, whatever value it had. -/
def give (found : Choices) (option : ValueOption) (value : Text) : Choices :=
  { found with given := Function.update found.given option (some value) }

/-- An option without a value is there. -/
def raise (found : Choices) (flag : Flag) : Choices :=
  { found with has := Function.update found.has flag true }

/-- Another operand follows. -/
def keep (found : Choices) (text : Text) : Choices :=
  { found with operands := found.operands ++ [text] }

/-- Goes through arguments from left to right, with what was found before. -/
def readFrom (found : Choices) : List Text → Except UsageError Choices
  | [] => .ok found
  | arg :: rest =>
    match role arg with
    | .inline option value => readFrom (found.give option value) rest
    | .name option =>
      match rest with
      | [] => .error (.missingValue arg)
      | value :: rest => readFrom (found.give option value) rest
    | .flag flag => readFrom (found.raise flag) rest
    | .operand => readFrom (found.keep arg) rest

/-- What is found by a single pass over the arguments. -/
def atOnce (args : List Text) : Except UsageError Choices :=
  nothing.readFrom args

/-- What was found, and what a group behind it says. -/
def take (found : Choices) (group : Group) : Choices where
  given option := (group.value? option).or (found.given option)
  has flag := found.has flag || decide (group = .flag flag)
  operands := found.operands ++ group.operand?.toList

theorem take_of_given? (found : Choices) {group : Group} {option : ValueOption} {value : Text}
    (h : group.given? = some (option, value)) : found.take group = found.give option value := by
  have hflag : ∀ flag, group ≠ .flag flag := by
    rintro flag rfl
    cases h
  have hoperand : group.operand? = none := by
    cases group with
    | operand text => cases h
    | _ => rfl
  refine Choices.ext ?_ ?_ ?_
  · funext other
    simp only [take, give, Group.value?, h, Function.update_apply]
    -- The group has a value for this option only, and leaves the others what they had.
    by_cases hother : other = option
    · simp [hother]
    · simp [hother, Ne.symm hother]
  · funext flag
    simp [take, give, hflag flag]
  · simp [take, give, hoperand]

theorem take_flag (found : Choices) (flag : Flag) :
    found.take (.flag flag) = found.raise flag := by
  refine Choices.ext ?_ ?_ ?_
  · funext option
    simp [take, raise, Group.value?, Group.given?]
  · funext other
    simp only [take, raise, Function.update_apply]
    by_cases hother : other = flag
    · simp [hother]
    · simp [hother, Ne.symm hother]
  · simp [take, raise, Group.operand?]

theorem take_operand (found : Choices) (text : Text) :
    found.take (.operand text) = found.keep text := by
  refine Choices.ext ?_ ?_ ?_
  · funext option
    simp [take, keep, Group.value?, Group.given?]
  · funext flag
    simp [take, keep]
  · simp [take, keep, Group.operand?]

/-- A single pass reads a group at a time. -/
theorem readFrom_group (found : Choices) {group : Group} (h : group.WellFormed)
    (rest : List Text) :
    found.readFrom (group.args ++ rest) = (found.take group).readFrom rest := by
  cases group with
  | separate option value =>
    have hgiven : (Group.separate option value).given? = some (option, value) := rfl
    simp [Group.args, readFrom, take_of_given? found hgiven]
  | short value =>
    have hgiven : (Group.short value).given? = some (.path, value) := rfl
    simp [Group.args, readFrom, take_of_given? found hgiven]
  | inline option value =>
    have hgiven : (Group.inline option value).given? = some (option, value) := rfl
    simp [Group.args, readFrom, take_of_given? found hgiven]
  | flag flag => simp [Group.args, readFrom, take_flag]
  | operand text =>
    -- A well-formed operand is not taken for an option.
    have hrole : role text = .operand := by
      rwa [Group.WellFormed, recognized_iff, not_not] at h
    simp [Group.args, readFrom, take_operand, hrole]

/-- A single pass reads all groups, one after the other. -/
theorem readFrom_groups (found : Choices) {groups : List Group}
    (h : ∀ group ∈ groups, group.WellFormed) :
    found.readFrom (groups.flatMap Group.args) = .ok (groups.foldl take found) := by
  induction groups generalizing found with
  | nil => rfl
  | cons group groups ih =>
    rw [List.forall_mem_cons] at h
    rw [List.flatMap_cons, readFrom_group found h.1, ih _ h.2, List.foldl_cons]

theorem lastValue_concat (option : ValueOption) (groups : List Group) (group : Group) :
    lastValue option (groups ++ [group])
      = (group.value? option).or (lastValue option groups) := by
  rw [lastValue, List.filterMap_append]
  cases hvalue : group.value? option with
  | none => simp [hvalue, lastValue]
  | some value => simp [hvalue]

/-- What one group more says. -/
theorem ofGroups_concat (groups : List Group) (group : Group) :
    ofGroups (groups ++ [group]) = (ofGroups groups).take group := by
  refine Choices.ext ?_ ?_ ?_
  · funext option
    exact lastValue_concat option groups group
  · funext flag
    simp [ofGroups, take, eq_comm]
  · simp only [ofGroups, take, List.filterMap_append]
    cases hoperand : group.operand? <;> simp [hoperand]

/-- What is found group by group is what the groups say. -/
theorem foldl_take (groups : List Group) : groups.foldl take nothing = ofGroups groups := by
  -- From the back, as the last value of an option is the one that counts.
  induction groups using List.reverseRecOn with
  | nil => rfl
  | append_singleton groups group ih =>
    rw [List.foldl_append, ih, List.foldl_cons, List.foldl_nil, ofGroups_concat]

/-- **A single pass over groups.** It finds in groups what the groups say. -/
theorem atOnce_groups {groups : List Group} (h : ∀ group ∈ groups, group.WellFormed) :
    atOnce (groups.flatMap Group.args) = .ok (ofGroups groups) := by
  rw [atOnce, readFrom_groups nothing h, foldl_take]

end Choices

/-! ### Options of groups -/

instance (arg : Text) : Decidable (Recognized arg) :=
  decidable_of_iff _ (recognized_iff arg).symm

instance Group.decidableWellFormed : (group : Group) → Decidable group.WellFormed
  | separate _ value => inferInstanceAs (Decidable ¬Recognized value)
  | short value => inferInstanceAs (Decidable ¬Recognized value)
  | inline _ _ => isTrue trivial
  | flag _ => isTrue trivial
  | operand text => inferInstanceAs (Decidable ¬Recognized text)

/-- **Passes and a single pass.** In arguments that are written in well-formed groups, the passes
    find what a single pass from left to right finds.  Every option has its last value, every flag
    counts if it is there, the environment stands in for a word list that is not given, and the
    operands are left in order.  Only a word list that is named nowhere, a last name that no
    backend has, and a last share that is no number of 32 bits are refused. -/
theorem Options.passes_parse_as_one (environment : Option Text) (groups : List Group)
    (h : ∀ group ∈ groups, group.WellFormed) :
    parse environment (groups.flatMap Group.args)
        = Choices.atOnce (groups.flatMap Group.args) >>= Choices.settle environment ∧
      (∀ options operands, parse environment (groups.flatMap Group.args) = .ok (options, operands) ↔
        Settled environment (.ofGroups groups) options ∧
          operands = groups.filterMap Group.operand?) ∧
      ((∃ e, parse environment (groups.flatMap Group.args) = .error e) ↔
        (lastValue .path groups).or environment = none ∨
        (∃ name, lastValue .backend groups = some name ∧ Backend.ofName? name = none) ∨
        ∃ value, lastValue .percent groups = some value ∧
          ∀ n, ¬Decimal.IsSigned32 value n) := by
  -- Both ways of reading find what the groups say, and differ in nothing after that.
  have hparse : parse environment (groups.flatMap Group.args)
      = (Choices.ofGroups groups).settle environment := by
    rw [parse_eq, Choices.inPasses_groups h]
    rfl
  refine ⟨?_, ?_, ?_⟩
  · rw [hparse, Choices.atOnce_groups h]
    rfl
  · intro options operands
    rw [hparse, Choices.settle_eq_ok_iff]
    rfl
  · rw [hparse, Choices.exists_settle_eq_error_iff]
    rfl

/-- Groups of every form, among them two for the word list and two for the backend. -/
def mixedGroups : List Group :=
  [.inline .path ['a'], .operand ['x'], .separate .backend "tree".toList, .short ['b'],
    .flag .ignoreCase, .inline .percent ['7'], .operand ['-', '-'],
    .separate .backend "mmap".toList]

/-- The later of two values counts, and the operands are left in order. -/
theorem Options.passes_parse_mixed_groups :
    (∀ group ∈ mixedGroups, group.WellFormed) ∧
      parse none (mixedGroups.flatMap Group.args)
        = .ok (⟨['b'], .mmap, false, 7, false⟩, [['x'], ['-', '-']]) := by
  have hgroups : ∀ group ∈ mixedGroups, group.WellFormed := by decide
  refine ⟨hgroups, ?_⟩
  obtain ⟨-, hok, -⟩ := passes_parse_as_one none mixedGroups hgroups
  refine (hok _ _).mpr ⟨⟨rfl, rfl, ?_, rfl, rfl⟩, rfl⟩
  exact Decimal.signed?_eq_some_iff.mp rfl

end Lexicon
