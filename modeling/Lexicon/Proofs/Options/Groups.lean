import Lexicon.Proofs.Options.Passes
import Mathlib.Tactic.SplitIfs
import Mathlib.Tactic.Tauto

namespace Lexicon

/-!
# Arguments in groups

Whoever writes arguments writes them in groups: an option with its value, an option without one,
or an operand.  A pass takes the groups of one option out and leaves the others whole, so it never
brings an argument next to one that it was not written next to.

* `Role`, `role` — what an argument does where no value is awaited.
* `Group`, `Group.WellFormed` — groups of arguments, none of which can be taken for another one.
* `Choices.ofGroups` — what groups say: for each option its last value, and the operands in order.
* `splitValue_groups`, `splitFlag_groups` — what a pass does to groups.
* `Choices.inPasses_groups` — hence five passes find in groups what the groups say.
-/

/-! ### Roles of arguments -/

/-- What an argument does where no value is awaited. -/
inductive Role where
  /-- It gives an option a value. -/
  | inline (option : ValueOption) (value : Text)
  /-- It names an option whose value follows. -/
  | name (option : ValueOption)
  /-- It is an option without a value. -/
  | flag (flag : Flag)
  /-- It is an operand. -/
  | operand
  deriving DecidableEq

/-- The options that take a value, in the order of their passes. -/
def ValueOption.all : List ValueOption := [path, backend, percent]

/-- The options that take no value, in the order of their passes. -/
def Flag.all : List Flag := [ignoreCase, median]

/-- What an argument does where no value is awaited. -/
def role (arg : Text) : Role :=
  match ValueOption.all.findSome? fun option =>
      (inlineValue? option.name arg).map (Role.inline option) with
  | some inline => inline
  | none =>
    match ValueOption.all.find? fun option => arg = option.name ∨ some arg = option.short? with
    | some option => .name option
    | none =>
      match Flag.all.find? fun flag => arg = flag.name with
      | some flag => .flag flag
      | none => .operand

theorem ValueOption.forall_iff {P : ValueOption → Prop} :
    (∀ option, P option) ↔ P path ∧ P backend ∧ P percent :=
  ⟨fun h => ⟨h path, h backend, h percent⟩, fun h option => by cases option <;> simp [h]⟩

theorem Flag.forall_iff {P : Flag → Prop} : (∀ flag, P flag) ↔ P ignoreCase ∧ P median :=
  ⟨fun h => ⟨h ignoreCase, h median⟩, fun h flag => by cases flag <;> simp [h]⟩

theorem ValueOption.mem_all (option : ValueOption) : option ∈ all := by
  cases option <;> decide

/-! ### Names -/

theorem ValueOption.not_mem_name (option : ValueOption) : '=' ∉ option.name := by
  cases option <;> decide

theorem ValueOption.name_injective : Function.Injective ValueOption.name := by
  intro option other h
  revert h
  cases option <;> cases other <;> decide

theorem inlineValue?_eq_some_iff {name arg value : Text} :
    inlineValue? name arg = some value ↔ arg = inlineStem name ++ value := by
  rw [inlineValue?]
  split_ifs with h
  · obtain ⟨rest, rfl⟩ := List.isPrefixOf_iff_prefix.mp h
    simp
  · simp only [false_iff]
    rintro rfl
    exact h (List.isPrefixOf_iff_prefix.mpr (List.prefix_append _ _))

/-- What stands in front of the first equals sign of an argument with a value inline is the name. -/
theorem takeWhile_inline (option : ValueOption) (value : Text) :
    (inlineStem option.name ++ value).takeWhile (· != '=') = option.name := by
  have hall : ∀ c ∈ option.name, (c != '=') = true := by
    intro c hc
    rw [bne_iff_ne]
    rintro rfl
    exact option.not_mem_name hc
  rw [inlineStem, List.append_assoc, List.takeWhile_append_of_pos hall]
  simp

/-- An argument gives at most one option a value. -/
theorem inline_injective {option other : ValueOption} {value value' : Text}
    (h : inlineStem option.name ++ value = inlineStem other.name ++ value') : option = other := by
  have hname := congrArg (List.takeWhile (· != '=')) h
  rw [takeWhile_inline, takeWhile_inline] at hname
  exact ValueOption.name_injective hname

@[simp] theorem role_inline (option : ValueOption) (value : Text) :
    role (inlineStem option.name ++ value) = .inline option value := by
  have hsome : (ValueOption.all.findSome? fun other =>
      (inlineValue? other.name (inlineStem option.name ++ value)).map (Role.inline other)).isSome
        = true := by
    rw [List.findSome?_isSome_iff]
    exact ⟨option, option.mem_all, by rw [inlineValue?_eq_some_iff.mpr rfl]; rfl⟩
  obtain ⟨found, hfound⟩ := Option.isSome_iff_exists.mp hsome
  -- Whatever option is found, the argument gives it a value, so it is the same one.
  obtain ⟨other, -, hother⟩ := List.exists_of_findSome?_eq_some hfound
  obtain ⟨value', hvalue', rfl⟩ := Option.map_eq_some_iff.mp hother
  rw [inlineValue?_eq_some_iff] at hvalue'
  obtain rfl := inline_injective hvalue'
  obtain rfl := List.append_cancel_left hvalue'
  unfold role
  rw [hfound]

@[simp] theorem role_name (option : ValueOption) : role option.name = .name option := by
  cases option <;> decide

@[simp] theorem role_short : role Options.pathShort = .name .path := by
  decide

@[simp] theorem role_flag (flag : Flag) : role flag.name = .flag flag := by
  cases flag <;> decide

/-- Whether an argument has the form that a role asks for. -/
def Role.Fits (arg : Text) : Role → Prop
  | inline option value => arg = inlineStem option.name ++ value
  | name option => arg = option.name ∨ some arg = option.short?
  | flag f => arg = f.name
  | operand => True

theorem role_fits (arg : Text) : (role arg).Fits arg := by
  unfold role
  split
  · next found hfound =>
    obtain ⟨option, -, hoption⟩ := List.exists_of_findSome?_eq_some hfound
    obtain ⟨value, hvalue, rfl⟩ := Option.map_eq_some_iff.mp hoption
    exact inlineValue?_eq_some_iff.mp hvalue
  · split
    · next option hoption =>
      show arg = option.name ∨ some arg = option.short?
      simpa using List.find?_some hoption
    · split
      · next flag hflag =>
        show arg = flag.name
        simpa using List.find?_some hflag
      · trivial

/-- An argument has a role exactly if it has the form, unless that is an operand's. -/
theorem role_eq_iff {arg : Text} {r : Role} (h : r ≠ .operand) : role arg = r ↔ r.Fits arg := by
  constructor
  · rintro rfl
    exact role_fits arg
  · intro hfits
    cases r with
    | inline option value =>
      obtain rfl := hfits
      exact role_inline option value
    | name option =>
      obtain rfl | hshort := hfits
      · exact role_name option
      · -- Only the word list has a short name.
        cases option with
        | path =>
          obtain rfl := Option.some.inj hshort
          exact role_short
        | backend => exact absurd hshort (by simp [ValueOption.short?])
        | percent => exact absurd hshort (by simp [ValueOption.short?])
    | flag flag =>
      obtain rfl := hfits
      exact role_flag flag
    | operand => exact absurd rfl h

/-- Whether an argument names an option, alone or with a value inline. -/
def Recognized (arg : Text) : Prop :=
  (∃ option : ValueOption, arg = option.name ∨ some arg = option.short? ∨
    inlineStem option.name <+: arg) ∨ ∃ flag : Flag, arg = flag.name

theorem recognized_iff (arg : Text) : Recognized arg ↔ role arg ≠ .operand := by
  constructor
  · rintro (⟨option, hname | hshort | ⟨value, rfl⟩⟩ | ⟨flag, rfl⟩)
    · rw [(role_eq_iff (r := .name option) (by simp)).mpr (.inl hname)]
      simp
    · rw [(role_eq_iff (r := .name option) (by simp)).mpr (.inr hshort)]
      simp
    · simp
    · simp
  · intro h
    have hfits := role_fits arg
    cases hrole : role arg with
    | inline option value =>
      rw [hrole] at hfits
      exact .inl ⟨option, .inr (.inr ⟨value, hfits.symm⟩)⟩
    | name option =>
      rw [hrole] at hfits
      exact .inl ⟨option, hfits.imp_right .inl⟩
    | flag flag =>
      rw [hrole] at hfits
      exact .inr ⟨flag, hfits⟩
    | operand => exact absurd hrole h

theorem inlineValue?_of_role {arg : Text} {option : ValueOption}
    (h : ∀ value, role arg ≠ .inline option value) : inlineValue? option.name arg = none := by
  rw [Option.eq_none_iff_forall_ne_some]
  intro value hvalue
  exact h value ((role_eq_iff (by simp)).mpr (inlineValue?_eq_some_iff.mp hvalue))

/-- A pass for an option lets through what plays no part for it. -/
theorem foreign_of_role {arg : Text} {option : ValueOption}
    (hinline : ∀ value, role arg ≠ .inline option value) (hname : role arg ≠ .name option) :
    Foreign option.name option.short? arg :=
  ⟨inlineValue?_of_role hinline, fun hfits => hname ((role_eq_iff (by simp)).mpr hfits)⟩

/-! ### Groups -/

/-- What is written at a time. -/
inductive Group where
  /-- An option and its value. -/
  | separate (option : ValueOption) (value : Text)
  /-- The short name of the word list, and its path. -/
  | short (value : Text)
  /-- An option with its value in the same argument. -/
  | inline (option : ValueOption) (value : Text)
  /-- An option without a value. -/
  | flag (flag : Flag)
  /-- An argument that belongs to no option. -/
  | operand (text : Text)
  deriving DecidableEq

namespace Group

/-- The arguments of a group. -/
def args : Group → List Text
  | separate option value => [option.name, value]
  | short value => [Options.pathShort, value]
  | inline option value => [inlineStem option.name ++ value]
  | flag f => [f.name]
  | operand text => [text]

/-- A group whose value, if it stands alone, names no option, or an operand that names none. -/
def WellFormed : Group → Prop
  | separate _ value => ¬Recognized value
  | short value => ¬Recognized value
  | inline _ _ => True
  | flag _ => True
  | operand text => ¬Recognized text

/-- The option that a group gives a value, with the value. -/
def given? : Group → Option (ValueOption × Text)
  | separate option value => some (option, value)
  | short value => some (.path, value)
  | inline option value => some (option, value)
  | flag _ => none
  | operand _ => none

/-- The value that a group gives an option. -/
def value? (option : ValueOption) (group : Group) : Option Text :=
  match group.given? with
  | some (given, value) => if given = option then some value else none
  | none => none

/-- The operand that a group is. -/
def operand? : Group → Option Text
  | operand text => some text
  | _ => none

end Group

/-- The last value that groups give an option. -/
def lastValue (option : ValueOption) (groups : List Group) : Option Text :=
  (groups.filterMap (·.value? option)).getLast?

/-- What groups of arguments say. -/
def Choices.ofGroups (groups : List Group) : Choices where
  given option := lastValue option groups
  has flag := decide (.flag flag ∈ groups)
  operands := groups.filterMap Group.operand?

/-! ### Passes over groups -/

namespace Group

variable {group : Group} {option : ValueOption}

theorem value?_eq_some_iff {value : Text} :
    group.value? option = some value ↔ group.given? = some (option, value) := by
  unfold value?
  split
  · next given v hgiven =>
    rw [hgiven, Option.ite_none_right_eq_some]
    simp
  · next hnone => simp [hnone]

/-- A pass takes a group of its option out. -/
theorem splitValue_own {value : Text} (h : group.given? = some (option, value))
    (rest : List Text) :
    splitValue option.name option.short? (group.args ++ rest)
      = (splitValue option.name option.short? rest).map fun found =>
          (found.1.or (some value), found.2) := by
  cases group with
  | separate given v =>
    obtain ⟨rfl, rfl⟩ := Prod.mk.inj (Option.some.inj h)
    exact splitValue_separate (inlineValue?_of_role (by simp)) (.inl rfl) v rest
  | short v =>
    obtain ⟨rfl, rfl⟩ := Prod.mk.inj (Option.some.inj h)
    exact splitValue_separate (inlineValue?_of_role (by simp)) (.inr rfl) v rest
  | inline given v =>
    obtain ⟨rfl, rfl⟩ := Prod.mk.inj (Option.some.inj h)
    exact splitValue_inline v rest
  | flag flag => cases h
  | operand text => cases h

/-- What the first argument of a group does.  All others are values. -/
def leadingRole : Group → Role
  | separate option _ => .name option
  | short _ => .name .path
  | inline option value => .inline option value
  | flag f => .flag f
  | operand _ => .operand

/-- The other arguments of a group would be operands if they stood alone. -/
theorem role_of_mem_args (hgroup : group.WellFormed) {arg : Text} (harg : arg ∈ group.args) :
    role arg = group.leadingRole ∨ role arg = .operand := by
  have hplain : ∀ {text}, ¬Recognized text → role text = .operand := by
    intro text htext
    rwa [recognized_iff, not_not] at htext
  cases group with
  | separate option value =>
    obtain rfl | harg := List.mem_cons.mp harg
    · exact .inl (role_name option)
    · obtain rfl := List.mem_singleton.mp harg
      exact .inr (hplain hgroup)
  | short value =>
    obtain rfl | harg := List.mem_cons.mp harg
    · exact .inl role_short
    · obtain rfl := List.mem_singleton.mp harg
      exact .inr (hplain hgroup)
  | inline option value =>
    obtain rfl := List.mem_singleton.mp harg
    exact .inl (role_inline option value)
  | flag flag =>
    obtain rfl := List.mem_singleton.mp harg
    exact .inl (role_flag flag)
  | operand text =>
    obtain rfl := List.mem_singleton.mp harg
    exact .inr (hplain hgroup)

/-- A pass leaves the groups of other options whole. -/
theorem foreign_of_other (hgroup : group.WellFormed)
    (h : ∀ value, group.given? ≠ some (option, value)) :
    ∀ arg ∈ group.args, Foreign option.name option.short? arg := by
  intro arg harg
  have hinline : ∀ value, group.leadingRole ≠ .inline option value := by
    intro value hrole
    cases group <;> simp_all [leadingRole, given?]
  have hname : group.leadingRole ≠ .name option := by
    intro hrole
    cases group <;> simp_all [leadingRole, given?]
  obtain hrole | hrole := role_of_mem_args hgroup harg
  · exact foreign_of_role (by rwa [hrole]) (by rwa [hrole])
  · exact foreign_of_role (by simp [hrole]) (by simp [hrole])

/-- No other group holds the name of an option without a value. -/
theorem not_mem_args {flag : Flag} (hgroup : group.WellFormed) (h : group ≠ .flag flag) :
    flag.name ∉ group.args := by
  intro harg
  obtain hrole | hrole := role_of_mem_args hgroup harg
  · rw [role_flag] at hrole
    cases group <;> simp_all [leadingRole]
  · rw [role_flag] at hrole
    cases hrole

end Group

/-- A pass over groups takes out those of its option, finds the last value, and leaves the other
    groups whole. -/
theorem splitValue_groups (option : ValueOption) {groups : List Group}
    (h : ∀ group ∈ groups, group.WellFormed) :
    splitValue option.name option.short? (groups.flatMap Group.args)
      = .ok (lastValue option groups,
          (groups.filter fun group => group.value? option = none).flatMap Group.args) := by
  induction groups with
  | nil => rfl
  | cons group groups ih =>
    rw [List.forall_mem_cons] at h
    rw [List.flatMap_cons]
    cases hvalue : group.value? option with
    | some value =>
      rw [Group.splitValue_own (Group.value?_eq_some_iff.mp hvalue), ih h.2]
      simp [Except.map, lastValue, hvalue, List.getLast?_cons]
    -- Without a value for the option, no argument of the group names it.
    | none =>
      rw [splitValue_append (Group.foreign_of_other h.1 ?_), ih h.2]
      · simp [Except.map, lastValue, hvalue]
      · intro value hgiven
        rw [Group.value?_eq_some_iff.mpr hgiven] at hvalue
        exact absurd hvalue (by simp)

/-- A pass for an option without a value takes out its groups, and leaves the others whole. -/
theorem splitFlag_groups (flag : Flag) {groups : List Group}
    (h : ∀ group ∈ groups, group.WellFormed) :
    splitFlag flag.name (groups.flatMap Group.args)
      = (decide (.flag flag ∈ groups),
          (groups.filter fun group => group ≠ .flag flag).flatMap Group.args) := by
  induction groups with
  | nil => rfl
  | cons group groups ih =>
    rw [List.forall_mem_cons] at h
    obtain ⟨hthere, hothers⟩ := Prod.mk.inj (ih h.2)
    rw [splitFlag, List.flatMap_cons, List.filter_append, hothers, List.contains_append, hthere]
    by_cases hgroup : group = .flag flag
    · subst hgroup
      simp [Group.args]
    · have hnot := Group.not_mem_args h.1 hgroup
      have hfilter : group.args.filter (· ≠ flag.name) = group.args := by
        rw [List.filter_eq_self]
        intro arg harg
        simpa using fun heq : arg = flag.name => hnot (heq ▸ harg)
      rw [hfilter, List.filter_cons_of_pos (by simpa using hgroup), List.flatMap_cons]
      simp [hnot, Ne.symm hgroup]

/-- A group gives no value to a second option. -/
theorem Group.value?_of_ne {group : Group} {option other : ValueOption} {value : Text}
    (h : group.value? option = some value) (hne : option ≠ other) : group.value? other = none := by
  rw [Option.eq_none_iff_forall_ne_some]
  intro value' h'
  rw [value?_eq_some_iff] at h h'
  rw [h, Option.some.injEq, Prod.mk.injEq] at h'
  exact hne h'.1

/-- Without the groups of another option, an option has the same last value. -/
theorem lastValue_filter {option other : ValueOption} (hne : option ≠ other)
    (groups : List Group) :
    lastValue option (groups.filter fun group => group.value? other = none)
      = lastValue option groups := by
  rw [lastValue, List.filterMap_filter, lastValue]
  congr 2
  funext group
  cases hvalue : group.value? option with
  | none => simp
  | some value => simp [Group.value?_of_ne hvalue hne]

/-- A group that no pass takes out is an operand. -/
theorem Group.isSome_operand?_iff (group : Group) :
    group.operand?.isSome = true ↔
      (∀ option, group.value? option = none) ∧ ∀ flag, group ≠ .flag flag := by
  cases group with
  | separate option value =>
    exact ⟨nofun, fun h => absurd (h.1 option) (by simp [value?, given?])⟩
  | short value => exact ⟨nofun, fun h => absurd (h.1 .path) (by simp [value?, given?])⟩
  | inline option value =>
    exact ⟨nofun, fun h => absurd (h.1 option) (by simp [value?, given?])⟩
  | flag flag => exact ⟨nofun, fun h => absurd rfl (h.2 flag)⟩
  | operand text => exact ⟨fun _ => ⟨fun _ => rfl, nofun⟩, fun _ => rfl⟩

theorem flatMap_args_operands (groups : List Group) :
    (groups.filter (·.operand?.isSome)).flatMap Group.args = groups.filterMap Group.operand? := by
  induction groups with
  | nil => rfl
  | cons group groups ih =>
    cases group with
    | operand text => exact congrArg (text :: ·) ih
    | separate option value => exact ih
    | short value => exact ih
    | inline option value => exact ih
    | flag flag => exact ih

theorem wellFormed_filter {groups : List Group} (h : ∀ group ∈ groups, group.WellFormed)
    (p : Group → Bool) : ∀ group ∈ groups.filter p, group.WellFormed :=
  fun group hgroup => h group (List.mem_filter.mp hgroup).1

/-- **Passes over groups.** Five passes find in groups what the groups say. -/
theorem Choices.inPasses_groups {groups : List Group} (h : ∀ group ∈ groups, group.WellFormed) :
    inPasses (groups.flatMap Group.args) = .ok (ofGroups groups) := by
  have h₁ := wellFormed_filter h fun group => group.value? .path = none
  have h₂ := wellFormed_filter h₁ fun group => group.value? .backend = none
  have h₃ := wellFormed_filter h₂ fun group => group.value? .percent = none
  have h₄ := wellFormed_filter h₃ fun group => group ≠ .flag .ignoreCase
  refine bind_eq_ok_iff.mpr ⟨_, splitValue_groups .path h, bind_eq_ok_iff.mpr
    ⟨_, splitValue_groups .backend h₁, bind_eq_ok_iff.mpr ⟨_, splitValue_groups .percent h₂, ?_⟩⟩⟩
  -- The flags are taken out of what the options with a value have left.
  have hignoreCase := splitFlag_groups .ignoreCase h₃
  have hmedian := splitFlag_groups .median h₄
  have hleft := congrArg Prod.snd hignoreCase
  dsimp only at hleft
  refine congrArg Except.ok (Choices.ext ?_ ?_ ?_)
  · funext option
    cases option with
    | path => rfl
    | backend => exact lastValue_filter (by decide) groups
    | percent =>
      exact (lastValue_filter (by decide) _).trans (lastValue_filter (by decide) groups)
  · funext flag
    cases flag with
    | ignoreCase =>
      refine (congrArg Prod.fst hignoreCase).trans ?_
      simp [ofGroups, Group.value?, Group.given?]
    | median =>
      show (splitFlag Flag.median.name (splitFlag Flag.ignoreCase.name _).2).1 = _
      rw [hleft, hmedian]
      simp [ofGroups, Group.value?, Group.given?]
  · show (splitFlag Flag.median.name (splitFlag Flag.ignoreCase.name _).2).2 = _
    rw [hleft, hmedian]
    show _ = groups.filterMap Group.operand?
    rw [← flatMap_args_operands]
    simp only [List.filter_filter]
    congr 1
    refine List.filter_congr fun group _ => ?_
    rw [Bool.eq_iff_iff, Group.isSome_operand?_iff, ValueOption.forall_iff, Flag.forall_iff]
    simp only [Bool.and_eq_true, decide_eq_true_eq]
    tauto

end Lexicon
