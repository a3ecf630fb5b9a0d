import Lexicon.Options.Basic
import Lexicon.Proofs.Decimal.Numeral
import Lexicon.Proofs.Success

namespace Lexicon

/-!
# Passes over arguments

The options are taken out of the arguments in five passes, each over what the earlier ones left.
What the passes find is read only afterwards.

* `Foreign` — an argument that a pass for an option with a value lets through.
* `splitValue_foreign`, `splitValue_inline`, `splitValue_separate` — one step of such a pass.
* `splitValue_spec` — a pass brings no argument in, and finds a value only where an argument names
  the option.
* `Choices`, `Choices.inPasses` — what the passes find.
* `Options.parse_eq` — the options are what the passes find, once it is read.
* `Choices.settle_eq_ok_iff`, `Choices.exists_settle_eq_error_iff` — what can be read, and as which
  options.
-/

/-! ### A pass for an option with a value -/

/-- An argument that does not name an option, neither alone nor with a value inline. -/
structure Foreign (name : Text) (short : Option Text) (arg : Text) : Prop where
  /-- It has no value inline. -/
  inlineValue?_eq : inlineValue? name arg = none
  /-- It is not the name, long or short. -/
  ne_name : ¬(arg = name ∨ some arg = short)

section Pass

variable {name : Text} {short : Option Text}

/-- An argument that a pass lets through stays in front of the others. -/
theorem splitValue_foreign {arg : Text} (h : Foreign name short arg) (rest : List Text) :
    splitValue name short (arg :: rest)
      = (splitValue name short rest).map fun found => (found.1, arg :: found.2) := by
  simp only [splitValue.eq_def name short (arg :: rest), h.inlineValue?_eq, if_neg h.ne_name]
  cases splitValue name short rest <;> rfl

/-- So do several such arguments. -/
theorem splitValue_append {front : List Text} (h : ∀ arg ∈ front, Foreign name short arg)
    (rest : List Text) :
    splitValue name short (front ++ rest)
      = (splitValue name short rest).map fun found => (found.1, front ++ found.2) := by
  induction front with
  | nil =>
    rw [List.nil_append]
    cases splitValue name short rest <;> rfl
  | cons arg front ih =>
    rw [List.forall_mem_cons] at h
    rw [List.cons_append, splitValue_foreign h.1, ih h.2]
    cases splitValue name short rest <;> rfl

/-- A value inline counts if no later one is given. -/
theorem splitValue_inline (value : Text) (rest : List Text) :
    splitValue name short ((inlineStem name ++ value) :: rest)
      = (splitValue name short rest).map fun found => (found.1.or (some value), found.2) := by
  have hvalue : inlineValue? name (inlineStem name ++ value) = some value := by
    simp [inlineValue?]
  simp only [splitValue.eq_def name short (_ :: rest), hvalue]
  cases splitValue name short rest <;> rfl

/-- A value behind a name counts if no later one is given. -/
theorem splitValue_separate {arg : Text} (hinline : inlineValue? name arg = none)
    (hname : arg = name ∨ some arg = short) (value : Text) (rest : List Text) :
    splitValue name short (arg :: value :: rest)
      = (splitValue name short rest).map fun found => (found.1.or (some value), found.2) := by
  simp only [splitValue.eq_def name short (_ :: value :: rest), hinline, if_pos hname]
  cases splitValue name short rest <;> rfl

/-- A pass leaves arguments in their order, and finds a value only if one of them names the
    option. -/
theorem splitValue_spec {args : List Text} {found : Option Text × List Text}
    (h : splitValue name short args = .ok found) :
    found.2.Sublist args ∧ (found.1.isSome = true → ∃ arg ∈ args, ¬Foreign name short arg) := by
  fun_induction splitValue name short args generalizing found with
  | case1 =>
    obtain rfl := Except.ok.inj h
    exact ⟨.slnil, fun hsome => absurd hsome Bool.false_ne_true⟩
  -- A value inline: the argument is taken out, and names the option.
  | case2 arg rest value hvalue ih =>
    obtain ⟨later, hlater, h⟩ := bind_eq_ok_iff.mp h
    obtain rfl := Except.ok.inj h
    refine ⟨(ih hlater).1.cons arg, fun _ => ⟨arg, List.mem_cons_self, fun hforeign => ?_⟩⟩
    rw [hforeign.inlineValue?_eq] at hvalue
    exact absurd hvalue (by simp)
  -- A name at the end of the arguments is a fault.
  | case3 => exact absurd h (by simp)
  -- A value behind a name: both are taken out, and the first one names the option.
  | case4 arg hinline hname value rest ih =>
    obtain ⟨later, hlater, h⟩ := bind_eq_ok_iff.mp h
    obtain rfl := Except.ok.inj h
    exact ⟨((ih hlater).1.cons value).cons arg,
      fun _ => ⟨arg, List.mem_cons_self, fun hforeign => hforeign.ne_name hname⟩⟩
  -- Any other argument is left, and the value is found in the rest.
  | case5 arg rest hinline hname ih =>
    obtain ⟨later, hlater, h⟩ := bind_eq_ok_iff.mp h
    obtain rfl := Except.ok.inj h
    refine ⟨(ih hlater).1.cons_cons arg, fun hsome => ?_⟩
    obtain ⟨named, hnamed, hnot⟩ := (ih hlater).2 hsome
    exact ⟨named, List.mem_cons_of_mem arg hnamed, hnot⟩

end Pass

/-! ### What the passes find -/

/-- The options that take a value. -/
inductive ValueOption where
  /-- The word list. -/
  | path
  /-- What answers lookups. -/
  | backend
  /-- The share of offsets to keep. -/
  | percent
  deriving DecidableEq

/-- The options that take no value. -/
inductive Flag where
  /-- Words that differ only in case are equal. -/
  | ignoreCase
  /-- Trees are built in median order. -/
  | median
  deriving DecidableEq

/-- What names an option. -/
def ValueOption.name : ValueOption → Text
  | path => Options.pathName
  | backend => Options.backendName
  | percent => Options.percentName

/-- What names an option in short, if anything does. -/
def ValueOption.short? : ValueOption → Option Text
  | path => some Options.pathShort
  | backend => none
  | percent => none

/-- What names an option. -/
def Flag.name : Flag → Text
  | ignoreCase => Options.ignoreCaseName
  | median => Options.medianName

/-- What arguments say, with each value as it is written. -/
@[ext]
structure Choices where
  /-- The value of an option, if one is given. -/
  given : ValueOption → Option Text
  /-- Whether an option without a value is there. -/
  has : Flag → Bool
  /-- The arguments that belong to no option. -/
  operands : List Text

namespace Choices

/-- What is found by one pass over the arguments for each option. -/
def inPasses (args : List Text) : Except UsageError Choices := do
  let (path, args) ← splitValue Options.pathName (some Options.pathShort) args
  let (backend, args) ← splitValue Options.backendName none args
  let (percent, args) ← splitValue Options.percentName none args
  let (ignoreCase, args) := splitFlag Options.ignoreCaseName args
  let (median, args) := splitFlag Options.medianName args
  return {
    given := fun
      | .path => path
      | .backend => backend
      | .percent => percent
    has := fun
      | .ignoreCase => ignoreCase
      | .median => median
    operands := args }

/-- Reads what was found.  The environment may name the word list where nothing else does. -/
def settle (environment : Option Text) (choices : Choices) :
    Except UsageError (Options × List Text) :=
  match (choices.given .path).or environment with
  | none => .error .noWordList
  | some path => do
    let backend ← ((choices.given .backend).map Backend.parse).getD (.ok .file)
    let percent ← ((choices.given .percent).map Options.parsePercent).getD
      (.ok OffsetIndex.defaultPercent)
    return (⟨path, backend, !choices.has .ignoreCase, percent, choices.has .median⟩,
      choices.operands)

end Choices

/-- The options are what the passes find, once it is read. -/
theorem Options.parse_eq (environment : Option Text) (args : List Text) :
    Options.parse environment args = Choices.inPasses args >>= Choices.settle environment := by
  unfold Options.parse Choices.inPasses
  simp only [bind_assoc]
  refine bind_congr fun path => bind_congr fun backend => bind_congr fun percent => ?_
  rw [pure_bind, Choices.settle]
  cases path.1.or environment <;> rfl

/-! ### Reading what was found -/

/-- The options that are read off what was found. -/
structure Settled (environment : Option Text) (choices : Choices) (options : Options) : Prop where
  /-- The word list is the one given, or else the one of the environment. -/
  path_eq : (choices.given .path).or environment = some options.path
  /-- The backend is the one of the name given, or else the open file. -/
  backend_eq : (choices.given .backend).elim (options.backend = .file)
    fun name => Backend.ofName? name = some options.backend
  /-- The share of offsets is the number given, or else five percent. -/
  percent_eq : (choices.given .percent).elim (options.percent = 5)
    fun value => Decimal.IsSigned32 value options.percent
  /-- Words that differ in case differ, unless case is to be ignored. -/
  caseSensitive_eq : options.caseSensitive = !choices.has .ignoreCase
  /-- Trees are built in median order where that is asked for. -/
  median_eq : options.median = choices.has .median

namespace Choices

theorem getD_parse_eq_ok_iff {name : Option Text} {backend : Backend} :
    (name.map Backend.parse).getD (.ok .file) = .ok backend ↔
      name.elim (backend = .file) fun name => Backend.ofName? name = some backend := by
  cases name with
  | none => simp [eq_comm]
  | some name =>
    simp only [Option.map_some, Option.getD_some, Option.elim_some, Backend.parse]
    cases Backend.ofName? name <;> simp

theorem getD_parsePercent_eq_ok_iff {value : Option Text} {percent : Int} :
    (value.map Options.parsePercent).getD (.ok OffsetIndex.defaultPercent) = .ok percent ↔
      value.elim (percent = 5) fun value => Decimal.IsSigned32 value percent := by
  cases value with
  | none => simp [OffsetIndex.defaultPercent, eq_comm]
  | some value =>
    simp only [Option.map_some, Option.getD_some, Option.elim_some, Options.parsePercent,
      ← Decimal.signed?_eq_some_iff]
    cases Decimal.signed? value <;> simp

/-- What was found is read as these options, and no others. -/
theorem settle_eq_ok_iff {environment : Option Text} {choices : Choices} {options : Options}
    {operands : List Text} :
    choices.settle environment = .ok (options, operands) ↔
      Settled environment choices options ∧ operands = choices.operands := by
  unfold settle
  constructor
  · intro h
    split at h
    · exact absurd h (by simp)
    · next path hpath =>
      obtain ⟨backend, hbackend, h⟩ := bind_eq_ok_iff.mp h
      obtain ⟨percent, hpercent, h⟩ := bind_eq_ok_iff.mp h
      obtain ⟨rfl, rfl⟩ := Prod.mk.inj (Except.ok.inj h)
      exact ⟨⟨hpath, getD_parse_eq_ok_iff.mp hbackend, getD_parsePercent_eq_ok_iff.mp hpercent,
        rfl, rfl⟩, rfl⟩
  · rintro ⟨h, rfl⟩
    simp only [h.path_eq]
    refine bind_eq_ok_iff.mpr ⟨_, getD_parse_eq_ok_iff.mpr h.backend_eq,
      bind_eq_ok_iff.mpr ⟨_, getD_parsePercent_eq_ok_iff.mpr h.percent_eq, ?_⟩⟩
    rw [← h.caseSensitive_eq, ← h.median_eq]
    rfl

theorem exists_backend_iff {name : Option Text} :
    (∃ backend : Backend, name.elim (backend = .file)
        fun name => Backend.ofName? name = some backend) ↔
      ¬∃ given, name = some given ∧ Backend.ofName? given = none := by
  cases name with
  | none => simp
  | some given => simp [← Option.isSome_iff_exists, Option.isSome_iff_ne_none]

theorem exists_percent_iff {value : Option Text} :
    (∃ percent : Int, value.elim (percent = 5) fun value => Decimal.IsSigned32 value percent) ↔
      ¬∃ given, value = some given ∧ ∀ n, ¬Decimal.IsSigned32 given n := by
  cases value with
  | none => simp
  | some given => simp

/-- What was found can be read unless there is no word list, a name of no backend, or a value that
    is no number of 32 bits where the share of offsets should be. -/
theorem exists_settle_eq_error_iff {environment : Option Text} {choices : Choices} :
    (∃ e, choices.settle environment = .error e) ↔
      (choices.given .path).or environment = none ∨
      (∃ name, choices.given .backend = some name ∧ Backend.ofName? name = none) ∨
      ∃ value, choices.given .percent = some value ∧ ∀ n, ¬Decimal.IsSigned32 value n := by
  rw [exists_eq_error_iff]
  constructor
  · intro h
    by_contra! hreadable
    obtain ⟨hpath, hbackend, hpercent⟩ := hreadable
    obtain ⟨path, hpath⟩ := Option.ne_none_iff_exists'.mp hpath
    obtain ⟨backend, hbackend⟩ := exists_backend_iff.mpr (by simpa using hbackend)
    obtain ⟨percent, hpercent⟩ := exists_percent_iff.mpr (by simpa using hpercent)
    let options : Options :=
      ⟨path, backend, !choices.has .ignoreCase, percent, choices.has .median⟩
    have hsettled : Settled environment choices options :=
      ⟨hpath, hbackend, hpercent, rfl, rfl⟩
    exact h (options, choices.operands) (settle_eq_ok_iff.mpr ⟨hsettled, rfl⟩)
  · rintro hfault ⟨options, operands⟩ hok
    obtain ⟨hsettled, -⟩ := settle_eq_ok_iff.mp hok
    rcases hfault with hpath | hbackend | hpercent
    · rw [hsettled.path_eq] at hpath
      exact absurd hpath (by simp)
    · exact exists_backend_iff.mp ⟨_, hsettled.backend_eq⟩ hbackend
    · exact exists_percent_iff.mp ⟨_, hsettled.percent_eq⟩ hpercent

end Choices

end Lexicon
