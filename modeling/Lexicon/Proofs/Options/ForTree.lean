import Lexicon.Proofs.Dictionary.Loaded
import Lexicon.Proofs.Options.Passes
import Lexicon.Proofs.Ternary.Matching
import Lexicon.Proofs.Ternary.Near

namespace Lexicon

/-!
# Trees that tell cases apart

A tool that searches a tree looks at its arguments before any option is taken out of them.  The
passes only ever take arguments away, so they find no option that was not seen then, not even where
they bring arguments together.

* `Choices.NamedIn`, `Choices.namedIn_inPasses` — what the passes find is named by an argument.
* `Options.parseForTree_eq_ok_iff`, `Options.exists_parseForTree_refused` — what is refused.
* `Options.parseForTree_searches` — the tools that search a tree always get one that tells cases
  apart.
-/

/-! ### Where options come from -/

/-- What was found is named by some arguments, and the operands are among them in order. -/
structure Choices.NamedIn (args : List Text) (choices : Choices) : Prop where
  /-- An option that is given is named. -/
  given : ∀ option, (choices.given option).isSome = true →
    ∃ arg ∈ args, ¬Foreign option.name option.short? arg
  /-- An option without a value that is there is an argument. -/
  has : ∀ flag, choices.has flag = true → flag.name ∈ args
  /-- The operands are arguments. -/
  operands : choices.operands.Sublist args

/-- No pass finds an option in what the earlier ones left that was not in the arguments. -/
theorem Choices.namedIn_inPasses {args : List Text} {choices : Choices}
    (h : inPasses args = .ok choices) : choices.NamedIn args := by
  obtain ⟨path, hpath, h⟩ := bind_eq_ok_iff.mp h
  obtain ⟨backend, hbackend, h⟩ := bind_eq_ok_iff.mp h
  obtain ⟨percent, hpercent, h⟩ := bind_eq_ok_iff.mp h
  obtain rfl := Except.ok.inj h
  obtain ⟨hleft, hnamed⟩ := splitValue_spec hpath
  obtain ⟨hleft', hnamed'⟩ := splitValue_spec hbackend
  obtain ⟨hleft'', hnamed''⟩ := splitValue_spec hpercent
  -- What is left for a pass was there at the start.
  have hbefore : path.2 ⊆ args := hleft.subset
  have hbefore' : backend.2 ⊆ args := (hleft'.trans hleft).subset
  have hflags : percent.2.Sublist args := hleft''.trans (hleft'.trans hleft)
  refine ⟨?_, ?_, ?_⟩
  · intro option hsome
    cases option with
    | path => exact hnamed hsome
    | backend =>
      obtain ⟨arg, harg, hforeign⟩ := hnamed' hsome
      exact ⟨arg, hbefore harg, hforeign⟩
    | percent =>
      obtain ⟨arg, harg, hforeign⟩ := hnamed'' hsome
      exact ⟨arg, hbefore' harg, hforeign⟩
  · intro flag hhas
    cases flag with
    | ignoreCase => exact hflags.subset (List.contains_iff_mem.mp hhas)
    | median =>
      have hmem : Options.medianName ∈ percent.2.filter (· ≠ Options.ignoreCaseName) :=
        List.contains_iff_mem.mp hhas
      exact hflags.subset (List.mem_filter.mp hmem).1
  · exact List.filter_sublist.trans (List.filter_sublist.trans hflags)

namespace Options

/-! ### What is refused -/

/-- An argument is let through unless it names the backend or asks to ignore case. -/
theorem refusal?_eq_none_iff {arg : Text} :
    refusal? arg = none ↔ Foreign backendName none arg ∧ arg ≠ ignoreCaseName := by
  have hforeign : Foreign backendName none arg ↔
      ¬(arg = backendName ∨ (inlineStem backendName).isPrefixOf arg = true) := by
    constructor
    · rintro ⟨hinline, hname⟩ (harg | hstem)
      · exact hname (.inl harg)
      · simp [inlineValue?, hstem] at hinline
    · intro h
      rw [not_or] at h
      exact ⟨by simp [inlineValue?, h.2], by simp [h.1]⟩
  rw [hforeign]
  unfold refusal?
  split_ifs <;> simp_all

/-- Arguments of which none is refused are read as ever. -/
theorem parseForTree_eq_ok_iff {environment : Option Text} {args : List Text}
    {result : Options × List Text} :
    parseForTree environment args = .ok result ↔
      (∀ arg ∈ args, refusal? arg = none) ∧ parse environment args = .ok result := by
  rw [← List.findSome?_eq_none_iff]
  unfold parseForTree
  cases args.findSome? refusal? <;> simp

/-- An argument that is refused makes the tool say so. -/
theorem exists_parseForTree_refused {args : List Text} {arg : Text} (harg : arg ∈ args)
    (hrefused : refusal? arg ≠ none) (environment : Option Text) :
    ∃ e, (e = .backendRefused ∨ e = .ignoreCaseRefused) ∧
      parseForTree environment args = .error e := by
  -- The tool tells of the first argument that is refused, which may be another one.
  cases hfirst : args.findSome? refusal? with
  | none => exact absurd (List.findSome?_eq_none_iff.mp hfirst arg harg) hrefused
  | some e =>
    refine ⟨e, ?_, ?_⟩
    · obtain ⟨first, -, he⟩ := List.exists_of_findSome?_eq_some hfirst
      unfold refusal? at he
      split_ifs at he with hbackend hcase
      · exact .inl (Option.some.inj he).symm
      · exact .inr (Option.some.inj he).symm
    · unfold parseForTree
      rw [hfirst]

/-- Arguments that choose a backend or ignore case hold one that is refused. -/
theorem exists_refused {args : List Text} {choices : Choices}
    (hchoices : Choices.inPasses args = .ok choices)
    (h : choices.has .ignoreCase = true ∨ (choices.given .backend).isSome = true) :
    ∃ arg ∈ args, refusal? arg ≠ none := by
  have hnamed := Choices.namedIn_inPasses hchoices
  rcases h with hcase | hbackend
  · exact ⟨ignoreCaseName, hnamed.has .ignoreCase hcase,
      fun hnone => (refusal?_eq_none_iff.mp hnone).2 rfl⟩
  · obtain ⟨arg, harg, hforeign⟩ := hnamed.given .backend hbackend
    exact ⟨arg, harg, fun hnone => hforeign (refusal?_eq_none_iff.mp hnone).1⟩

/-- Options that are read are those of what the passes find. -/
theorem exists_settled_of_parse {environment : Option Text} {args : List Text} {options : Options}
    {operands : List Text} (h : parse environment args = .ok (options, operands)) :
    ∃ choices, Choices.inPasses args = .ok choices ∧ Settled environment choices options ∧
      operands = choices.operands := by
  rw [parse_eq] at h
  obtain ⟨choices, hchoices, h⟩ := bind_eq_ok_iff.mp h
  exact ⟨choices, hchoices, Choices.settle_eq_ok_iff.mp h⟩

/-- Options for a tool that searches a tree name no backend and tell cases apart. -/
theorem parse_of_parseForTree {environment : Option Text} {args : List Text} {options : Options}
    {operands : List Text} (h : parseForTree environment args = .ok (options, operands)) :
    parse environment args = .ok (options, operands) ∧ options.backend = .file ∧
      options.caseSensitive = true := by
  obtain ⟨hlet, hparse⟩ := parseForTree_eq_ok_iff.mp h
  obtain ⟨choices, hchoices, hsettled, -⟩ := exists_settled_of_parse hparse
  -- What the passes find is named by an argument, and such an argument would have been refused.
  have hneither : ¬(choices.has .ignoreCase = true ∨ (choices.given .backend).isSome = true) := by
    intro hchosen
    obtain ⟨arg, harg, hrefused⟩ := exists_refused hchoices hchosen
    exact hrefused (hlet arg harg)
  simp only [not_or, Bool.not_eq_true, Option.isSome_eq_false_iff, Option.isNone_iff_eq_none]
    at hneither
  refine ⟨hparse, ?_, ?_⟩
  · have hbackend := hsettled.backend_eq
    rwa [hneither.2] at hbackend
  · rw [hsettled.caseSensitive_eq, hneither.1]
    rfl

/-! ### Searches -/

/-- Such options choose the order in which words that differ in case differ. -/
theorem order_of_parseForTree {environment : Option Text} {args : List Text} {options : Options}
    {operands : List Text} (h : parseForTree environment args = .ok (options, operands)) :
    options.order = .exact := by
  rw [order, (parse_of_parseForTree h).2.2]
  rfl

/-- **Trees of the tools.** Whatever the arguments are, the options that a tool which searches a
    tree accepts are those of any other tool, with the backend that needs no naming, and with words
    that differ in case.  Arguments that name a backend or ignore case are refused, wherever these
    options stand.  No search in a tree that is loaded by such options fails. -/
theorem parseForTree_searches (environment : Option Text) (args : List Text) :
    (∀ options operands, parseForTree environment args = .ok (options, operands) →
      parse environment args = .ok (options, operands) ∧ options.backend = .file ∧
        options.caseSensitive = true) ∧
      (∀ options operands, parse environment args = .ok (options, operands) →
        (options.caseSensitive = false ∨ ∃ choices name, Choices.inPasses args = .ok choices ∧
          choices.given .backend = some name) →
        ∃ e, (e = .backendRefused ∨ e = .ignoreCaseRefused) ∧
          parseForTree environment args = .error e) ∧
      ∀ options operands found tree, parseForTree environment args = .ok (options, operands) →
        options.treeOf found = .ok tree →
          (∀ pattern, ∃ words, tree.matching pattern = .ok words) ∧
            ∀ query distance, ∃ words, tree.near query distance = .ok words := by
  refine ⟨?_, ?_, ?_⟩
  · intro options operands h
    exact parse_of_parseForTree h
  · intro options operands hparse hchosen
    obtain ⟨choices, hchoices, hsettled, -⟩ := exists_settled_of_parse hparse
    have heither : choices.has .ignoreCase = true ∨ (choices.given .backend).isSome = true := by
      rcases hchosen with hcase | ⟨found, name, hfound, hname⟩
      · rw [hsettled.caseSensitive_eq, Bool.not_eq_false'] at hcase
        exact .inl hcase
      · obtain rfl : choices = found := Except.ok.inj (hchoices.symm.trans hfound)
        exact .inr (Option.isSome_of_eq_some hname)
    obtain ⟨arg, harg, hrefused⟩ := exists_refused hchoices heither
    exact exists_parseForTree_refused harg hrefused environment
  · intro options operands found tree h htree
    obtain ⟨-, -, visited, -, -, -, rfl⟩ := exists_of_treeOf htree
    rw [order_of_parseForTree h]
    exact ⟨fun pattern => ⟨_, Ternary.Tree.matching_eq_filter visited pattern⟩,
      fun query distance => ⟨_, Ternary.Tree.near_eq_filter visited query distance⟩⟩

/-- The word list is named behind the operand, and trees are built in median order. -/
def patternArgs : List Text := ["a.".toList, "--median".toList, "-d".toList, "w".toList]

/-- Case is ignored behind the value of another option. -/
def caselessArgs : List Text := ["-d".toList, "w".toList, "--ignore-case".toList]

/-- A tree of two words is searched, and arguments that ignore case are refused. -/
theorem parseForTree_searches_two_words :
    (∃ options operands tree, parseForTree none patternArgs = .ok (options, operands) ∧
      options.caseSensitive = true ∧ options.treeOf (.ok (.file [0x61, 0x0A, 0x62])) = .ok tree ∧
        ∃ words, tree.matching "a.".toList = .ok words) ∧
      ∃ e, parseForTree none caselessArgs = .error e := by
  have hoptions : parseForTree none patternArgs
      = .ok (⟨"w".toList, .file, true, 5, true⟩, ["a.".toList]) := by
    with_unfolding_all rfl
  have hcaseless : parse none caselessArgs = .ok (⟨"w".toList, .file, false, 5, false⟩, []) := by
    with_unfolding_all rfl
  obtain ⟨tree, htree⟩ := exists_eq_ok
    (show ((⟨"w".toList, .file, true, 5, true⟩ : Options).treeOf
      (.ok (.file [0x61, 0x0A, 0x62]))).isOk = true by decide +kernel)
  obtain ⟨hread, -, hsearches⟩ := parseForTree_searches none patternArgs
  obtain ⟨e, -, hrefused⟩ :=
    (parseForTree_searches none caselessArgs).2.1 _ _ hcaseless (.inl rfl)
  exact ⟨⟨_, _, tree, hoptions, (hread _ _ hoptions).2.2, htree,
    (hsearches _ _ _ _ hoptions htree).1 _⟩, e, hrefused⟩

end Options

end Lexicon
