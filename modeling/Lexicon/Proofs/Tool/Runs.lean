import Lexicon.Proofs.Decimal.Numeral
import Lexicon.Proofs.Success
import Lexicon.Proofs.Tool.Queries
import Lexicon.Tool.Job

namespace Lexicon

/-!
# Runs that come to their end

A run without a fault prints lines and exits with zero.

* `ended` — lines as they are printed.
* `Queries.Given`, `Queries.asked` — the queries of a run.
* `Job.Described`, `Job.ofArguments_eq_ok_iff` — the job that the arguments of a tool describe.
* `Outcome.answered`, `Tool.run_of_answers` — the outcome of a run of which all queries are
  answered.
-/

/-- Lines, each of them with its line feed. -/
def ended (lines : List Text) : Text :=
  lines.flatMap (· ++ ['\n'])

@[simp] theorem ended_nil : ended [] = [] := rfl

theorem ended_cons (line : Text) (lines : List Text) :
    ended (line :: lines) = line ++ ['\n'] ++ ended lines :=
  List.flatMap_cons

theorem ended_append (lines lines' : List Text) :
    ended (lines ++ lines') = ended lines ++ ended lines' :=
  List.flatMap_append

/-! ### Queries -/

/-- The queries that a run is given. -/
inductive Queries.Given (operands : List Text) (input : Bytes) : Queries → Prop
  /-- Arguments that are left are asked as they are, whatever stands in the input. -/
  | operands (left : operands ≠ []) : Given operands input ⟨operands, false⟩
  /-- If none is left, the queries are typed in the lines of the input. -/
  | input {queries : Queries} (none_left : operands = [])
      (typed : Typed (input.splitOn lineFeed) queries) : Given operands input queries

/-- The queries of a run: the arguments that are left, as they are, or else those of the input. -/
def Queries.asked (operands : List Text) (input : Bytes) : Queries :=
  if operands = [] then Queries.ofLines (input.splitOn lineFeed) else ⟨operands, false⟩

/-- A run is given the queries that it asks. -/
theorem Queries.given_asked (operands : List Text) (input : Bytes) :
    Given operands input (asked operands input) := by
  rw [asked]
  split_ifs with h
  · exact .input h (typed_iff.mpr rfl)
  · exact .operands h

theorem Job.queries_eq (job : Job) (input : Bytes) :
    job.queries input = Queries.asked job.operands input := by
  rw [Job.queries, Queries.asked, Queries.ofInput_eq]
  simp only [List.isEmpty_iff]

/-- Files of which there is only one, to which every path leads. -/
def onlyFile (contents : Bytes) : Text → Except FileError Entry :=
  fun _ => .ok (.file contents)

/-! ### Jobs -/

/-- The job that the arguments of a tool describe. -/
inductive Job.Described (environment : Option Text) (args : List Text) : Tool → Job → Prop
  /-- Words are looked up by the options that every tool offers. -/
  | search {options : Options} {operands : List Text}
      (parsed : Options.parse environment args = .ok (options, operands)) :
      Described environment args .search ⟨.lookUp, options, operands⟩
  /-- Words that match are listed by the options for a tree. -/
  | matching {options : Options} {operands : List Text}
      (parsed : Options.parseForTree environment args = .ok (options, operands)) :
      Described environment args .matching ⟨.listMatches, options, operands⟩
  /-- Words near another are listed by these options and a distance, which is taken out of what
      they leave, and is one unless it is given. -/
  | near {options : Options} {rest operands : List Text} {value : Option Text} {distance : Nat}
      (parsed : Options.parseForTree environment args = .ok (options, rest))
      (taken : splitValue distanceName (some distanceShort) rest = .ok (value, operands))
      (read : value.elim (distance = 1) fun value => Decimal.IsCount64 value distance) :
      Described environment args .near ⟨.listNear distance, options, operands⟩

theorem Job.getD_parseDistance_eq_ok_iff {value : Option Text} {distance : Nat} :
    (value.map parseDistance).getD (.ok defaultDistance) = .ok distance ↔
      value.elim (distance = 1) fun value => Decimal.IsCount64 value distance := by
  cases value with
  -- A distance that is not given is one.
  | none => simp [defaultDistance, eq_comm]
  | some value =>
    simp only [Option.map_some, Option.getD_some, Option.elim_some, parseDistance,
      ← Decimal.unsigned?_eq_some_iff]
    cases Decimal.unsigned? value <;> simp

/-- A tool accepts the arguments that describe a job, and does that job. -/
theorem Job.ofArguments_eq_ok_iff {tool : Tool} {environment : Option Text} {args : List Text}
    {job : Job} :
    ofArguments tool environment args = .ok job ↔ Described environment args tool job := by
  constructor
  · -- Arguments that are accepted pass each of the steps that read them.
    intro h
    cases tool with
    | search =>
      obtain ⟨⟨options, operands⟩, hparsed, h⟩ := bind_eq_ok_iff.mp h
      obtain rfl := Except.ok.inj h
      exact .search hparsed
    | matching =>
      obtain ⟨⟨options, operands⟩, hparsed, h⟩ := bind_eq_ok_iff.mp h
      obtain rfl := Except.ok.inj h
      exact .matching hparsed
    | near =>
      obtain ⟨⟨options, rest⟩, hparsed, h⟩ := bind_eq_ok_iff.mp h
      obtain ⟨⟨value, operands⟩, htaken, h⟩ := bind_eq_ok_iff.mp h
      obtain ⟨distance, hdistance, h⟩ := bind_eq_ok_iff.mp h
      obtain rfl := Except.ok.inj h
      exact .near hparsed htaken (getD_parseDistance_eq_ok_iff.mp hdistance)
  · rintro (hparsed | hparsed | ⟨hparsed, htaken, hread⟩)
    · exact bind_eq_ok_iff.mpr ⟨_, hparsed, rfl⟩
    · exact bind_eq_ok_iff.mpr ⟨_, hparsed, rfl⟩
    · exact bind_eq_ok_iff.mpr ⟨_, hparsed, bind_eq_ok_iff.mpr ⟨_, htaken,
        bind_eq_ok_iff.mpr ⟨_, getD_parseDistance_eq_ok_iff.mpr hread, rfl⟩⟩⟩

/-! ### Outcomes -/

/-- Outcome of a run of which all queries are answered: it exits with zero, and tells of input that
    could not be read to its end. -/
def Outcome.answered (queries : Queries) (lines : List Text) : Outcome :=
  ⟨0, ended lines, if queries.broken then Job.brokenInput else []⟩

/-- A run of which all queries are answered prints the answers. -/
theorem Tool.run_of_answers {tool : Tool} {hasher : Bloom.Hasher} {args : List Text}
    {environment : Option Text} {find : Text → Except FileError Entry} {input : Bytes} {job : Job}
    {lines : List Text} (hhelp : asksForHelp args = false)
    (hjob : Job.ofArguments tool environment args = .ok job)
    (hanswers : job.answers hasher (find job.options.path)
      (Queries.asked job.operands input).texts = .ok (.ok (ended lines))) :
    tool.run hasher args environment find input
      = .answered (Queries.asked job.operands input) lines := by
  -- Neither help is asked for nor is there a fault, so that the run does its job.
  rw [Tool.run, hhelp, if_neg Bool.false_ne_true, hjob]
  simp only [Job.run, Job.queries_eq, hanswers]
  rfl

end Lexicon
