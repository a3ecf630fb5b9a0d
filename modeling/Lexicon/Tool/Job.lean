import Lexicon.Loading
import Lexicon.Tool.Help
import Lexicon.Tool.Queries

namespace Lexicon

/-!
# Runs of the tools

Arguments make a job; a job, the file it names and the standard input make an outcome.

* `Job.ofArguments` — the job that some arguments describe.
* `Job.run` — what a job prints.
* `Tool.run` — a run from arguments to outcome.
-/

/-! ### Outcomes -/

/-- What a run leaves behind. -/
structure Outcome where
  /-- The exit code. -/
  exit : Nat
  /-- What was printed. -/
  out : Text
  /-- What was printed on the error stream. -/
  err : Text

/-- Outcome of a run that gives up. -/
def Outcome.failure (message : Text) : Outcome :=
  ⟨1, [], "error: ".toList ++ message ++ ['\n']⟩

/-- Outcome of a run that gives up over its options or its word list. -/
def Outcome.ofUsageError (e : UsageError) : Outcome :=
  failure e.message

/-! ### Jobs -/

/-- What is to be done with each query. -/
inductive QueryKind where
  /-- Tell whether it is known. -/
  | lookUp
  /-- List the words that match it. -/
  | listMatches
  /-- List the words within a distance of it. -/
  | listNear (distance : Nat)

/-- What is to be done with queries, and all else that the arguments say. -/
structure Job where
  /-- What is to be done with each query. -/
  kind : QueryKind
  /-- The choices that every tool offers. -/
  options : Options
  /-- The arguments that are no options. -/
  operands : List Text

namespace Job

/-- Names the distance. -/
def distanceName : Text := "--distance".toList

/-- Names the distance, in short. -/
def distanceShort : Text := "-n".toList

/-- Distance unless another one is asked for. -/
def defaultDistance : Nat := 1

/-- Reads a distance. -/
def parseDistance (value : Text) : Except UsageError Nat :=
  match Decimal.unsigned? value with
  | some distance => .ok distance
  | none => .error .badDistance

/-- The job that the arguments of a tool describe. -/
def ofArguments (tool : Tool) (environment : Option Text) (args : List Text) :
    Except UsageError Job :=
  match tool with
  | .search => do
    let (options, operands) ← Options.parse environment args
    return ⟨.lookUp, options, operands⟩
  | .matching => do
    let (options, operands) ← Options.parseForTree environment args
    return ⟨.listMatches, options, operands⟩
  | .near => do
    let (options, args) ← Options.parseForTree environment args
    let (distance, operands) ← splitValue distanceName (some distanceShort) args
    let distance ← (distance.map parseDistance).getD (.ok defaultDistance)
    return ⟨.listNear distance, options, operands⟩

/-- The queries of a job: its operands, or else those of the input. -/
def queries (job : Job) (input : Bytes) : Queries :=
  if job.operands.isEmpty then Queries.ofInput input else ⟨job.operands, false⟩

/-! ### Answers -/

/-- Line that tells whether a word is known. -/
def lookUpLine (word : Text) (known : Bool) : Text :=
  (if known then "Y: ".toList else "N: ".toList) ++ word ++ ['\n']

/-- Message about a dictionary that fails at a word. -/
def lookUpFailure (word : Text) (e : DictionaryError) : Text :=
  "search failed for ".toList ++ quoted word ++ ": ".toList ++ e.message

/-- Lines of a look-up of each query, or the message of the first failure. -/
def lookUpAll (dictionary : Dictionary) : List Text → Except Text Text
  | [] => .ok []
  | word :: rest =>
    match dictionary.search word with
    | (.error e, _) => .error (lookUpFailure word e)
    | (.ok known, dictionary) => (lookUpAll dictionary rest).map (lookUpLine word known ++ ·)

/-- Lines that list what was found for a query. -/
def foundLines (query : Text) (found : List Word) : Text :=
  if found.isEmpty then query ++ ": (no matches)\n".toList
  else query ++ ":\n".toList ++ found.flatMap fun word => "  ".toList ++ word ++ ['\n']

/-- Lines that list what a search finds for each query, or the message of the first failure. -/
def listAll (search : Text → Except DictionaryError (List Word)) : List Text → Except Text Text
  | [] => .ok []
  | query :: rest =>
    match search query with
    | .error e => .error e.message
    | .ok found => (listAll search rest).map (foundLines query found ++ ·)

/-- The lines of a job, for what its path leads to and its queries. -/
def answers (job : Job) (hasher : Bloom.Hasher) (found : Except FileError Entry)
    (queries : List Text) : Except UsageError (Except Text Text) :=
  match job.kind with
  | .lookUp =>
    (job.options.dictionaryOf hasher found).map fun dictionary => lookUpAll dictionary queries
  | .listMatches =>
    (job.options.treeOf found).map fun tree => listAll tree.matching queries
  | .listNear distance =>
    (job.options.treeOf found).map fun tree => listAll (tree.near · distance) queries

/-- Message about input that is not UTF-8. -/
def brokenInput : Text :=
  "error reading stdin: stream did not contain valid UTF-8\n".toList

/-- What a job prints, for what its path leads to and the standard input. -/
def run (job : Job) (hasher : Bloom.Hasher) (found : Except FileError Entry) (input : Bytes) :
    Outcome :=
  let queries := job.queries input
  match job.answers hasher found queries.texts with
  | .error e => .ofUsageError e
  | .ok (.error message) => .failure message
  | .ok (.ok lines) => ⟨0, lines, if queries.broken then brokenInput else []⟩

end Job

/-- A run of a tool with the given hashes, arguments, environment, files and standard input. -/
def Tool.run (tool : Tool) (hasher : Bloom.Hasher) (args : List Text) (environment : Option Text)
    (find : Text → Except FileError Entry) (input : Bytes) : Outcome :=
  if asksForHelp args then ⟨0, tool.help, []⟩
  else
    match Job.ofArguments tool environment args with
    | .error e => .ofUsageError e
    | .ok job => job.run hasher (find job.options.path) input

end Lexicon
