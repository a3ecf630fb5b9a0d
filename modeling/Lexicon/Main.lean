import Lexicon.Tool.Job

namespace Lexicon

/-!
# Command line

The tools as one program: the first argument names the tool, `search`, `partial` or `near`,
and the others are its own.
-/

/-- Text for the terminal. -/
def terminalString (text : Text) : String :=
  String.ofList text

/-- Tool of a given name. -/
def Tool.ofName? : String → Option Tool
  | "search" => some .search
  | "partial" => some .matching
  | "near" => some .near
  | _ => none

/-- What a path leads to when no file could be read there. -/
def Entry.ofFailure : IO.Error → Except FileError Entry
  | .inappropriateType _ 21 _ => .ok .directory
  | .noFileOrDirectory .. => .error .missing
  | .inappropriateType .. => .error .notDirectory
  | e => .error (.other (toString e).toList)

/-- Finds what a path leads to, and reads it if it is a file. -/
def findEntry (path : Text) : IO (Except FileError Entry) := do
  if path.contains '\x00' then
    return .error .nulInName
  try
    let contents ← IO.FS.readBinFile (String.ofList path)
    return .ok (.file contents.toList)
  catch e =>
    return Entry.ofFailure e

/-- Reads a stream to its end. -/
partial def readStream (stream : IO.FS.Stream) (read : ByteArray) : IO ByteArray := do
  let piece ← stream.read 65536
  if piece.isEmpty then
    return read
  readStream stream (read ++ piece)

/-- Prints an outcome and gives its exit code. -/
def Outcome.print (outcome : Outcome) : IO UInt32 := do
  IO.print (terminalString outcome.out)
  IO.eprint (terminalString outcome.err)
  return UInt32.ofNat outcome.exit

/-- Runs a job on the file that it names and, without operands, on standard input. -/
def Job.perform (job : Job) : IO UInt32 := do
  let found ← findEntry job.options.path
  let input ←
    if job.operands.isEmpty then readStream (← IO.getStdin) .empty else pure .empty
  (job.run .ofBytes found input.toList).print

/-- Runs a tool with its own arguments. -/
def Tool.perform (tool : Tool) (args : List Text) : IO UInt32 := do
  if asksForHelp args then
    return ← (Outcome.mk 0 tool.help []).print
  let environment ← IO.getEnv (terminalString wordListVariable)
  match Job.ofArguments tool (environment.map String.toList) args with
  | .error e => (Outcome.ofUsageError e).print
  | .ok job => job.perform

end Lexicon

/-- Runs the tool that the first argument names. -/
def main (args : List String) : IO UInt32 := do
  match args with
  | name :: rest =>
    match Lexicon.Tool.ofName? name with
    | some tool => tool.perform (rest.map String.toList)
    | none => (Lexicon.Outcome.failure ("no tool is named ".toList ++ name.toList)).print
  | [] => (Lexicon.Outcome.failure "name a tool: search, partial or near".toList).print
