import Lexicon.Usage

namespace Lexicon

/-!
# Options among arguments

Options are taken out of an argument list one at a time; the other arguments keep their order.

* `inlineValue?` — the value in `--name=value`.
* `splitValue` — takes every occurrence of an option with a value; the last one counts.
* `splitFlag` — takes every occurrence of an option without a value.
-/

/-- What precedes an inline value: the name of the option and an equals sign. -/
def inlineStem (name : Text) : Text :=
  name ++ ['=']

/-- Value of an argument that gives an option its value inline. -/
def inlineValue? (name arg : Text) : Option Text :=
  if (inlineStem name).isPrefixOf arg then some (arg.drop (inlineStem name).length) else none

/-- Takes an option with a value out of the arguments: `name=value` in one argument, or the
    name, long or short, with the argument after it, whatever that is. -/
def splitValue (name : Text) (short : Option Text) :
    List Text → Except UsageError (Option Text × List Text)
  | [] => .ok (none, [])
  | arg :: rest =>
    match inlineValue? name arg with
    | some value => do
      let (later, others) ← splitValue name short rest
      return (later.or (some value), others)
    | none =>
      if arg = name ∨ some arg = short then
        match rest with
        | [] => .error (.missingValue arg)
        | value :: rest => do
          let (later, others) ← splitValue name short rest
          return (later.or (some value), others)
      else do
        let (later, others) ← splitValue name short rest
        return (later, arg :: others)

/-- Takes an option without a value out of the arguments, and tells whether it was there. -/
def splitFlag (flag : Text) (args : List Text) : Bool × List Text :=
  (args.contains flag, args.filter (· ≠ flag))

/-- Whether the arguments ask for help. -/
def asksForHelp (args : List Text) : Bool :=
  args.any fun arg => arg = "--help".toList ∨ arg = "-h".toList

end Lexicon
