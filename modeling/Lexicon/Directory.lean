import Lexicon.Entry
import Lexicon.Error

namespace Lexicon

/-!
# A directory of files

* `Directory` — files by name, without directories below.
* `Directory.find` — what a path leads to, seen from the directory.
-/

/-- Files by name. -/
abbrev Directory := List (Text × Bytes)

namespace Directory

/-- Parts of a path between slashes. -/
def parts : Text → List Text
  | [] => [[]]
  | c :: path =>
    match parts path with
    | [] => [[c]]
    | part :: later => if c = '/' then [] :: part :: later else (c :: part) :: later

/-- Whether a part of a path leads nowhere else. -/
def isIdle (part : Text) : Bool :=
  part.isEmpty || part = ['.']

/-- Whether a part of a path leads to the directory above. -/
def isUpward (part : Text) : Bool :=
  part = ['.', '.']

/-- Where the first parts of a path have led to. -/
inductive Place where
  /-- The directory itself. -/
  | inside
  /-- A directory above, of whose names none is known. -/
  | above

/-- What the parts of a path lead to from a place on.  Nothing lies below a file, not even
    itself after a slash. -/
def follow (files : Directory) : Place → List Text → Except FileError Entry
  | _, [] => .ok .directory
  | place, part :: later =>
    if isIdle part then files.follow place later
    else if isUpward part then files.follow .above later
    else
      match place with
      | .above => .error .missing
      | .inside =>
        match files.lookup part with
        | none => .error .missing
        | some contents => if later.isEmpty then .ok (.file contents) else .error .notDirectory

/-- What a path leads to.  A path that begins with a slash begins above the directory. -/
def find (files : Directory) (path : Text) : Except FileError Entry :=
  if path.contains '\x00' then .error .nulInName
  else if path.isEmpty then .error .missing
  else files.follow (if path.head? = some '/' then .above else .inside) (parts path)

end Directory

end Lexicon
