import Lexicon.Text.Case.Table

namespace Lexicon

/-!
# Case folding

Words that differ only in case compare equal after folding.  Folding maps a character to
upper case and then to lower case, so that letters with two lower case forms, such as the
two small sigmas, meet; a mapping to several characters is left out, so that folding keeps
the characters of a word aligned.

* `CaseMap` — a pair of character mappings; every law of the library holds for any of them.
* `CaseMap.fold` — the folded form of a character.
* `CaseMap.unicode` — the mappings of Unicode.
-/

/-- Upper and lower case of characters, where a character without the other case is its own. -/
structure CaseMap where
  /-- The upper case of a character. -/
  upper : Char → Char
  /-- The lower case of a character. -/
  lower : Char → Char

/-- Lower case of the upper case. -/
def CaseMap.fold (cases : CaseMap) (c : Char) : Char :=
  cases.lower (cases.upper c)

/-- Image of a character under the first row that reaches it; other characters stay. -/
def CaseRun.move : List CaseRun → Char → Char
  | [], c => c
  | run :: runs, c =>
    if c.toNat < run.first then c
    else if run.last < c.toNat then CaseRun.move runs c
    else if (c.toNat - run.first) % run.step = 0 then Char.ofNat (c.toNat + run.shift).toNat
    else c

/-- Case mappings of Unicode. -/
def CaseMap.unicode : CaseMap where
  upper := CaseRun.move upperRuns
  lower := CaseRun.move lowerRuns

end Lexicon
