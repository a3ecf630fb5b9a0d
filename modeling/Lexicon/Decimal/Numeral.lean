import Lexicon.Text.Basic

namespace Lexicon.Decimal

/-!
# Reading whole numbers

Numbers given as option values: an optional sign, then ASCII digits and nothing else, within
the range of a machine integer.

* `signed?` — a 32-bit number, of either sign.
* `unsigned?` — a 64-bit count; a minus sign is refused even before zero.
-/

/-- Value of an ASCII digit. -/
def digit? (c : Char) : Option Nat :=
  if '0' ≤ c ∧ c ≤ '9' then some (c.toNat - '0'.toNat) else none

/-- Value of a text of one or more digits. -/
def digits? : Text → Option Nat
  | [] => none
  | text => text.foldlM (fun value c => (digit? c).map (value * 10 + ·)) 0

/-- The greatest number that fits in 64 bits. -/
def greatestCount : Nat := 0xFFFFFFFFFFFFFFFF

/-- Keeps a number that lies between two bounds. -/
def within? (least greatest value : Int) : Option Int :=
  if least ≤ value ∧ value ≤ greatest then some value else none

/-- Reads a signed 32-bit number. -/
def signed? (text : Text) : Option Int :=
  let value : Option Int :=
    match text with
    | '+' :: rest => (digits? rest).map Int.ofNat
    | '-' :: rest => (digits? rest).map fun n => -Int.ofNat n
    | _ => (digits? text).map Int.ofNat
  value.bind (within? (-0x80000000) 0x7FFFFFFF)

/-- Reads an unsigned 64-bit number. -/
def unsigned? (text : Text) : Option Nat :=
  let value : Option Nat :=
    match text with
    | '+' :: rest => digits? rest
    | _ => digits? text
  value.bind fun n => if n ≤ greatestCount then some n else none

end Lexicon.Decimal
