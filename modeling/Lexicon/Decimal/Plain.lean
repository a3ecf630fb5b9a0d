import Lexicon.Decimal.Shortest
import Lexicon.Text.Basic

namespace Lexicon.Decimal

/-!
# Decimals in messages

Numbers in messages are written in full: no exponent, no point after a whole number.

* `natural`, `integer` — the digits of a whole number.
* `plain` — a floating point number by its shortest decimal.
-/

/-- Decimal digits of a natural number. -/
def natural (n : Nat) : Text :=
  Nat.toDigits 10 n

/-- Decimal digits of an integer, after a minus sign if it is negative. -/
def integer : Int → Text
  | .ofNat n => natural n
  | .negSucc n => '-' :: natural (n + 1)

/-- Writes a decimal positionally, with at least one digit before the point. -/
def Scaled.layout (d : Scaled) : Text :=
  let digits := natural d.digits
  if 0 ≤ d.exponent then
    digits ++ List.replicate d.exponent.toNat '0'
  else
    let places := (-d.exponent).toNat
    let padded := List.replicate (places + 1 - digits.length) '0' ++ digits
    padded.take (padded.length - places) ++ '.' :: padded.drop (padded.length - places)

/-- Binary value of a double without its sign, from the fields of its bit pattern. -/
def Binary.ofFields (exponent fraction : Nat) : Binary :=
  if exponent = 0 then ⟨fraction, leastExponent⟩
  else ⟨leadingBit + fraction, leastExponent + (exponent - 1 : Nat)⟩

/-- Writes a double with the fewest digits that read back, and zero with its sign. -/
def plain (x : Float) : Text :=
  let bits := x.toBits.toNat
  let exponent := bits / leadingBit % 0x800
  let fraction := bits % leadingBit
  let sign : Text := if 0x8000000000000000 ≤ bits then ['-'] else []
  if exponent = 2047 then
    if fraction = 0 then sign ++ "inf".toList else "NaN".toList
  else if exponent = 0 ∧ fraction = 0 then
    sign ++ ['0']
  else
    sign ++ (shortest (Binary.ofFields exponent fraction)).layout

end Lexicon.Decimal
