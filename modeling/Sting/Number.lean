import Sting.Number.Decimal

/-!
# Numbers

Numbers are doubles. This module reads their bits as a sign and a magnitude, writes them, reads
literals and takes remainders; sums, products, quotients, powers and order are those of `Float`.
-/

namespace Sting.Number

/-- The weight of the bit that holds the sign. -/
def signWeight : Nat :=
  Nat.pow 2 63

/-- The sign bit is set. -/
def isNegative (x : Float) : Bool :=
  signWeight ≤ x.toBits.toNat

/-- The bits without the sign, as a code of `Magnitude`. The codes above infinity are not
numbers. -/
def magnitude (x : Float) : Nat :=
  x.toBits.toNat % signWeight

/-- The double with this sign and magnitude. -/
def ofMagnitude (negative : Bool) (code : Nat) : Float :=
  Float.ofBits (UInt64.ofNat (if negative then signWeight + code else code))

/-- Neither an infinity nor NaN. -/
def isFinite (x : Float) : Bool :=
  magnitude x < Magnitude.infinity

/-- Neither of the two zeros. -/
def isNonzero (x : Float) : Bool :=
  magnitude x != 0

/-- The text of a number: the shortest decimal that reads back, always positional. Both zeros are
written alike. -/
def render (x : Float) : String :=
  let code := magnitude x
  let sign := if isNegative x then "-" else ""
  if code = 0 then "0"
  else if code < Magnitude.infinity then sign ++ (Decimal.shortest code).render
  else if code = Magnitude.infinity then sign ++ "inf"
  else "NaN"

/-- The number that a literal stands for: ASCII digits, with a fraction of at least one digit if a
point follows. Any other text is no literal. -/
def ofLiteral? (text : List Char) : Option Float :=
  let whole := text.takeWhile Char.isDigit
  let rest := text.dropWhile Char.isDigit
  match whole, rest with
  | [], _ => none
  | _, [] => some (ofMagnitude false (Decimal.ofDigits whole []).nearest)
  | _, '.' :: fraction =>
    if !fraction.isEmpty && fraction.all Char.isDigit then
      some (ofMagnitude false (Decimal.ofDigits whole fraction).nearest)
    else none
  | _, _ => none

/-- The remainder of the division that truncates, exact and with the sign of the dividend. It is not
a number for an infinite dividend or a zero divisor, and an infinite divisor leaves the dividend. -/
def rem (x y : Float) : Float :=
  let a := magnitude x
  let b := magnitude y
  if Magnitude.infinity ≤ a || Magnitude.infinity < b || b == 0 then 0 / 0
  else if b == Magnitude.infinity then x
  else
    let units := Magnitude.units a % Magnitude.units b
    ofMagnitude (isNegative x) (Magnitude.nearest units Magnitude.unitsPerOne)

end Sting.Number
