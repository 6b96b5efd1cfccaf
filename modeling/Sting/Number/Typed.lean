import Sting.Number
import Sting.Text.Blank

/-!
# Typed numbers

How a line typed by the user becomes a number. A text with a point is a decimal with an optional
exponent; a text without one is a whole number of 64 bits.
-/

namespace Sting.Number

/-- Takes a sign off the head of a text; the flag tells whether it was a minus. -/
def takeSign : List Char → Bool × List Char
  | '-' :: rest => (true, rest)
  | '+' :: rest => (false, rest)
  | text => (false, text)

/-- The value of an exponent. Once it is beyond the range of every double, more digits change
nothing. -/
def exponentValue (digits : List Char) : Nat :=
  digits.foldl (fun n c => if n < 65536 then 10 * n + (c.toNat - '0'.toNat) else n) 0

/-- The exponent that a text spells after its significand, empty for none. -/
def exponent? : List Char → Option Int
  | [] => some 0
  | e :: rest =>
    let (negative, digits) := takeSign rest
    if (e == 'e' || e == 'E') && !digits.isEmpty && digits.all Char.isDigit then
      let value : Int := exponentValue digits
      some (if negative then -value else value)
    else none

/-- A decimal with a point, at least one digit and an optional exponent. -/
def ofPointed? (text : List Char) : Option Float := do
  let (negative, body) := takeSign text
  let whole := body.takeWhile Char.isDigit
  match body.dropWhile Char.isDigit with
  | '.' :: rest =>
    let fraction := rest.takeWhile Char.isDigit
    let exponent ← exponent? (rest.dropWhile Char.isDigit)
    if whole.isEmpty && fraction.isEmpty then none
    else
      let d := Decimal.ofDigits whole fraction
      let num := d.significand * Decimal.powerOfTen exponent.toNat
      let den := Decimal.powerOfTen (d.places + (-exponent).toNat)
      some (ofMagnitude negative (Magnitude.nearest num den))
  | _ => none

/-- Whole numbers are below this bound and not below its negation. -/
def wholeBound : Nat :=
  Nat.pow 2 63

/-- A whole number between `-2 ^ 63` and `2 ^ 63 - 1`, rounded to the nearest double. There is no
negative zero among the whole numbers. -/
def ofWhole? (text : List Char) : Option Float :=
  let (negative, digits) := takeSign text
  let value := Decimal.digitsValue digits
  if digits.isEmpty || !digits.all Char.isDigit then none
  else if value < wholeBound || (negative && value == wholeBound) then
    some (ofMagnitude (negative && value != 0) (Magnitude.nearest value 1))
  else none

/-- The number typed on a line, blanks around it ignored. -/
def ofTyped? (line : String) : Option Float :=
  let text := Text.trim line.toList
  if text.contains '.' then ofPointed? text else ofWhole? text

end Sting.Number
