import Sting.Number.Magnitude

/-!
# Decimals

Positional decimals, the double nearest to one, and the shortest decimal that reads back as a given
double.
-/

namespace Sting

/-- The number `significand / 10 ^ places`. -/
structure Decimal where
  /-- All digits, read as one whole number. -/
  significand : Nat
  /-- How many of the digits stand behind the point. -/
  places : Nat
deriving DecidableEq, Repr

namespace Decimal

/-- The value of a text of ASCII digits. -/
def digitsValue (digits : List Char) : Nat :=
  digits.foldl (fun n c => 10 * n + (c.toNat - '0'.toNat)) 0

/-- The decimal written with these digits before and behind the point. -/
def ofDigits (whole fraction : List Char) : Decimal :=
  ⟨digitsValue (whole ++ fraction), fraction.length⟩

/-- One and `n` zeros. -/
def powerOfTen (n : Nat) : Nat :=
  Nat.pow 10 n

/-- The code of the double nearest to a decimal. -/
def nearest (d : Decimal) : Nat :=
  Magnitude.nearest d.significand (powerOfTen d.places)

/-- The digits before and behind the point, with at least one digit before it. -/
def split (d : Decimal) : List Char × List Char :=
  let digits := Nat.toDigits 10 d.significand
  let padded := List.replicate (d.places + 1 - digits.length) '0' ++ digits
  padded.splitAt (padded.length - d.places)

/-- Positional text; a decimal without places has no point. -/
def render (d : Decimal) : String :=
  let (whole, fraction) := d.split
  String.ofList (if d.places = 0 then whole else whole ++ '.' :: fraction)

/-! ## The shortest decimal -/

/-- The finest grid that is written without a fraction. -/
def wholeGrid : Nat := 309

/-- The `n`-th point of a decimal grid. Each grid is ten times finer than the one before, and
`wholeGrid` has the spacing one. -/
def onGrid (grid n : Nat) : Decimal :=
  ⟨n * powerOfTen (wholeGrid - grid), grid - wholeGrid⟩

/-- The index of the last grid point that is not above a magnitude. -/
def gridFloor (code grid : Nat) : Nat :=
  Magnitude.units code * powerOfTen (grid - wholeGrid) /
    (Magnitude.unitsPerOne * powerOfTen (wholeGrid - grid))

/-- A magnitude lies in the lower half of its grid cell. -/
def inLowerHalf (code grid : Nat) : Bool :=
  2 * Magnitude.units code * powerOfTen (grid - wholeGrid) <
    (2 * gridFloor code grid + 1) * (Magnitude.unitsPerOne * powerOfTen (wholeGrid - grid))

/-- Of the two grid points around a magnitude, the one that reads back as it. If both do, the closer
one is taken, and the upper one from the middle. -/
def onGrid? (code grid : Nat) : Option Decimal :=
  let low := onGrid grid (gridFloor code grid)
  let high := onGrid grid (gridFloor code grid + 1)
  let order := if inLowerHalf code grid then [low, high] else [high, low]
  order.find? fun d => d.nearest == code

/-- A magnitude written out in full. -/
def exact (code : Nat) : Decimal :=
  ⟨Magnitude.units code * Nat.pow 5 1074, 1074⟩

/-- The first of `count` grids with a point that reads back, or the full decimal. -/
def search (code : Nat) : (count grid : Nat) → Decimal
  | 0, _ => exact code
  | count + 1, grid =>
    match onGrid? code grid with
    | some d => d
    | none => search code count (grid + 1)

/-- A grid whose spacing exceeds a magnitude: the power of ten with as many zeros as the whole part
has digits. -/
def firstGrid (code : Nat) : Nat :=
  wholeGrid - (Nat.toDigits 10 (Magnitude.units code / Magnitude.unitsPerOne)).length

/-- The decimal of fewest digits that reads back as a finite magnitude. Seventeen digits always
suffice, and the smallest magnitude has 323 zeros before its first digit. -/
def shortest (code : Nat) : Decimal :=
  search code 345 (firstGrid code)

/-- A grid point that is offered reads back. -/
theorem nearest_of_onGrid?_eq_some {code grid : Nat} {d : Decimal}
    (h : onGrid? code grid = some d) : d.nearest = code := by
  simpa using List.find?_some h

end Decimal

end Sting
