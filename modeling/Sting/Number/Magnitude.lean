/-!
# Magnitudes of doubles

The non-negative doubles are numbered by their bit patterns: code `0` is zero, each next code is the
next larger double, and `infinity` closes the list. Every finite magnitude is a whole number of
units of `2 ^ -1074`, so comparing, taking remainders and rounding need only natural numbers.
-/

namespace Sting.Magnitude

/-- Units in one: a magnitude of `n` units is the number `n / unitsPerOne`. -/
def unitsPerOne : Nat :=
  Nat.pow 2 1074

/-- Codes with the same spacing come in blocks of this length. -/
def blockLength : Nat :=
  Nat.pow 2 52

/-- The code of infinity; the smaller codes are the finite magnitudes. -/
def infinity : Nat :=
  2047 * blockLength

/-- The size of a finite code in units: the first block holds the subnormals, which are their own
size, and from the second block on each block has twice the spacing of the one before. -/
def units (code : Nat) : Nat :=
  if code < blockLength then code
  else (blockLength + code % blockLength) * Nat.pow 2 (code / blockLength - 1)

/-- The whole number nearest to `num / den`, a half going to the even neighbour. -/
def roundHalfEven (num den : Nat) : Nat :=
  let low := num / den
  let twice := 2 * (num % den)
  if twice < den || (twice == den && low % 2 == 0) then low else low + 1

/-- The code nearest to `num / den`, a half going to the even code. The spacing is `2 ^ k` units,
with the least `k` that leaves a mantissa below `2 ^ 53`. -/
def nearest (num den : Nat) : Nat :=
  let k := (num * unitsPerOne / den).log2 - 52
  min (k * blockLength + roundHalfEven (num * unitsPerOne) (den * Nat.pow 2 k)) infinity

/-- A whole quotient needs no rounding. -/
theorem roundHalfEven_mul (n : Nat) {den : Nat} (h : 0 < den) :
    roundHalfEven (n * den) den = n := by
  simp [roundHalfEven, Nat.mul_div_cancel _ h, h]

end Sting.Magnitude
