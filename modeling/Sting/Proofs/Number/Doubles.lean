import Mathlib
import Sting.Number

/-!
# Doubles and their decimals

A quotient that is the exact size of a magnitude is rounded to that magnitude. So the full decimal
of a magnitude reads back as it, and with it the shortest one, wherever the search for it ends. The
sign of a double is a bit apart from its magnitude: negation turns it, the absolute value is without
it, and the numbers below zero are those that have it, one of the zeros apart.
-/

namespace Sting

namespace Magnitude

/-! ## Sizes that need no rounding -/

/-- The leading bit of a mantissa of full length, shifted. -/
theorem log2_mul_two_pow {mantissa : Nat} (hle : 2 ^ 52 ≤ mantissa) (hlt : mantissa < 2 ^ 53)
    (k : Nat) : (mantissa * 2 ^ k).log2 = 52 + k := by
  have hpos : 0 < 2 ^ k := Nat.two_pow_pos k
  have hne : mantissa * 2 ^ k ≠ 0 := (Nat.mul_pos (by omega) hpos).ne'
  have hsucc : 52 + k + 1 = 53 + k := by omega
  rw [Nat.log2_eq_iff hne, hsucc, Nat.pow_add, Nat.pow_add]
  exact ⟨Nat.mul_le_mul_right _ hle, Nat.mul_lt_mul_of_pos_right hlt hpos⟩

/-- The size of a code is a multiple of the spacing around it, and the leading bit of the size tells
that spacing. -/
theorem exists_units_eq (code : Nat) :
    ∃ mantissa, units code = mantissa * 2 ^ ((units code).log2 - 52) ∧
      code = ((units code).log2 - 52) * blockLength + mantissa := by
  have hblock : blockLength = 2 ^ 52 := rfl
  by_cases h : code < blockLength
  · have hunits : units code = code := if_pos h
    have hlog : code.log2 - 52 = 0 := by
      by_cases hzero : code = 0
      · rw [hzero]
        rfl
      · have := (Nat.log2_lt hzero).mpr (hblock ▸ h)
        omega
    exact ⟨code, by simp [hunits, hlog]⟩
  · have hunits : units code = (blockLength + code % blockLength) * 2 ^ (code / blockLength - 1) :=
      if_neg h
    have hmod : code % blockLength < blockLength := Nat.mod_lt _ (by omega)
    have hlog : (units code).log2 - 52 = code / blockLength - 1 := by
      rw [hunits, log2_mul_two_pow (by omega) (by omega)]
      omega
    refine ⟨blockLength + code % blockLength, by rw [hlog, hunits], ?_⟩
    have hdiv : 0 < code / blockLength := Nat.div_pos (by omega) (by omega)
    have hcode := Nat.div_add_mod' code blockLength
    have hle := Nat.le_mul_of_pos_left blockLength hdiv
    rw [hlog, Nat.sub_mul, Nat.one_mul]
    omega

/-- A quotient of the exact size of a code is rounded to that code. -/
theorem nearest_of_eq {num den code : Nat} (hden : 0 < den) (hcode : code < infinity)
    (h : num * unitsPerOne = units code * den) : nearest num den = code := by
  obtain ⟨mantissa, hunits, hmantissa⟩ := exists_units_eq code
  have hspacing : 0 < den * 2 ^ ((units code).log2 - 52) := Nat.mul_pos hden (Nat.two_pow_pos _)
  have hquotient : num * unitsPerOne / den = units code := by
    rw [h, Nat.mul_div_cancel _ hden]
  have hproduct : num * unitsPerOne = mantissa * (den * 2 ^ ((units code).log2 - 52)) := by
    rw [h, Nat.mul_left_comm, ← hunits, Nat.mul_comm]
  calc nearest num den
      = min (((units code).log2 - 52) * blockLength +
          roundHalfEven (num * unitsPerOne) (den * 2 ^ ((units code).log2 - 52))) infinity := by
        rw [nearest, hquotient]
        rfl
    _ = min code infinity := by rw [hproduct, roundHalfEven_mul _ hspacing, ← hmantissa]
    _ = code := Nat.min_eq_left hcode.le

end Magnitude

namespace Decimal

/-! ## Decimals that read back -/

/-- Powers of ten are positive. -/
theorem powerOfTen_pos (n : Nat) : 0 < powerOfTen n :=
  Nat.pow_pos (by decide)

/-- A power of ten is one of five and one of two. -/
theorem powerOfTen_eq (n : Nat) : powerOfTen n = Nat.pow 5 n * Nat.pow 2 n := by
  rw [powerOfTen, Nat.pow_eq, Nat.pow_eq, Nat.pow_eq, ← Nat.mul_pow]

/-- One has as many halvings as a full decimal has places. The number itself stays out of the
proofs, which would else be tempted to compute the power. -/
theorem exists_places : ∃ n, Magnitude.unitsPerOne = Nat.pow 2 n ∧
    ∀ code, exact code = ⟨Magnitude.units code * Nat.pow 5 n, n⟩ := by
  refine ⟨1074, ?_, fun _ => rfl⟩
  unfold Magnitude.unitsPerOne
  exact Eq.refl _

/-- Tens are fives and twos, so the full decimal has the exact size. -/
theorem nearest_exact {code : Nat} (h : code < Magnitude.infinity) :
    (exact code).nearest = code := by
  obtain ⟨n, hone, hexact⟩ := exists_places
  rw [hexact]
  refine Magnitude.nearest_of_eq (powerOfTen_pos n) h ?_
  rw [hone, powerOfTen_eq, Nat.mul_assoc]

section Search

-- The equations of the search hold by definition, without a look into its tests.
attribute [local irreducible] onGrid?

/-- Without any grid left to try, the decimal is exact. -/
theorem search_zero (code grid : Nat) : search code 0 grid = exact code := by
  rfl

/-- A grid is taken if the decimal on it rounds back, and the next one is tried otherwise. -/
theorem search_succ (code count grid : Nat) :
    search code (count + 1) grid =
      match onGrid? code grid with
      | some d => d
      | none => search code count (grid + 1) := by
  rfl

end Search

/-- Whatever the search ends with reads back. -/
theorem nearest_search {code : Nat} (h : code < Magnitude.infinity) (count grid : Nat) :
    (search code count grid).nearest = code := by
  induction count generalizing grid with
  | zero =>
      rw [search_zero]
      exact nearest_exact h
  | succ count ih =>
      rw [search_succ]
      split
      · rename_i hd
        exact nearest_of_onGrid?_eq_some hd
      · exact ih (grid + 1)

/-- The shortest decimal of a magnitude rounds back to it. -/
theorem nearest_shortest {code : Nat} (h : code < Magnitude.infinity) :
    (shortest code).nearest = code := by
  rw [shortest]
  exact nearest_search h 345 (firstGrid code)

end Decimal

namespace Number

open Float.Model (UnpackedFloat)
open Float.Model.UnpackedFloat

/-! ## Signs -/

/-- Sign and magnitude make up a double. -/
theorem ofMagnitude_magnitude (x : Float) : ofMagnitude (isNegative x) (magnitude x) = x := by
  have hbits := x.toBits.toNat_lt
  have hsign : signWeight = 2 ^ 63 := rfl
  have hsum : (if isNegative x then signWeight + magnitude x else magnitude x) =
      x.toBits.toNat := by
    simp only [isNegative, magnitude, hsign, decide_eq_true_eq]
    split <;> omega
  rw [ofMagnitude, hsum, UInt64.ofNat_toNat, Float.ofBits_toBits]

/-- How the sign bit is read. -/
def signOf (negative : Bool) : Sign :=
  if negative then .negative else .positive

/-- The same number with this sign. -/
def signed (s : Sign) : UnpackedFloat → UnpackedFloat
  | .notANumber => .notANumber
  | .infinity _ => .infinity s
  | .zero _ => .zero s
  | .finite _ mantissa exponent h => .finite s mantissa exponent h

/-- What the bits of a magnitude stand for: the block is the exponent, the place in the block the
mantissa. -/
def unpacked (code : Nat) : UnpackedFloat :=
  unpack .binary64 (packComponents .binary64 .positive (BitVec.ofNat 11 (code / 2 ^ 52))
    (BitVec.ofNat 52 code))

/-- Negation turns the sign. -/
theorem neg_signed (s : Sign) (u : UnpackedFloat) : (signed s u).neg = signed (-s) u := by
  cases u <;> rfl

/-- The absolute value drops the sign. -/
theorem abs_signed (s : Sign) (u : UnpackedFloat) : (signed s u).abs = signed .positive u := by
  cases u <;> rfl

/-- Below zero is what has a minus and is neither NaN nor a zero. -/
theorem signed_lt_zero_iff (s : Sign) (u : UnpackedFloat) :
    (signed s u).lt (.zero .positive) = true ↔
      s = .negative ∧ u ≠ .notANumber ∧ ∀ t, u ≠ .zero t := by
  cases u <;> cases s <;> simp [signed, UnpackedFloat.lt, UnpackedFloat.compare]

/-- The sign bit only decides the sign. -/
theorem unpack_packComponents (s : Sign) (e : BitVec 11) (m : BitVec 52) :
    unpack .binary64 (packComponents .binary64 s e m) =
      signed s (unpack .binary64 (packComponents .binary64 .positive e m)) := by
  simp only [unpack, unpackMantissa_packComponents, unpackExponent_packComponents,
    unpackSign_packComponents, Sign.ofBitVec_toBitVec]
  split
  · split <;> rfl
  · split
    · split <;> rfl
    · rfl

/-- The exponent bits of a code hold its block. -/
theorem toNat_block {code : Nat} (h : code < signWeight) :
    (BitVec.ofNat 11 (code / 2 ^ 52)).toNat = code / 2 ^ 52 := by
  have hsign : signWeight = 2 ^ 63 := rfl
  rw [BitVec.toNat_ofNat, Nat.mod_eq_of_lt (by omega)]

/-- Infinity and what is not a number fill the last block. -/
theorem unpacked_ne_notANumber {code : Nat} (h : code < Magnitude.infinity) :
    unpacked code ≠ .notANumber := by
  have hinfinity : Magnitude.infinity = 2047 * 2 ^ 52 := rfl
  have hsign : signWeight = 2 ^ 63 := rfl
  have hblock : BitVec.ofNat 11 (code / 2 ^ 52) ≠ -1#11 := by
    intro hlast
    have hnat := toNat_block (show code < signWeight by omega)
    rw [hlast] at hnat
    have hones : (-1#11 : BitVec 11).toNat = 2047 := rfl
    omega
  simp only [unpacked, unpack, unpackExponent_packComponents, if_neg hblock]
  split
  · split <;> nofun
  · nofun

/-- Zero is the only code of a zero. -/
theorem unpacked_ne_zero {code : Nat} (hpos : code ≠ 0) (h : code < signWeight) (s : Sign) :
    unpacked code ≠ .zero s := by
  have hparts : BitVec.ofNat 11 (code / 2 ^ 52) = 0#11 → BitVec.ofNat 52 code ≠ 0#52 := by
    intro hblock hplace
    have hblock' := toNat_block h
    have hplace' := congrArg BitVec.toNat hplace
    rw [hblock] at hblock'
    simp only [BitVec.toNat_ofNat] at hblock' hplace'
    omega
  simp only [unpacked, unpack, unpackExponent_packComponents, unpackMantissa_packComponents]
  split
  · split <;> nofun
  · split
    · rename_i hblock
      rw [dif_neg (hparts hblock)]
      nofun
    · nofun

/-- The sign bit, the block and the place in the block make up the bits of a double. -/
theorem toBitVec_ofNat {code : Nat} (h : code < signWeight) (negative : Bool) :
    (UInt64.ofNat (if negative then signWeight + code else code)).toBitVec =
      packComponents .binary64 (signOf negative) (BitVec.ofNat 11 (code / 2 ^ 52))
        (BitVec.ofNat 52 code) := by
  have hblock := toNat_block h
  have hsign : signWeight = 2 ^ 63 := rfl
  rw [hsign] at h ⊢
  apply BitVec.eq_of_toNat_eq
  rw [packComponents, BitVec.toNat_append, BitVec.toNat_append,
    ← Nat.shiftLeft_add_eq_or_of_lt (BitVec.isLt _),
    ← Nat.shiftLeft_add_eq_or_of_lt (BitVec.isLt _), hblock]
  simp only [Nat.shiftLeft_eq, UInt64.toBitVec_ofNat', BitVec.toNat_ofNat]
  cases negative with
  | false =>
      simp only [signOf, Sign.toBitVec, Bool.false_eq_true, if_false, BitVec.toNat_ofNat]
      omega
  | true =>
      simp only [signOf, Sign.toBitVec, if_true, BitVec.toNat_ofNat]
      omega

/-- What a code with a sign bit stands for. -/
theorem unpack_ofNat {code : Nat} (h : code < signWeight) (negative : Bool) :
    unpack .binary64 (UInt64.ofNat (if negative then signWeight + code else code)).toBitVec =
      signed (signOf negative) (unpacked code) := by
  rw [toBitVec_ofNat h, unpack_packComponents]
  rfl

/-- Packing forgets nothing but the payload of what is not a number. -/
theorem unpack_pack_unpack (bits : BitVec 64) :
    unpack .binary64 (pack .binary64 (unpack .binary64 bits)) = unpack .binary64 bits := by
  rw [pack_unpack]
  split
  · rename_i hnan
    obtain ⟨hexponent, hmantissa⟩ := of_decide_eq_true hnan
    rw [unpack_packedNaN, unpack, if_pos hexponent, if_neg hmantissa]
  · rfl

/-- The double of a magnitude and a sign stands for the two of them. -/
theorem unpack_ofMagnitude {code : Nat} (h : code < signWeight) (negative : Bool) :
    (ofMagnitude negative code).toModel.unpack = signed (signOf negative) (unpacked code) :=
  (unpack_pack_unpack _).trans (unpack_ofNat h negative)

/-- Packing what a code stands for gives the double of this code back. -/
theorem pack_signed {code : Nat} (h : code < signWeight) (negative : Bool) :
    Float.ofModel (Float.Model.pack (signed (signOf negative) (unpacked code))) =
      ofMagnitude negative code := by
  rw [← unpack_ofNat h]
  rfl

/-- The negative of a magnitude. -/
theorem neg_ofMagnitude {code : Nat} (h : code < signWeight) :
    -ofMagnitude false code = ofMagnitude true code := by
  have hneg : (ofMagnitude false code).toModel.unpack.neg =
      signed (signOf true) (unpacked code) := by
    rw [unpack_ofMagnitude h, neg_signed]
    rfl
  rw [← pack_signed h true, ← hneg]
  rfl

/-- A magnitude leaves the sign bit free. -/
theorem magnitude_lt (x : Float) : magnitude x < signWeight :=
  Nat.mod_lt _ (by decide)

/-- What a double stands for, by its sign and its magnitude. -/
theorem unpack_toModel (x : Float) :
    x.toModel.unpack = signed (signOf (isNegative x)) (unpacked (magnitude x)) := by
  rw [← unpack_ofMagnitude (magnitude_lt x), ofMagnitude_magnitude]

/-- The magnitude of a double is its absolute value. -/
theorem abs_eq (x : Float) : x.abs = ofMagnitude false (magnitude x) := by
  have habs : x.toModel.unpack.abs = signed (signOf false) (unpacked (magnitude x)) := by
    rw [unpack_toModel, abs_signed]
    rfl
  rw [← pack_signed (magnitude_lt x) false, ← habs]
  rfl

/-- A negative double is the negation of its absolute value. -/
theorem neg_abs {x : Float} (h : isNegative x = true) : -x.abs = x := by
  rw [abs_eq, neg_ofMagnitude (magnitude_lt x), ← h, ofMagnitude_magnitude]

/-- Any other double is its own absolute value. -/
theorem abs_eq_self {x : Float} (h : ¬ isNegative x = true) : x.abs = x := by
  rw [abs_eq, ← Bool.eq_false_of_not_eq_true h, ofMagnitude_magnitude]

/-- The zero of the language is the positive one. -/
theorem zero_eq : (0 : Float) = ofMagnitude false 0 := by
  decide +kernel

/-- What this zero stands for. -/
theorem unpack_zero : (0 : Float).toModel.unpack = .zero .positive := by
  rw [zero_eq, unpack_ofMagnitude (by decide)]
  rfl

/-- The numbers below zero have the sign bit set. So has one of the zeros, which is not below the
other. -/
theorem lt_zero_iff {x : Float} (h : isFinite x = true) :
    x < 0 ↔ isNegative x = true ∧ isNonzero x = true := by
  have hnumber := unpacked_ne_notANumber (of_decide_eq_true h)
  have hlt : x < 0 ↔ x.toModel.unpack.lt (0 : Float).toModel.unpack = true :=
    decide_eq_true_iff
  rw [hlt, unpack_zero, unpack_toModel, signed_lt_zero_iff, isNonzero, bne_iff_ne]
  constructor
  · rintro ⟨hnegative, -, hzero⟩
    refine ⟨?_, ?_⟩
    · by_contra hpositive
      rw [signOf, if_neg hpositive] at hnegative
      cases hnegative
    · intro hmagnitude
      rw [hmagnitude] at hzero
      exact hzero .positive rfl
  · rintro ⟨hnegative, hnonzero⟩
    exact ⟨if_pos hnegative, hnumber, unpacked_ne_zero hnonzero (magnitude_lt x)⟩

end Number

end Sting
