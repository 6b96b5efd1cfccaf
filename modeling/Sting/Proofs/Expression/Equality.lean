import Sting.Proofs.Expression.Numerals

/-!
# Equality of values

Two numbers are equal as numbers, any other two values are equal as texts. Both are one notion of
equality: a number other than NaN can be read off its text, except that the two zeros are written
alike, and they are the only two doubles that are equal without being the same. So values other than
NaN are equal exactly if their texts are.
-/

namespace Sting

namespace Number

open Float.Model (UnpackedFloat)
open Float.Model.UnpackedFloat

/-! ## Equal numbers -/

/-- Two zeros are equal, and otherwise a number only equals itself. -/
theorem unpacked_beq_iff (u v : UnpackedFloat) :
    u.beq v = true ↔ (u = v ∧ u ≠ .notANumber) ∨ ∃ s t, u = .zero s ∧ v = .zero t := by
  cases u with
  | notANumber => simp [UnpackedFloat.beq, UnpackedFloat.compare]
  | infinity s =>
      cases v with
      | infinity t =>
          cases s <;> cases t <;> simp [UnpackedFloat.beq, UnpackedFloat.compare] <;> decide
      | _ => cases s <;> simp [UnpackedFloat.beq, UnpackedFloat.compare]
  | zero s =>
      cases v with
      | infinity t => cases t <;> simp [UnpackedFloat.beq, UnpackedFloat.compare]
      | finite t => cases t <;> simp [UnpackedFloat.beq, UnpackedFloat.compare]
      | _ => simp [UnpackedFloat.beq, UnpackedFloat.compare]
  | finite s =>
      cases v with
      | infinity t => cases t <;> simp [UnpackedFloat.beq, UnpackedFloat.compare]
      | finite t =>
          cases s <;> cases t <;>
            simp [UnpackedFloat.beq, UnpackedFloat.compare, Ordering.then_eq_eq, and_comm]
      | _ => cases s <;> simp [UnpackedFloat.beq, UnpackedFloat.compare]

/-- A double is decided by what its bits stand for. -/
theorem eq_of_unpack_eq {x y : Float} (h : x.toModel.unpack = y.toModel.unpack) : x = y := by
  rw [unpack_toModel, unpack_toModel] at h
  rw [← ofMagnitude_magnitude x, ← ofMagnitude_magnitude y, ← pack_signed (magnitude_lt x),
    ← pack_signed (magnitude_lt y), h]

/-- The doubles that stand for a zero are those without a magnitude. -/
theorem exists_unpack_eq_zero_iff {x : Float} :
    (∃ s, x.toModel.unpack = .zero s) ↔ isNonzero x = false := by
  rw [unpack_toModel, isNonzero, bne_eq_false_iff_eq]
  constructor
  · rintro ⟨s, hs⟩
    by_contra hpos
    have hzero := unpacked_ne_zero hpos (magnitude_lt x)
    cases hu : unpacked (magnitude x) with
    | zero t => exact hzero t hu
    | _ =>
        rw [hu] at hs
        cases hs
  · intro h
    rw [h]
    exact ⟨_, rfl⟩

/-- The two zeros are the only two doubles that are equal without being the same. -/
theorem beq_iff {x y : Float} (h : x.isNaN = false) :
    (x == y) = true ↔ x = y ∨ isNonzero x = false ∧ isNonzero y = false := by
  have hnumber : x.toModel.unpack ≠ .notANumber := by
    intro hnan
    have hx : x.toModel.unpack.isNaN = false := h
    rw [hnan] at hx
    cases hx
  have hbeq : (x == y) = x.toModel.unpack.beq y.toModel.unpack := rfl
  rw [hbeq, unpacked_beq_iff, and_iff_left hnumber, ← exists_unpack_eq_zero_iff,
    ← exists_unpack_eq_zero_iff, exists_and_exists_comm]
  exact or_congr_left ⟨eq_of_unpack_eq, fun h => h ▸ rfl⟩

/-- The codes above infinity are not numbers. -/
theorem isNaN_of_infinity_lt {x : Float} (h : Magnitude.infinity < magnitude x) :
    x.isNaN = true := by
  have hinfinity : Magnitude.infinity = 2047 * 2 ^ 52 := rfl
  have hsign : signWeight = 2 ^ 63 := rfl
  have hlt := magnitude_lt x
  have hblock : BitVec.ofNat 11 (magnitude x / 2 ^ 52) = -1#11 := by
    apply BitVec.eq_of_toNat_eq
    have hones : (-1#11 : BitVec 11).toNat = 2047 := rfl
    rw [toNat_block hlt, hones]
    omega
  have hplace : BitVec.ofNat 52 (magnitude x) ≠ 0#52 := by
    intro hzero
    have hnat := congrArg BitVec.toNat hzero
    simp only [BitVec.toNat_ofNat] at hnat
    omega
  have hunpacked : unpacked (magnitude x) = .notANumber := by
    simp only [unpacked, unpack, unpackExponent_packComponents, unpackMantissa_packComponents,
      if_pos hblock, if_neg hplace]
  have hx : x.toModel.unpack = .notANumber := by
    rw [unpack_toModel, hunpacked]
    rfl
  change x.toModel.unpack.isNaN = true
  rw [hx]
  rfl

/-! ## Texts that tell the number -/

/-- The number that the text of a number without a minus stands for. -/
def ofUnsigned? (text : List Char) : Option Float :=
  if text = "inf".toList then some (ofMagnitude false Magnitude.infinity) else ofLiteral? text

/-- The number that the text of a number stands for. -/
def ofText? : List Char → Option Float
  | '-' :: text => (ofUnsigned? text).map (-·)
  | text => ofUnsigned? text

/-- The text of a decimal reads as the double nearest to it. -/
theorem ofUnsigned?_decimal (d : Decimal) :
    ofUnsigned? d.render.toList = some (ofMagnitude false d.nearest) := by
  have hliteral := Lexeme.ofLiteral?_render d
  have hne : d.render.toList ≠ "inf".toList := by
    intro h
    rw [h] at hliteral
    cases hliteral
  rw [ofUnsigned?, if_neg hne, hliteral]

/-- A minus is read as the negation of what follows it. -/
theorem ofText?_signed {text : List Char} {x : Float} (h : ofUnsigned? text = some x)
    (negative : Prop) [Decidable negative] :
    ofText? ((if negative then ['-'] else []) ++ text) = some (if negative then -x else x) := by
  split
  · rw [List.singleton_append, ofText?, h]
    rfl
  · rw [List.nil_append, ofText?]
    · exact h
    · rintro rest rfl
      cases h

/-- A number other than NaN can be read off its text, where negative zero reads as zero. -/
theorem ofText?_render {x : Float} (h : x.isNaN = false) :
    ofText? (render x).toList = some (if isNonzero x then x else 0) := by
  by_cases hfinite : isFinite x = true
  · obtain ⟨d, hnearest, htext⟩ := exists_decimal hfinite
    have hd := ofUnsigned?_decimal d
    rw [hnearest, ← abs_eq] at hd
    rw [htext, ofText?_signed hd, signed_abs hfinite]
  · have hinfinite : magnitude x = Magnitude.infinity := by
      rw [isFinite, decide_eq_true_eq, Nat.not_lt] at hfinite
      refine Nat.le_antisymm (Nat.not_lt.mp fun hlt => ?_) hfinite
      rw [isNaN_of_infinity_lt hlt] at h
      cases h
    have hpos : Magnitude.infinity ≠ 0 := by decide
    have hnonzero : isNonzero x = true := by
      rw [isNonzero, hinfinite]
      decide
    have htext : (render x).toList =
        (if isNegative x = true then ['-'] else []) ++ "inf".toList := by
      rw [render, hinfinite, if_neg hpos, if_neg (Nat.lt_irrefl _), if_pos rfl,
        String.toList_append]
      split <;> rfl
    have hread : ofUnsigned? "inf".toList = some x.abs := by
      rw [abs_eq, hinfinite]
      exact if_pos rfl
    rw [htext, ofText?_signed hread, if_pos hnonzero]
    split
    · rw [neg_abs ‹_›]
    · rw [abs_eq_self ‹_›]

/-- Numbers other than NaN have the same text exactly if they are equal. -/
theorem render_eq_render_iff {x y : Float} (hx : x.isNaN = false) (hy : y.isNaN = false) :
    render x = render y ↔ (x == y) = true := by
  have hzero : isNonzero 0 = false := by decide +kernel
  rw [beq_iff hx]
  constructor
  · intro h
    have hread := ofText?_render hx
    rw [h, ofText?_render hy, Option.some.injEq] at hread
    cases hxzero : isNonzero x with
    | true =>
        rw [hxzero] at hread
        cases hyzero : isNonzero y with
        | true =>
            rw [hyzero] at hread
            exact .inl hread.symm
        | false =>
            rw [hyzero] at hread
            obtain rfl : 0 = x := hread
            rw [hzero] at hxzero
            cases hxzero
    | false =>
        refine .inr ⟨rfl, ?_⟩
        cases hyzero : isNonzero y with
        | true =>
            rw [hxzero, hyzero] at hread
            obtain rfl : y = 0 := hread
            exact hyzero.symm.trans hzero
        | false => rfl
  · rintro (rfl | ⟨hxzero, hyzero⟩)
    · rfl
    · rw [isNonzero, bne_eq_false_iff_eq] at hxzero hyzero
      rw [render, render, if_pos hxzero, if_pos hyzero]

end Number

/-! ## Equal values -/

/-- The value is the number that is not a number. -/
def Value.isNaN : Value → Bool
  | .number x => x.isNaN
  | _ => false

namespace BinaryOperator

/-- Values other than NaN are equal exactly if they have the same text. -/
theorem compare_eq_of_isNaN {a b : Value} (ha : a.isNaN = false) (hb : b.isNaN = false) :
    compare .eq a b = .ok (a.render == b.render) := by
  cases a with
  | number x =>
      cases b with
      | number y =>
          refine congrArg Except.ok (Bool.eq_iff_iff.mpr ?_)
          rw [beq_iff_eq]
          exact (Number.render_eq_render_iff ha hb).symm
      | _ => rfl
  | _ => rfl

/-- Two values are either equal or different. -/
theorem exists_compare_eq (a b : Value) :
    ∃ equal, compare .eq a b = .ok equal ∧ compare .ne a b = .ok (!equal) := by
  cases a with
  | number x => cases b <;> exact ⟨_, rfl, rfl⟩
  | _ => exact ⟨_, rfl, rfl⟩

/-- On the values other than NaN, equality is reflexive, symmetric and transitive, across all types.
Whatever the values are, they are different exactly if they are not equal. -/
theorem equality_is_an_equivalence :
    (∀ a b c : Value, a.isNaN = false → b.isNaN = false → c.isNaN = false →
      compare .eq a a = .ok true ∧ compare .eq a b = compare .eq b a ∧
      (compare .eq a b = .ok true → compare .eq b c = .ok true → compare .eq a c = .ok true)) ∧
    ∀ a b : Value, ∃ equal, compare .eq a b = .ok equal ∧ compare .ne a b = .ok (!equal) := by
  refine ⟨?_, exists_compare_eq⟩
  intro a b c ha hb hc
  rw [compare_eq_of_isNaN ha ha, compare_eq_of_isNaN ha hb, compare_eq_of_isNaN hb ha,
    compare_eq_of_isNaN hb hc, compare_eq_of_isNaN ha hc]
  simp only [Except.ok.injEq, beq_iff_eq]
  exact ⟨trivial, BEq.comm, fun hab hbc => hab.trans hbc⟩

/-- The two zeros and the text that both have. -/
theorem equality_is_an_equivalence_zeros :
    compare .eq (.number (-0.0)) (.text "0") = .ok true ∧
      compare .eq (.text "0") (.number 0.0) = .ok true ∧
      compare .eq (.number (-0.0)) (.number 0.0) = .ok true := by
  have hleft : compare .eq (.number (-0.0)) (.text "0") = .ok true := by decide +kernel
  have hright : compare .eq (.text "0") (.number 0.0) = .ok true := by decide +kernel
  obtain ⟨-, -, htrans⟩ := equality_is_an_equivalence.1 (.number (-0.0)) (.text "0")
    (.number 0.0) (by decide +kernel) rfl (by decide +kernel)
  exact ⟨hleft, hright, htrans hleft hright⟩

end BinaryOperator

end Sting
