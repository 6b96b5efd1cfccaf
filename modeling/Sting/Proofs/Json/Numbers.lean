import Sting.Number
import Sting.Proofs.Json.Decoder

/-!
# Numbers in JSON

The text of a finite number is a number of JSON, and so is the text of a count: an optional minus
and digits that start with a zero only in front of the point, then perhaps a point and more digits.
-/

namespace Sting.Json

/-- Digits that do not begin with a zero, or a zero alone. -/
theorem isWhole_iff {text : List Char} :
    isWhole text = true ↔ isDigits text = true ∧ (text = ['0'] ∨ text.head? ≠ some '0') := by
  simp [isWhole]

/-- A whole number needs no fraction. -/
theorem isUnsigned_whole {whole : List Char} (h : isWhole whole = true) :
    isUnsigned whole = true := by
  have hdigits := (isDigits_iff.1 (isWhole_iff.1 h).1).2
  rw [isUnsigned, List.takeWhile_eq_self_iff.2 hdigits, List.dropWhile_eq_nil_iff.2 hdigits, h]
  rfl

/-- A fraction may follow a whole number. -/
theorem isUnsigned_fraction {whole fraction : List Char} (h : isWhole whole = true)
    (h' : isDigits fraction = true) : isUnsigned (whole ++ '.' :: fraction) = true := by
  have hdigits := (isDigits_iff.1 (isWhole_iff.1 h).1).2
  have hdigits' := (isDigits_iff.1 h').2
  have htake : (whole ++ '.' :: fraction).takeWhile Char.isDigit = whole := by
    rw [List.takeWhile_append_of_pos hdigits, List.takeWhile_cons_of_neg (by decide),
      List.append_nil]
  have hdrop : (whole ++ '.' :: fraction).dropWhile Char.isDigit = '.' :: fraction := by
    rw [List.dropWhile_append_of_pos hdigits, List.dropWhile_cons_of_neg (by decide)]
  rw [isUnsigned, htake, hdrop, h, isFraction, List.takeWhile_eq_self_iff.2 hdigits',
    List.dropWhile_eq_nil_iff.2 hdigits', h']
  rfl

/-- A number without a minus is one with an optional minus. -/
theorem isNumeral_of_isUnsigned {text : List Char} (h : isUnsigned text = true) :
    isNumeral text = true := by
  unfold isNumeral
  split
  · rw [isUnsigned, List.takeWhile_cons_of_neg (by decide)] at h
    exact absurd h (by simp [isWhole, isDigits])
  · exact h

/-- Only zero itself is written with a zero at the head. -/
theorem head?_toDigits_ne_zero {n : Nat} (h : 0 < n) : (Nat.toDigits 10 n).head? ≠ some '0' := by
  induction n using Nat.strongRecOn with
  | ind n ih =>
    by_cases hn : n < 10
    · rw [Nat.toDigits_of_lt_base hn, List.head?_cons, ne_eq, Option.some.injEq,
        Nat.digitChar_eq_zero]
      omega
    · have hne : Nat.toDigits 10 (n / 10) ≠ [] := Nat.toDigits_ne_nil
      obtain ⟨c, digits, hdigits⟩ := List.exists_cons_of_ne_nil hne
      have hhead := ih (n / 10) (by omega) (by omega)
      rw [Nat.toDigits_of_base_le (by decide) (by omega), hdigits]
      rwa [hdigits] at hhead

/-- The first digits of a number are a whole part. -/
theorem isWhole_take_toDigits (n : Nat) {count : Nat} (h : 0 < count) :
    isWhole ((Nat.toDigits 10 n).take count) = true := by
  have hne : Nat.toDigits 10 n ≠ [] := Nat.toDigits_ne_nil
  rw [isWhole_iff, isDigits_iff]
  refine ⟨⟨by simp [hne, Nat.ne_of_gt h], fun c hc => ?_⟩, ?_⟩
  · exact Nat.isDigit_of_mem_toDigits (by decide) (by decide) (List.mem_of_mem_take hc)
  · by_cases hn : n = 0
    · left
      rw [hn, Nat.toDigits_zero, List.take_of_length_le h]
    · right
      rw [List.head?_take, if_neg (Nat.ne_of_gt h)]
      exact head?_toDigits_ne_zero (Nat.pos_of_ne_zero hn)

/-- The part of a decimal before the point is one: zeros are put in front only to have one digit
there. -/
theorem isWhole_split (d : Decimal) : isWhole d.split.1 = true := by
  rw [Decimal.split, List.splitAt_eq]
  by_cases hplaces : d.places < (Nat.toDigits 10 d.significand).length
  · rw [Nat.sub_eq_zero_of_le hplaces, List.replicate_zero, List.nil_append]
    exact isWhole_take_toDigits d.significand (Nat.sub_pos_of_lt hplaces)
  · obtain ⟨zeros, hzeros⟩ : ∃ zeros,
        d.places + 1 - (Nat.toDigits 10 d.significand).length = zeros + 1 :=
      Nat.exists_eq_succ_of_ne_zero (by omega)
    have hone : zeros + 1 + (Nat.toDigits 10 d.significand).length - d.places = 1 := by omega
    rw [hzeros, List.length_append, List.length_replicate, hone, List.replicate_succ]
    rfl

/-- Where there are places there are digits behind the point. -/
theorem isDigits_split {d : Decimal} (h : d.places ≠ 0) : isDigits d.split.2 = true := by
  rw [Decimal.split, List.splitAt_eq, isDigits_iff]
  constructor
  · rw [ne_eq, List.drop_eq_nil_iff, List.length_append, List.length_replicate]
    omega
  · intro c hc
    have hmem := List.mem_of_mem_drop hc
    rw [List.mem_append, List.mem_replicate] at hmem
    rcases hmem with ⟨-, rfl⟩ | hmem
    · decide
    · exact Nat.isDigit_of_mem_toDigits (by decide) (by decide) hmem

/-- A decimal is written as a number without a minus. -/
theorem isUnsigned_render (d : Decimal) : isUnsigned d.render.toList = true := by
  rw [Decimal.render, String.toList_ofList]
  by_cases h : d.places = 0
  · rw [if_pos h]
    exact isUnsigned_whole (isWhole_split d)
  · rw [if_neg h]
    exact isUnsigned_fraction (isWhole_split d) (isDigits_split h)

/-- A finite number is written as a number. -/
theorem isNumeral_render {x : Float} (h : Number.isFinite x = true) :
    isNumeral (Number.render x).toList = true := by
  rw [Number.isFinite, decide_eq_true_eq] at h
  unfold Number.render
  by_cases hzero : Number.magnitude x = 0
  · rw [if_pos hzero]
    decide
  · have hunsigned := isUnsigned_render (Decimal.shortest (Number.magnitude x))
    rw [if_neg hzero, if_pos h, String.toList_append]
    generalize (Decimal.shortest (Number.magnitude x)).render.toList = digits at hunsigned ⊢
    by_cases hnegative : Number.isNegative x = true
    · rw [if_pos hnegative]
      exact hunsigned
    · rw [if_neg hnegative]
      exact isNumeral_of_isUnsigned hunsigned

/-- A count is written as a number. -/
theorem isNumeral_toString (n : Nat) : isNumeral (toString n).toList = true := by
  have hlength : 0 < (Nat.toDigits 10 n).length := Nat.length_toDigits_pos
  have hwhole := isWhole_take_toDigits n hlength
  rw [List.take_length] at hwhole
  rw [Nat.toString_eq_repr, Nat.toList_repr]
  exact isNumeral_of_isUnsigned (isUnsigned_whole hwhole)

end Sting.Json
