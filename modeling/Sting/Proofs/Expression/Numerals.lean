import Sting.Expression.Evaluation
import Sting.Proofs.Expression.Tokens
import Sting.Proofs.Json.Numbers
import Sting.Proofs.Number.Doubles

/-!
# Numerals

The text of a finite number is an expression: a decimal, behind a minus if the number is below zero.
The digits of a decimal give it back, so the decimal is one lexeme for the absolute value, and the
minus has an operand to come. The value of that expression is the number that was written.
-/

namespace Sting

open Token Text

namespace Decimal

/-- The zeros put in front do not count. -/
theorem digitsValue_padded (zeros n : Nat) :
    digitsValue (List.replicate zeros '0' ++ Nat.toDigits 10 n) = n := by
  change Nat.ofDigitChars 10 _ 0 = n
  rw [Nat.ofDigitChars_append, Nat.ofDigitChars_replicate_zero, Nat.mul_zero,
    Nat.ofDigitChars_ten_toDigits]

/-- A decimal is the one that its own digits spell. -/
theorem ofDigits_split (d : Decimal) : ofDigits d.split.1 d.split.2 = d := by
  have hplaces : d.split.2.length = d.places := by
    simp only [split, List.splitAt_eq, List.length_drop, List.length_append, List.length_replicate]
    omega
  have hdigits : digitsValue (d.split.1 ++ d.split.2) = d.significand := by
    simp only [split, List.splitAt_eq, List.take_append_drop]
    exact digitsValue_padded _ d.significand
  rw [ofDigits, hplaces, hdigits]

/-- Without places there are no digits behind the point. -/
theorem split_snd_eq_nil {d : Decimal} (h : d.places = 0) : d.split.2 = [] := by
  rw [← List.length_eq_zero_iff]
  exact (congrArg places (ofDigits_split d)).trans h

/-- At least one digit stands before the point, and none but digits. -/
theorem split_fst_digits (d : Decimal) :
    d.split.1 ≠ [] ∧ ∀ c ∈ d.split.1, c.isDigit = true :=
  Json.isDigits_iff.1 (Json.isWhole_iff.1 (Json.isWhole_split d)).1

/-- A decimal is written with a point only if it has places. -/
theorem toList_render (d : Decimal) :
    d.render.toList = if d.places = 0 then d.split.1 else d.split.1 ++ '.' :: d.split.2 := by
  rw [render, String.toList_ofList]

end Decimal

namespace Lexeme

/-! ## Decimals -/

/-- A decimal is a literal for the double nearest to it. -/
theorem ofLiteral?_render (d : Decimal) :
    Number.ofLiteral? d.render.toList = some (Number.ofMagnitude false d.nearest) := by
  obtain ⟨hne, hwhole⟩ := d.split_fst_digits
  have hd := d.ofDigits_split
  obtain ⟨c, tail, hcons⟩ := List.exists_cons_of_ne_nil hne
  rw [d.toList_render]
  by_cases h : d.places = 0
  · obtain ⟨⟨htake, hdrop⟩, -⟩ := span_number hwhole [] nofun
    rw [List.append_nil] at htake hdrop
    rw [Decimal.split_snd_eq_nil h] at hd
    rw [hcons] at hd
    rw [if_pos h, Number.ofLiteral?, htake, hdrop, hcons, hd]
  · have hfraction := Json.isDigits_split h
    obtain ⟨⟨htake, hdrop⟩, -⟩ :=
      span_number hwhole ('.' :: d.split.2) (fun c hc => (Option.some.inj hc).symm)
    rw [hcons] at hd
    rw [if_neg h, Number.ofLiteral?, htake, hdrop, hcons]
    refine (if_pos hfraction).trans ?_
    rw [hd]

/-- A decimal is one lexeme to its last digit. -/
theorem cut?_render (d : Decimal) :
    cut? d.render.toList = some (.number (Number.ofMagnitude false d.nearest), []) := by
  obtain ⟨hne, hwhole⟩ := d.split_fst_digits
  have hwhole' : ∀ c ∈ d.split.1, isDecimalDigit c = true :=
    fun c hc => isDecimalDigit_of_isDigit (hwhole c hc)
  have hcut : cut? d.render.toList = some (ofDigits d.render.toList, []) := by
    rw [d.toList_render]
    by_cases h : d.places = 0
    · have hdigits := cut?_digits hne hwhole' breaks_nil
      rw [if_pos h]
      rwa [List.append_nil] at hdigits
    · obtain ⟨hne', hfraction⟩ := Json.isDigits_iff.1 (Json.isDigits_split h)
      have hpoint := cut?_fraction hne hwhole' hne'
        (fun c hc => isDecimalDigit_of_isDigit (hfraction c hc)) breaks_nil
      rw [if_neg h]
      rwa [List.append_nil] at hpoint
  rw [hcut, ofDigits, ofLiteral?_render]

/-- A minus before a lexeme is one more lexeme. -/
theorem scan_signed {text : List Char} {lexeme : Lexeme} (h : cut? text = some (lexeme, []))
    (negative : Prop) [Decidable negative] :
    scan ((if negative then ['-'] else []) ++ text) =
      (if negative then [.operator (.binary .sub)] else []) ++ [lexeme] := by
  have htext : scan text = [lexeme] := by rw [scan_of_cut? h, scan_nil]
  have hminus : cut? ('-' :: text) = some (.operator (.binary .sub), text) := rfl
  split
  · rw [List.singleton_append, scan_of_cut? hminus, htext]
    rfl
  · exact htext

end Lexeme

namespace Number

/-! ## Texts of numbers -/

/-- A finite number is written as a decimal that reads back as its magnitude, behind a minus if the
number is below zero. -/
theorem exists_decimal {x : Float} (h : isFinite x = true) :
    ∃ d : Decimal, d.nearest = magnitude x ∧
      (render x).toList = (if x < 0 then ['-'] else []) ++ d.render.toList := by
  have hfinite : magnitude x < Magnitude.infinity := of_decide_eq_true h
  have hbelow := lt_zero_iff h
  by_cases hzero : magnitude x = 0
  · have hsign : ¬ x < 0 := by
      rw [hbelow, isNonzero, hzero]
      exact fun hnonzero => absurd hnonzero.2 (by decide)
    refine ⟨⟨0, 0⟩, ?_, ?_⟩
    · rw [hzero]
      decide +kernel
    · rw [render, if_pos hzero, if_neg hsign]
      rfl
  · have hnonzero : isNonzero x = true := bne_iff_ne.mpr hzero
    have hsign : x < 0 ↔ isNegative x = true := by
      rw [hbelow, and_iff_left hnonzero]
    refine ⟨Decimal.shortest (magnitude x), Decimal.nearest_shortest hfinite, ?_⟩
    rw [render, if_neg hzero, if_pos hfinite, String.toList_append]
    by_cases hnegative : isNegative x = true
    · rw [if_pos hnegative, if_pos (hsign.mpr hnegative)]
      rfl
    · rw [if_neg hnegative, if_neg (mt hsign.mp hnegative)]
      rfl

/-- A minus before the absolute value makes up for the sign. -/
theorem signed_abs {x : Float} (h : isFinite x = true) :
    (if x < 0 then -x.abs else x.abs) = if isNonzero x then x else 0 := by
  have hbelow := lt_zero_iff h
  by_cases hnonzero : isNonzero x = true
  · rw [if_pos hnonzero]
    by_cases hnegative : isNegative x = true
    · rw [if_pos (hbelow.mpr ⟨hnegative, hnonzero⟩), neg_abs hnegative]
    · rw [if_neg (fun hlt => hnegative (hbelow.mp hlt).1), abs_eq_self hnegative]
  · have hzero : magnitude x = 0 := by simpa [isNonzero] using hnonzero
    rw [if_neg hnonzero, if_neg (fun hlt => hnonzero (hbelow.mp hlt).2), abs_eq, hzero, ← zero_eq]

end Number

/-- A minus before the only operand is its negation. -/
theorem Instruction.ofLexemes_signed (negative : Prop) [Decidable negative] (value : Float) :
    ofLexemes ((if negative then [.operator (.binary .sub)] else []) ++ [.number value]) =
      .number value :: if negative then [.apply (.unary .neg)] else [] := by
  split <;> rfl

namespace Expression

/-- The text of a finite number has that number as its value, in every environment; for negative
zero it is zero. The text is one lexeme for the absolute value, with a minus before it exactly if
the number is below zero, and this minus is the negation. -/
theorem evaluate_render {x : Float} (h : Number.isFinite x = true) (env : Environment) :
    (compile (Number.render x)).evaluate env =
        .ok (.number (if Number.isNonzero x then x else 0)) ∧
      ∃ text, (Number.render x).toList = (if x < 0 then ['-'] else []) ++ text ∧
        Lexeme.cut? text = some (.number x.abs, []) ∧
        (compile (Number.render x)).code =
          .number x.abs :: if x < 0 then [.apply (.unary .neg)] else [] := by
  obtain ⟨d, hnearest, htext⟩ := Number.exists_decimal h
  have hcut := Lexeme.cut?_render d
  rw [hnearest, ← Number.abs_eq] at hcut
  have hcode : (compile (Number.render x)).code =
      .number x.abs :: if x < 0 then [.apply (.unary .neg)] else [] := by
    change Instruction.ofLexemes (Lexeme.scan (Number.render x).toList) = _
    rw [htext, Lexeme.scan_signed hcut, Instruction.ofLexemes_signed]
  refine ⟨?_, d.render.toList, htext, hcut, hcode⟩
  rw [← Number.signed_abs h, evaluate, hcode]
  split <;> rfl

/-- The negative of a sum of tenths, which is written with all its digits. -/
theorem evaluate_render_tenths :
    let x : Float := -0.30000000000000004
    Number.isFinite x = true ∧ Number.render x = "-0.30000000000000004" ∧
      (compile "-0.30000000000000004").evaluate .empty = .ok (.number x) := by
  intro x
  have hfinite : Number.isFinite x = true := by decide +kernel
  have hrender : Number.render x = "-0.30000000000000004" := by decide +kernel
  have hnonzero : Number.isNonzero x = true := by decide +kernel
  have hvalue := (evaluate_render hfinite .empty).1
  rw [hrender, if_pos hnonzero] at hvalue
  exact ⟨hfinite, hrender, hvalue⟩

end Expression

end Sting
