import Sting.Proofs.Machine.Variables

/-!
# Numbers that are typed

A numeral can be typed for a number variable or be written behind the equals sign of its
declaration. With a point both take the decimal to the nearest double. Without one, what is typed is
a whole number of 64 bits first: below the bound this makes no difference, and from the bound on
nothing is bound, although the same numeral in the program has a value.
-/

namespace Sting

open Token Text

/-- ASCII digits, or ASCII digits on both sides of a point. -/
inductive Text.IsNumeral : List Char → Prop
  | whole {digits : List Char} (hne : digits ≠ []) (h : ∀ c ∈ digits, c.isDigit = true) :
      IsNumeral digits
  | pointed {digits part : List Char} (hne : digits ≠ []) (h : ∀ c ∈ digits, c.isDigit = true)
      (hne' : part ≠ []) (h' : ∀ c ∈ part, c.isDigit = true) : IsNumeral (digits ++ '.' :: part)

/-! ## Numerals in a program -/

namespace Text

variable {text : List Char}

/-- A numeral has no other characters than digits and a point. -/
theorem IsNumeral.isDigit_or_point (h : IsNumeral text) {c : Char} (hc : c ∈ text) :
    c.isDigit = true ∨ c = '.' := by
  cases h with
  | whole hne h => exact .inl (h c hc)
  | pointed hne h hne' h' =>
      rcases List.mem_append.mp hc with hc | hc
      · exact .inl (h c hc)
      · rcases List.mem_cons.mp hc with rfl | hc
        · exact .inr rfl
        · exact .inl (h' c hc)

/-- A numeral is a token of its own kind. -/
theorem IsNumeral.isSpelling (h : IsNumeral text) : IsSpelling .number text := by
  have hkind : digitsKind text = .number := by
    rw [digitsKind, if_pos]
    rw [List.all_eq_true]
    intro c hc
    rw [Bool.or_eq_true, beq_iff_eq]
    exact h.isDigit_or_point hc
  have hdecimal {digits : List Char} (h : ∀ c ∈ digits, c.isDigit = true) :
      ∀ c ∈ digits, isDecimalDigit c = true :=
    fun c hc => isDecimalDigit_of_isDigit (h c hc)
  rw [← hkind]
  cases h with
  | whole hne h => exact .digits hne (hdecimal h)
  | pointed hne h hne' h' => exact .fraction hne (hdecimal h) hne' (hdecimal h')

end Text

/-- Only symbols and keywords end an expression. -/
theorem Clause.continuesExpression_of_kind {kind : Kind} {text : List Char}
    (h : IsSpelling kind text) (hsymbol : kind ≠ .symbol) (hkeyword : kind ≠ .keyword) :
    continuesExpression (bare kind text) = true := by
  have hbar : String.ofList text ≠ "|" := by
    intro heq
    obtain rfl : text = ['|'] := String.ofList_injective heq
    exact hsymbol (h.kind_eq (.delimiter rfl))
  have hboundary : isBoundary (String.ofList text) = false := by
    have hsub : ["show", "roi", "if", "elseif", "else", "loop", "str", "num", "bln"] ⊆
        keywords := by decide
    rw [isBoundary, Bool.eq_false_iff, ne_eq, List.contains_iff_mem]
    intro hmem
    have hspelling := isSpelling_of_mem_keywords (hsub hmem)
    rw [String.toList_ofList] at hspelling
    exact hkeyword (h.kind_eq hspelling)
  rw [continuesExpression, text_bare, bne_iff_ne.mpr hbar, hboundary]
  rfl

/-- A numeral has the value of its literal. -/
theorem Expression.evaluate_numeral {numeral : String} (h : IsNumeral numeral.toList)
    (env : Environment) :
    (compile numeral).evaluate env = .ok (.number (Lexeme.literalValue numeral.toList)) := by
  have hcode : (compile numeral).code =
      (Tree.number (Lexeme.literalValue numeral.toList)).postorder := by
    rw [code_eq, source_compile, Lexeme.scan_token h.isSpelling nofun]
    rfl
  exact Tree.evaluate_of_code_eq hcode env

/-! ## Numerals on a line -/

/-- Trimming changes nothing where nothing is blank. -/
theorem Text.trim_eq_self {text : List Char} (h : ∀ c ∈ text, isBlank c = false) :
    trim text = text := by
  have hdrop {text : List Char} (h : ∀ c ∈ text, isBlank c = false) :
      text.dropWhile isBlank = text := by
    cases text with
    | nil => rfl
    | cons c rest => exact List.dropWhile_cons_of_neg (by simp [h c List.mem_cons_self])
  have hreverse : ∀ c ∈ text.reverse, isBlank c = false :=
    fun c hc => h c (List.mem_reverse.mp hc)
  rw [trim, hdrop h, hdrop hreverse, List.reverse_reverse]

/-- A numeral has nothing to trim. -/
theorem Text.IsNumeral.trim_eq {text : List Char} (h : IsNumeral text) : trim text = text := by
  refine trim_eq_self ?_
  intro c hc
  rcases h.isDigit_or_point hc with hdigit | rfl
  · rw [Bool.eq_false_iff]
    intro hblank
    have hopener := (Lexeme.not_isOpener_of_isBlank hblank).1
    simp [Lexeme.isOpener, isDecimalDigit_of_isDigit hdigit] at hopener
  · decide

namespace Number

variable {digits part : List Char}

/-- Digits have no sign in front. -/
theorem takeSign_digits (hne : digits ≠ []) (h : ∀ c ∈ digits, c.isDigit = true)
    (rest : List Char) : takeSign (digits ++ rest) = (false, digits ++ rest) := by
  obtain ⟨c, tail, rfl⟩ := List.exists_cons_of_ne_nil hne
  have hc := h c List.mem_cons_self
  rw [List.cons_append]
  unfold takeSign
  split
  · rename_i heq
    cases heq
    exact absurd hc (by decide)
  · rename_i heq
    cases heq
    exact absurd hc (by decide)
  · rfl

/-- With a point, a numeral that is typed is read like the literal. -/
theorem ofPointed?_numeral (hne : digits ≠ []) (h : ∀ c ∈ digits, c.isDigit = true)
    (h' : ∀ c ∈ part, c.isDigit = true) :
    ofPointed? (digits ++ '.' :: part) = some (Lexeme.literalValue (digits ++ '.' :: part)) := by
  obtain ⟨⟨htake, hdrop⟩, htake', hdrop'⟩ := Lexeme.span_number h ('.' :: part)
    (fun c hc => (Option.some.inj hc).symm)
  obtain ⟨⟨hfraction, hend⟩, -⟩ := Lexeme.span_number h' [] nofun
  rw [List.append_nil] at hfraction hend
  have hempty : digits.isEmpty = false := by simpa using hne
  -- without an exponent the power of ten is one
  have hscaled (d : Decimal) : Magnitude.nearest (d.significand * Decimal.powerOfTen 0)
      (Decimal.powerOfTen (d.places + 0)) = d.nearest := by
    rw [Decimal.powerOfTen, Nat.pow_eq, Nat.pow_zero, Nat.mul_one]
    rfl
  rw [Lexeme.literalValue, htake', hdrop', List.tail_cons, ← hscaled]
  simp only [ofPointed?, takeSign_digits hne h, htake, hdrop, hfraction, hend, hempty]
  rfl

/-- Without a point, it is read as a whole number of 64 bits. -/
theorem ofWhole?_numeral (hne : digits ≠ []) (h : ∀ c ∈ digits, c.isDigit = true) :
    ofWhole? digits = if Decimal.digitsValue digits < wholeBound then
      some (Lexeme.literalValue digits) else none := by
  obtain ⟨-, htake, hdrop⟩ := Lexeme.span_number h [] nofun
  have hsign := takeSign_digits hne h []
  rw [List.append_nil] at htake hdrop hsign
  have hdigits : (digits.isEmpty || !digits.all Char.isDigit) = false := by
    rw [List.all_eq_true.mpr h]
    simpa using hne
  have hliteral : Lexeme.literalValue digits =
      ofMagnitude false (Magnitude.nearest (Decimal.digitsValue digits) 1) := by
    rw [Lexeme.literalValue, htake, hdrop, List.tail_nil, Decimal.ofDigits, List.append_nil]
    rfl
  simp only [ofWhole?, hsign, hdigits, hliteral, Bool.false_and, Bool.or_false, decide_eq_true_eq,
    Bool.false_eq_true, if_false]

/-- A numeral that is typed has the value of its literal, unless it is a whole number that is too
large. -/
theorem ofTyped?_numeral {numeral : String} (h : IsNumeral numeral.toList) :
    ofTyped? numeral =
      if '.' ∈ numeral.toList ∨ Decimal.digitsValue numeral.toList < 2 ^ 63 then
        some (Lexeme.literalValue numeral.toList)
      else none := by
  rw [ofTyped?, h.trim_eq]
  generalize numeral.toList = text at h
  cases h with
  | whole hne h =>
      have hpoint : '.' ∉ text := fun hmem => absurd (h _ hmem) (by decide)
      have hbound : wholeBound = 2 ^ 63 := rfl
      simp only [List.contains_iff_mem, hpoint, false_or, if_false, ofWhole?_numeral hne h, hbound]
  | @pointed digits part hne h hne' h' =>
      have hpoint : '.' ∈ digits ++ '.' :: part := by simp
      simp only [List.contains_iff_mem, hpoint, true_or, if_true, ofPointed?_numeral hne h h']

end Number

namespace Environment

variable {numeral : String} (h : IsNumeral numeral.toList)
include h

/-- A declaration with a numeral behind the equals sign binds the value of the literal. -/
theorem assign_numeral (env : Environment) (name : String) :
    env.assign name (some .number) (.compile numeral) =
      env.bind name .number (.number (Lexeme.literalValue numeral.toList)) := by
  rw [assign, assigned, Expression.evaluate_numeral h]
  rfl

/-- A numeral on a line binds the value of the literal, unless it is a whole number that is too
large. -/
theorem bind_typed_numeral (env : Environment) (name : String) :
    (do env.bind name .number (← Value.ofTyped name .number numeral)) =
      if '.' ∈ numeral.toList ∨ Decimal.digitsValue numeral.toList < 2 ^ 63 then
        env.bind name .number (.number (Lexeme.literalValue numeral.toList))
      else .error (.notNumeric name) := by
  rw [Value.ofTyped, Number.ofTyped?_numeral h]
  by_cases hsmall : '.' ∈ numeral.toList ∨ Decimal.digitsValue numeral.toList < 2 ^ 63
  · rw [if_pos hsmall, if_pos hsmall]
    rfl
  · rw [if_neg hsmall, if_neg hsmall]
    rfl

end Environment

/-- Binding fails because of types alone. -/
theorem Environment.of?_bind_ne_notNumeric (env : Environment) (name other : String)
    (tag : TypeTag) (value : Value) :
    Failure.of? (env.bind name tag value) ≠ some (.notNumeric other) := by
  rcases env.bind_cases name tag value with ⟨hset, -⟩ | hretyped | hmistyped
  · rw [hset]
    exact nofun
  · rw [hretyped]
    exact nofun
  · rw [hmistyped]
    exact nofun

namespace Machine

variable {numeral name : String}

/-- A numeral that is typed for a number variable does what it does in the program exactly if it has
a point or is below `2 ^ 63`. Any other is refused and binds nothing. -/
theorem typed_numeral_is_literal_iff (hnumeral : IsNumeral numeral.toList) (hname : IsToken name)
    (env : Environment) (console : Console) (more : List String) :
    ∃ typed written failure failure',
      (ofSource (.start env (.ofLines (numeral :: more)))
        ("num(" ++ name ++ ") = roi()")).EndsWith typed failure ∧
      (ofSource (.start env console) ("num(" ++ name ++ ") = " ++ numeral)).EndsWith
        written failure' ∧
      (failure = failure' ∧ typed.environment = written.environment ↔
        '.' ∈ numeral.toList ∨ Decimal.digitsValue numeral.toList < 2 ^ 63) ∧
      (¬('.' ∈ numeral.toList ∨ Decimal.digitsValue numeral.toList < 2 ^ 63) →
        failure = some (.notNumeric name) ∧ typed.environment = env) := by
  have hrequest := Statement.read_request .number hname
  have hdeclaration := Statement.read_declaration .number hname hnumeral.isSpelling
    (Clause.continuesExpression_of_kind hnumeral.isSpelling nofun nofun)
  have hconsole : (Console.ofLines (numeral :: more)).Intact := ⟨rfl, rfl⟩
  obtain ⟨typed, htyped, htypedEnv⟩ := exists_endsWith_input hrequest hconsole rfl env
  obtain ⟨written, hwritten, hwrittenEnv⟩ := exists_endsWith_assign hdeclaration env console
  rw [Environment.bind_typed_numeral hnumeral] at htyped htypedEnv
  rw [Environment.assign_numeral hnumeral] at hwritten hwrittenEnv
  refine ⟨typed, written, _, _, htyped, hwritten, ?_⟩
  rw [htypedEnv, hwrittenEnv]
  by_cases h : '.' ∈ numeral.toList ∨ Decimal.digitsValue numeral.toList < 2 ^ 63
  · rw [if_pos h]
    exact ⟨⟨fun _ => h, fun _ => ⟨rfl, rfl⟩⟩, fun hnot => absurd h hnot⟩
  · rw [if_neg h]
    refine ⟨⟨?_, fun hsmall => absurd hsmall h⟩, fun _ => ⟨rfl, rfl⟩⟩
    rintro ⟨hfailure, -⟩
    exact absurd hfailure.symm (Environment.of?_bind_ne_notNumeric env name name _ _)

/-- The largest whole number of 64 bits is typed and written alike. -/
theorem typed_numeral_is_literal_iff_largest :
    ∃ typed written failure,
      (ofSource (.start .empty (.ofLines ["9223372036854775807"])) "num(x) = roi()").EndsWith
        typed failure ∧
      (ofSource (.start .empty (.ofLines [])) "num(x) = 9223372036854775807").EndsWith
        written failure ∧
      typed.environment = written.environment := by
  have hnumeral : IsNumeral "9223372036854775807".toList :=
    .whole (by decide) (List.all_eq_true.mp rfl)
  have hname : IsToken "x" := ⟨_, .word (c := 'x') rfl nofun⟩
  have hsmall : Decimal.digitsValue "9223372036854775807".toList < 2 ^ 63 := by decide
  obtain ⟨typed, written, failure, failure', htyped, hwritten, hiff, -⟩ :=
    typed_numeral_is_literal_iff hnumeral hname .empty (.ofLines []) []
  obtain ⟨rfl, henv⟩ := hiff.mpr (.inr hsmall)
  exact ⟨typed, written, failure, htyped, hwritten, henv⟩

/-- The next whole number is refused on a line and has a value in the program. -/
theorem typed_numeral_refused :
    ∃ typed written,
      (ofSource (.start .empty (.ofLines ["9223372036854775808"])) "num(x) = roi()").EndsWith
        typed (some (.notNumeric "x")) ∧
      typed.environment.get? "x" = none ∧
      (ofSource (.start .empty (.ofLines [])) "num(x) = 9223372036854775808").EndsWith
        written none ∧
      written.environment.get? "x" = some (.number 9223372036854775808) := by
  have hrequest : Statement.read (Token.scan "num(x) = roi()") = .ok [.input "x" .number ""] := by
    decide +kernel
  have hdeclaration : Statement.read (Token.scan "num(x) = 9223372036854775808") =
      .ok [.assign "x" (some .number) (.compile "9223372036854775808")] := by decide +kernel
  have hconsole : (Console.ofLines ["9223372036854775808"]).Intact := ⟨rfl, rfl⟩
  obtain ⟨typed, htyped, htypedEnv⟩ := exists_endsWith_input hrequest hconsole rfl .empty
  obtain ⟨written, hwritten, hwrittenEnv⟩ :=
    exists_endsWith_assign hdeclaration .empty (.ofLines [])
  have hnone : Failure.of? (Environment.empty.assign "x" (some .number)
      (.compile "9223372036854775808")) = none := by decide +kernel
  rw [hnone] at hwritten
  refine ⟨typed, written, htyped, ?_, hwritten, ?_⟩
  · rw [htypedEnv]
    decide +kernel
  · rw [hwrittenEnv]
    decide +kernel

end Machine

end Sting
