import Sting.Proofs.Statement.Source

/-!
# Lexemes of tokens

The source of an expression is put together from the texts of tokens with blanks between them, and
is then cut a second time, by rules of its own. The two scanners agree: the lexemes of joined tokens
are those that the tokens stand for one by one. Only bars are taken together, two at a time.
-/

namespace Sting

open Token Text

namespace Lexeme

/-- The double nearest to the decimal that a token of digits spells. -/
def literalValue (text : List Char) : Float :=
  Number.ofMagnitude false
    (Decimal.ofDigits (text.takeWhile (· != '.')) (text.dropWhile (· != '.')).tail).nearest

/-- What a symbol other than a bar stands for. An assignment symbol stands for the operator that it
combines with; equals sign, colon and comma stand for nothing. -/
def ofSymbol : List Char → List Lexeme
  | ['('] => [.opening]
  | [')'] => [.closing]
  | ['!'] => [.operator (.unary .not)]
  | ['&', '&'] => [.operator (.binary .and)]
  | ['=', '='] => [.operator (.binary .eq)]
  | ['!', '='] => [.operator (.binary .ne)]
  | ['<'] => [.operator (.binary .lt)]
  | ['>'] => [.operator (.binary .gt)]
  | ['<', '='] => [.operator (.binary .le)]
  | ['>', '='] => [.operator (.binary .ge)]
  | ['+'] | ['+', '='] => [.operator (.binary .add)]
  | ['-'] | ['-', '='] => [.operator (.binary .sub)]
  | ['*'] | ['*', '='] => [.operator (.binary .mul)]
  | ['/'] | ['/', '='] => [.operator (.binary .div)]
  | ['%'] | ['%', '='] => [.operator (.binary .rem)]
  | ['^'] | ['^', '='] => [.operator (.binary .pow)]
  | _ => []

/-- A symbol is a parenthesis, or it stands for an operator other than a disjunction, or for
nothing. -/
theorem ofSymbol_cases (text : List Char) :
    text = ['('] ∧ ofSymbol text = [.opening] ∨ text = [')'] ∧ ofSymbol text = [.closing] ∨
      ofSymbol text = [] ∨ ∃ op, op ≠ .binary .or ∧ ofSymbol text = [.operator op] := by
  unfold ofSymbol
  split
  · exact .inl ⟨rfl, rfl⟩
  · exact .inr (.inl ⟨rfl, rfl⟩)
  all_goals exact .inr (.inr (by simp))

/-- What a token stands for in an expression: a text for its content, a number for its value, and a
word for itself, be it a keyword or not. A comment stands for nothing. -/
def ofToken (kind : Token.Kind) (text : List Char) : List Lexeme :=
  match kind with
  | .text => [.text (String.ofList text.tail.dropLast)]
  | .number => [.number (literalValue text)]
  | .keyword | .identifier => [.word (String.ofList text)]
  | .symbol => ofSymbol text
  | .comment => []

/-- The symbol that stands for something only in pairs. -/
def isBar (t : Token) : Bool :=
  t.text == "|"

/-- What a sequence of tokens stands for. A run of bars stands for half as many disjunctions, and a
bar that is left over for nothing. -/
def ofTokens : List Token → List Lexeme
  | [] => []
  | t :: tokens =>
    if isBar t then
      List.replicate (((t :: tokens).takeWhile isBar).length / 2) (.operator (.binary .or)) ++
        ofTokens (tokens.dropWhile isBar)
    else ofToken t.kind t.text.toList ++ ofTokens tokens
termination_by tokens => tokens.length
decreasing_by
  · exact Nat.lt_succ_of_le (List.dropWhile_sublist isBar).length_le
  · exact Nat.lt_succ_self _

/-! ## Laws of runs of bars -/

variable {t u : Token} {tokens : List Token}

/-- No tokens stand for nothing. -/
theorem ofTokens_nil : ofTokens [] = [] := by
  rw [ofTokens]

/-- Any token but a bar stands for itself. -/
theorem ofTokens_cons (ht : isBar t = false) :
    ofTokens (t :: tokens) = ofToken t.kind t.text.toList ++ ofTokens tokens := by
  rw [ofTokens, if_neg (by simp [ht])]

/-- A sequence can be cut behind the bars at its head. -/
theorem ofTokens_eq_run (tokens : List Token) :
    ofTokens tokens =
      List.replicate ((tokens.takeWhile isBar).length / 2) (.operator (.binary .or)) ++
        ofTokens (tokens.dropWhile isBar) := by
  cases tokens with
  | nil => rfl
  | cons t tokens =>
      by_cases ht : isBar t = true
      · rw [ofTokens, if_pos ht, List.dropWhile_cons_of_pos ht]
      · rw [List.takeWhile_cons_of_neg ht, List.dropWhile_cons_of_neg ht]
        rfl

/-- Two bars are a disjunction, whatever follows. -/
theorem ofTokens_bar_bar (ht : isBar t = true) (hu : isBar u = true) :
    ofTokens (t :: u :: tokens) = .operator (.binary .or) :: ofTokens tokens := by
  have hhalf : ((tokens.takeWhile isBar).length + 1 + 1) / 2 =
      (tokens.takeWhile isBar).length / 2 + 1 := by omega
  rw [ofTokens, if_pos ht, List.takeWhile_cons_of_pos ht, List.takeWhile_cons_of_pos hu,
    List.dropWhile_cons_of_pos hu, List.length_cons, List.length_cons, hhalf,
    List.replicate_succ, List.cons_append, ← ofTokens_eq_run]

/-- A bar before another token stands for nothing. -/
theorem ofTokens_bar_other (ht : isBar t = true) (hu : isBar u = false) :
    ofTokens (t :: u :: tokens) = ofTokens (u :: tokens) := by
  have hu' : ¬ isBar u = true := by simp [hu]
  rw [ofTokens, if_pos ht, List.takeWhile_cons_of_pos ht, List.takeWhile_cons_of_neg hu',
    List.dropWhile_cons_of_neg hu', List.length_singleton]
  rfl

/-- A single bar stands for nothing. -/
theorem ofTokens_bar (ht : isBar t = true) : ofTokens [t] = [] := by
  rw [ofTokens, if_pos ht, List.takeWhile_cons_of_pos ht, List.dropWhile_nil, ofTokens_nil,
    List.takeWhile_nil, List.length_singleton]
  rfl

/-- A bar more or less makes a difference of disjunctions only. -/
theorem exists_ofTokens_bar (ht : isBar t = true) (tokens : List Token) :
    ∃ more fewer rest,
      ofTokens (t :: tokens) = List.replicate more (.operator (.binary .or)) ++ rest ∧
        ofTokens tokens = List.replicate fewer (.operator (.binary .or)) ++ rest := by
  refine ⟨((t :: tokens).takeWhile isBar).length / 2, _, _, ?_, ofTokens_eq_run tokens⟩
  rw [ofTokens, if_pos ht]

/-! ## Numbers -/

/-- Only ASCII digits and a point make a literal. -/
theorem digitsKind_of_ofLiteral? {text : List Char} {value : Float}
    (h : Number.ofLiteral? text = some value) : digitsKind text = .number := by
  have hwhole : (text.takeWhile Char.isDigit).all (fun c => c.isDigit || c == '.') = true := by
    rw [List.all_eq_true]
    intro c hc
    rw [List.mem_takeWhile_imp hc, Bool.true_or]
  have hrest : (text.dropWhile Char.isDigit).all (fun c => c.isDigit || c == '.') = true := by
    unfold Number.ofLiteral? at h
    dsimp only at h
    split at h
    · cases h
    · rename_i hnil _
      rw [hnil]
      rfl
    · rename_i fraction hpoint _
      split at h
      · rename_i hdigits
        rw [Bool.and_eq_true, List.all_eq_true] at hdigits
        have hfraction : fraction.all (fun c => c.isDigit || c == '.') = true := by
          rw [List.all_eq_true]
          intro c hc
          rw [hdigits.2 c hc, Bool.true_or]
        rw [hpoint, List.all_cons, hfraction]
        rfl
      · cases h
    · cases h
  rw [digitsKind, if_pos]
  rw [← List.takeWhile_append_dropWhile (p := Char.isDigit) (l := text), List.all_append, hwhole,
    hrest]
  rfl

/-- A token of digits is a number or a word for both scanners alike. -/
theorem ofDigits_eq {text : List Char} (h : digitsKind text = .number →
    Number.ofLiteral? text = some (literalValue text)) :
    [ofDigits text] = ofToken (digitsKind text) text := by
  unfold ofDigits
  split
  · rename_i value hvalue
    have hkind := digitsKind_of_ofLiteral? hvalue
    obtain rfl := Option.some.inj (hvalue.symm.trans (h hkind))
    rw [hkind]
    rfl
  · rename_i hnone
    have hkind : digitsKind text = .identifier := by
      by_contra hne
      have hnumber : digitsKind text = .number := by
        unfold digitsKind at hne ⊢
        split
        · rfl
        · rename_i hall
          rw [if_neg hall] at hne
          exact absurd rfl hne
      rw [h hnumber] at hnone
      cases hnone
    rw [hkind]
    rfl

/-- The whole part of a number ends at the same place whether one looks for digits or for a
point. -/
theorem span_number {whole : List Char} (h : ∀ c ∈ whole, c.isDigit = true) (rest : List Char)
    (hrest : ∀ c ∈ rest.head?, c = '.') :
    ((whole ++ rest).takeWhile Char.isDigit = whole ∧
      (whole ++ rest).dropWhile Char.isDigit = rest) ∧
    (whole ++ rest).takeWhile (· != '.') = whole ∧ (whole ++ rest).dropWhile (· != '.') = rest := by
  refine ⟨span_run h ?_, span_run ?_ ?_⟩
  · intro c hc
    rw [hrest c hc]
    decide
  · intro c hc
    rw [bne_iff_ne]
    rintro rfl
    exact absurd (h _ hc) (by decide)
  · intro c hc
    rw [hrest c hc]
    decide

/-- Decimal digits among ASCII digits and points are ASCII digits. -/
theorem isDigit_of_digitsKind {text : List Char} (h : digitsKind text = .number) {c : Char}
    (hc : c ∈ text) (hdigit : isDecimalDigit c = true) : c.isDigit = true := by
  unfold digitsKind at h
  split at h
  · rename_i hall
    have hclass := List.all_eq_true.mp hall c hc
    rw [Bool.or_eq_true, beq_iff_eq] at hclass
    rcases hclass with hascii | rfl
    · exact hascii
    · exact absurd hdigit (by decide)
  · cases h

/-- A run of ASCII digits is a literal. -/
theorem ofLiteral?_digits {whole : List Char} (hne : whole ≠ [])
    (h : ∀ c ∈ whole, isDecimalDigit c = true) (hkind : digitsKind whole = .number) :
    Number.ofLiteral? whole = some (literalValue whole) := by
  have hdigits : ∀ c ∈ whole, c.isDigit = true :=
    fun c hc => isDigit_of_digitsKind hkind hc (h c hc)
  obtain ⟨⟨htake, hdrop⟩, htake', hdrop'⟩ := span_number hdigits [] nofun
  rw [List.append_nil] at htake hdrop htake' hdrop'
  obtain ⟨c, tail, rfl⟩ := List.exists_cons_of_ne_nil hne
  rw [literalValue, htake', hdrop']
  simp only [Number.ofLiteral?, htake, hdrop]
  rfl

/-- ASCII digits on both sides of a point are a literal. -/
theorem ofLiteral?_fraction {whole part : List Char} (hne : whole ≠ [])
    (h : ∀ c ∈ whole, isDecimalDigit c = true) (hne' : part ≠ [])
    (h' : ∀ c ∈ part, isDecimalDigit c = true)
    (hkind : digitsKind (whole ++ '.' :: part) = .number) :
    Number.ofLiteral? (whole ++ '.' :: part) = some (literalValue (whole ++ '.' :: part)) := by
  have hdigits : ∀ c ∈ whole, c.isDigit = true :=
    fun c hc => isDigit_of_digitsKind hkind (List.mem_append_left _ hc) (h c hc)
  have hpart : part.all Char.isDigit = true := by
    rw [List.all_eq_true]
    intro c hc
    have hmem : c ∈ whole ++ '.' :: part := List.mem_append_right _ (List.mem_cons_of_mem _ hc)
    exact isDigit_of_digitsKind hkind hmem (h' c hc)
  obtain ⟨⟨htake, hdrop⟩, htake', hdrop'⟩ :=
    span_number hdigits ('.' :: part) (fun c hc => (Option.some.inj hc).symm)
  obtain ⟨c, tail, rfl⟩ := List.exists_cons_of_ne_nil hne
  obtain ⟨d, tail', rfl⟩ := List.exists_cons_of_ne_nil hne'
  rw [literalValue, htake', hdrop']
  simp only [Number.ofLiteral?, htake, hdrop, hpart]
  rfl

/-! ## Symbols -/

/-- A character that no lexeme begins with is passed over. -/
theorem scan_of_cut?_eq_none {c : Char} {rest : List Char} (h : cut? (c :: rest) = none) :
    scan (c :: rest) = scan rest := by
  rw [scan]
  split
  · rename_i h'
    rw [h] at h'
    cases h'
  · rfl

/-- Where a symbol begins, the symbol is cut. -/
theorem cut?_of_symbol {c : Char}
    (h : Piece.isDelimiter c = true ∨ Piece.isExtensible c = true ∨ c = '&') (rest : List Char) :
    cut? (c :: rest) = cutSymbol? (c :: rest) := by
  obtain ⟨-, h₁, h₂, h₃⟩ := Piece.ne_of_symbol h
  rw [cut?, if_neg h₁, if_neg (by simp [h₂]), if_neg (by simp [h₃])]

/-- A symbol that stands alone is cut whatever follows it; only bars come in pairs. -/
theorem scan_delimiter {c : Char} (h : Piece.isDelimiter c = true) (hbar : c ≠ '|')
    (rest : List Char) : scan (c :: rest) = ofSymbol [c] ++ scan rest := by
  have hcut := cut?_of_symbol (.inl h) rest
  simp only [Piece.isDelimiter, Bool.or_eq_true, beq_iff_eq] at h
  rcases h with (((rfl | rfl) | rfl) | rfl) | rfl
  · exact scan_of_cut? hcut
  · exact scan_of_cut? hcut
  · exact scan_of_cut?_eq_none hcut
  · exact scan_of_cut?_eq_none hcut
  · exact absurd rfl hbar

/-- An equals sign that no other follows is passed over. -/
theorem scan_equals {rest : List Char} (hb : Breaks rest) : scan ('=' :: rest) = scan rest := by
  have hne (tail : List Char) : rest ≠ '=' :: tail := hb.head_ne (by decide)
  refine scan_of_cut?_eq_none ?_
  rw [cut?_of_symbol (.inr (.inl rfl))]
  simp [cutSymbol?, hne]

/-- Every other symbol that no equals sign extends is an operator as it stands. -/
theorem exists_cut?_plain {c : Char} (h : Piece.isExtensible c = true) (hc : c ≠ '=')
    {rest : List Char} (hb : Breaks rest) :
    ∃ lexeme, ofSymbol [c] = [lexeme] ∧ cut? (c :: rest) = some (lexeme, rest) := by
  have hne (tail : List Char) : rest ≠ '=' :: tail := hb.head_ne (by decide)
  rw [cut?_of_symbol (.inr (.inl h))]
  simp only [Piece.isExtensible, Bool.or_eq_true, beq_iff_eq] at h
  rcases h with ((((((((rfl | rfl) | rfl) | rfl) | rfl) | rfl) | rfl) | rfl) | rfl) | rfl
  case inl.inl.inl.inr => exact absurd rfl hc
  all_goals exact ⟨_, rfl, by simp [cutSymbol?]⟩

/-- An operator takes in the equals sign of a comparison and leaves that of an assignment. -/
theorem exists_cut?_extended {c : Char} (h : Piece.isExtensible c = true) (rest : List Char) :
    ∃ lexeme rest', ofSymbol [c, '='] = [lexeme] ∧ cut? (c :: '=' :: rest) = some (lexeme, rest') ∧
      (rest' = rest ∨ rest' = '=' :: rest) := by
  rw [cut?_of_symbol (.inr (.inl h))]
  simp only [Piece.isExtensible, Bool.or_eq_true, beq_iff_eq] at h
  rcases h with ((((((((rfl | rfl) | rfl) | rfl) | rfl) | rfl) | rfl) | rfl) | rfl) | rfl
  -- the last four begin comparisons
  case inr | inl.inr | inl.inl.inr | inl.inl.inl.inr => exact ⟨_, _, rfl, rfl, .inl rfl⟩
  all_goals exact ⟨_, _, rfl, rfl, .inr rfl⟩

/-! ## Joined tokens -/

/-- A token other than a bar, where nothing extends it, is cut into the lexemes it stands for. -/
theorem scan_append {kind : Token.Kind} {text rest : List Char} (h : IsSpelling kind text)
    (hbar : text ≠ ['|']) (hb : Breaks rest) :
    scan (text ++ rest) = ofToken kind text ++ scan rest := by
  cases h with
  | @quoted content hq =>
      have hcut : cut? (quote :: (content ++ [quote]) ++ rest) =
          some (.text (String.ofList content), rest) := by
        rw [List.cons_append, List.append_assoc, List.singleton_append, cut?, if_pos rfl,
          Piece.cutQuoted?_append hq]
        rfl
      rw [scan_of_cut? hcut, ofToken, List.tail_cons, List.dropLast_concat]
      rfl
  | digits hne hd =>
      rw [scan_of_cut? (cut?_digits hne hd hb), ← ofDigits_eq (ofLiteral?_digits hne hd)]
      rfl
  | fraction hne hd hne' hd' =>
      rw [scan_of_cut? (cut?_fraction hne hd hne' hd' hb),
        ← ofDigits_eq (ofLiteral?_fraction hne hd hne' hd')]
      rfl
  | @word c tail hc hw =>
      rw [scan_of_cut? (cut?_word hc hw hb), wordKind]
      split
      · rfl
      · rfl
  | @delimiter c hc =>
      refine scan_delimiter hc ?_ rest
      rintro rfl
      exact hbar rfl
  | @plain c hc =>
      by_cases he : c = '='
      · subst he
        exact scan_equals hb
      · obtain ⟨lexeme, hsymbol, hcut⟩ := exists_cut?_plain hc he hb
        rw [List.singleton_append, scan_of_cut? hcut, ofToken, hsymbol]
        rfl
  | @extended c hc =>
      obtain ⟨lexeme, rest', hsymbol, hcut, hrest⟩ := exists_cut?_extended hc rest
      have hscan : scan rest' = scan rest := by
        rcases hrest with rfl | rfl
        · rfl
        · exact scan_equals hb
      rw [List.cons_append, List.singleton_append, scan_of_cut? hcut, ofToken, hsymbol, hscan]
      rfl
  | conjunction =>
      have hcut : cut? ('&' :: '&' :: rest) = some (.operator (.binary .and), rest) := rfl
      exact scan_of_cut? hcut

/-- A blank is passed over. -/
theorem scan_blank (rest : List Char) : scan (' ' :: rest) = scan rest :=
  scan_of_cut?_eq_none rfl

/-- An empty text has no lexemes. -/
theorem scan_nil : scan [] = [] := by
  rw [scan]
  rfl

/-- The characters at the head of tokens that are not delimiters. -/
def isOpener (c : Char) : Bool :=
  c == quote || isDecimalDigit c || isWordStart c || Piece.isExtensible c || c == '&'

/-- No token begins with a blank. -/
theorem not_isOpener_of_isBlank {c : Char} (h : isBlank c = true) :
    isOpener c = false ∧ Piece.isDelimiter c = false := by
  have hblanks : ∀ n ∈ List.range' 0x09 5 ++ [0x20, 0x85, 0xA0, 0x1680] ++ List.range' 0x2000 11 ++
      [0x2028, 0x2029, 0x202F, 0x205F, 0x3000],
      isOpener (Char.ofNat n) = false ∧ Piece.isDelimiter (Char.ofNat n) = false := by decide
  rw [← Char.ofNat_toNat c]
  apply hblanks
  simp only [isBlank, Bool.or_eq_true, Bool.and_eq_true, decide_eq_true_eq, beq_iff_eq] at h
  simp only [List.mem_append, List.mem_range'_1, List.mem_cons, List.not_mem_nil, or_false]
  omega

/-- A token begins with a character that opens a lexeme, or is a symbol that stands alone. -/
theorem exists_head_of_isSpelling {kind : Token.Kind} {text : List Char}
    (h : IsSpelling kind text) :
    ∃ c tail, text = c :: tail ∧ (isOpener c = true ∨ Piece.isDelimiter c = true ∧ tail = []) := by
  cases h with
  | quoted => exact ⟨_, _, rfl, .inl rfl⟩
  | digits hne hd =>
      obtain ⟨c, tail, rfl⟩ := List.exists_cons_of_ne_nil hne
      exact ⟨c, tail, rfl, .inl (by simp [isOpener, hd c])⟩
  | @fraction whole part hne hd =>
      obtain ⟨c, tail, rfl⟩ := List.exists_cons_of_ne_nil hne
      exact ⟨c, tail ++ '.' :: part, rfl, .inl (by simp [isOpener, hd c])⟩
  | word hc => exact ⟨_, _, rfl, .inl (by simp [isOpener, hc])⟩
  | delimiter hc => exact ⟨_, _, rfl, .inr ⟨hc, rfl⟩⟩
  | plain hc => exact ⟨_, _, rfl, .inl (by simp [isOpener, hc])⟩
  | extended hc => exact ⟨_, _, rfl, .inl (by simp [isOpener, hc])⟩
  | conjunction => exact ⟨_, _, rfl, .inl rfl⟩

/-- A bar before a token that is no bar is passed over. -/
theorem scan_bar_other {kind : Token.Kind} {text : List Char} (h : IsSpelling kind text)
    (hbar : text ≠ ['|']) (rest : List Char) :
    scan ('|' :: ' ' :: (text ++ rest)) = scan (text ++ rest) := by
  obtain ⟨c, tail, rfl, hc⟩ := exists_head_of_isSpelling h
  have hblank : ¬ isBlank c = true := by
    intro hblank
    obtain ⟨hopener, hdelimiter⟩ := not_isOpener_of_isBlank hblank
    rw [hopener, hdelimiter] at hc
    simp at hc
  have hne : c ≠ '|' := by
    rintro rfl
    rcases hc with hopener | ⟨-, rfl⟩
    · exact absurd hopener (by decide)
    · exact hbar rfl
  have hsecond : cutSecondBar? (' ' :: (c :: tail ++ rest)) = none := by
    rw [cutSecondBar?, List.dropWhile_cons_of_pos rfl, List.cons_append,
      List.dropWhile_cons_of_neg hblank]
    split
    · rename_i heq
      exact absurd (List.cons.inj heq).1 hne
    · rfl
  have hcut : cut? ('|' :: ' ' :: (c :: tail ++ rest)) = none := by
    rw [cut?_of_symbol (.inl rfl), cutSymbol?, hsecond]
    rfl
  rw [scan_of_cut?_eq_none hcut, scan_blank]

/-- Behind the first token of a joined text comes nothing that extends it, and no other lexemes than
those of the remaining tokens. -/
theorem exists_toList_join_cons (t : Token) (tokens : List Token) :
    ∃ rest, (Clause.join (t :: tokens)).toList = t.text.toList ++ rest ∧ Breaks rest ∧
      scan rest = scan (Clause.join tokens).toList := by
  cases tokens with
  | nil => exact ⟨[], (List.append_nil _).symm, breaks_nil, rfl⟩
  | cons u tokens =>
      exact ⟨_, toList_join_cons_cons t u tokens, breaks_blank _, scan_blank _⟩

/-- A bar is spelled by one character. -/
theorem toList_text_of_isBar (h : isBar t = true) : t.text.toList = ['|'] := by
  rw [beq_iff_eq.mp h]
  rfl

/-- No other token is spelled like a bar. -/
theorem toList_text_ne_of_isBar (h : isBar t = false) : t.text.toList ≠ ['|'] := by
  intro htext
  have hbar : t.text = "|" := String.toList_injective htext
  rw [isBar, hbar] at h
  cases h

/-- The lexemes of joined tokens are those that the tokens stand for. -/
theorem scan_join {tokens : List Token} (h : ∀ t ∈ tokens, t.Genuine) :
    scan (Clause.join tokens).toList = ofTokens tokens := by
  match tokens with
  | [] =>
      rw [ofTokens_nil]
      exact scan_nil
  | t :: tokens =>
      obtain ⟨ht, htokens⟩ := List.forall_mem_cons.mp h
      obtain ⟨rest, hjoin, hb, hrest⟩ := exists_toList_join_cons t tokens
      by_cases hbar : isBar t = true
      · match tokens with
        | [] =>
            change scan t.text.toList = _
            rw [ofTokens_bar hbar, toList_text_of_isBar hbar]
            exact (scan_of_cut?_eq_none rfl).trans scan_nil
        | u :: tokens =>
            obtain ⟨hu, htokens'⟩ := List.forall_mem_cons.mp htokens
            obtain ⟨rest', hjoin', -, hrest'⟩ := exists_toList_join_cons u tokens
            rw [toList_join_cons_cons, toList_text_of_isBar hbar, hjoin']
            by_cases hbar' : isBar u = true
            · have hcut : cut? ('|' :: ' ' :: '|' :: rest') =
                  some (.operator (.binary .or), rest') := rfl
              rw [ofTokens_bar_bar hbar hbar', toList_text_of_isBar hbar', ← scan_join htokens',
                ← hrest']
              exact scan_of_cut? hcut
            · rw [Bool.not_eq_true] at hbar'
              rw [ofTokens_bar_other hbar hbar', ← scan_join htokens, hjoin']
              exact scan_bar_other hu (toList_text_ne_of_isBar hbar') rest'
      · rw [Bool.not_eq_true] at hbar
        rw [hjoin, scan_append ht (toList_text_ne_of_isBar hbar) hb, hrest, scan_join htokens,
          ofTokens_cons hbar]

/-- The tokens of any stretch of a source, joined by single blanks, are cut into the lexemes that
they stand for. -/
theorem scan_join_of_isInfix (source : String) (tokens : List Token)
    (h : tokens <:+: Token.scan source) :
    scan (Clause.join tokens).toList = ofTokens tokens :=
  scan_join fun _ ht => genuine_of_mem_scan (h.subset ht)

/-- Three bars make one disjunction, and digits of two scripts make a word. -/
theorem scan_join_of_isInfix_bars :
    scan (Clause.join ((Token.scan "x += 'a|b' | | | 1٣ == y").drop 1)).toList =
      [.operator (.binary .add), .text "a|b", .operator (.binary .or), .word "1٣",
        .operator (.binary .eq), .word "y"] := by
  rw [scan_join_of_isInfix "x += 'a|b' | | | 1٣ == y" _ (List.drop_suffix 1 _).isInfix]
  decide +kernel

end Lexeme

end Sting
