import Sting.Proofs.Statement.Places

/-!
# Sources of expressions

The source of an expression is put together from the texts of tokens and blanks. It spells exactly
these tokens again, wherever it stands, so joining them once more changes at most the length of a
run of blanks.
-/

namespace Sting

open Token Text

namespace Text

/-- The text with every run of blanks cut down to one. -/
def squeeze : List Char → List Char
  | [] => []
  | c :: rest => if c = ' ' ∧ rest.head? = some ' ' then squeeze rest else c :: squeeze rest

/-- Two blanks are squeezed like one. -/
theorem squeeze_blanks (front back : List Char) :
    squeeze (front ++ ' ' :: ' ' :: back) = squeeze (front ++ ' ' :: back) := by
  induction front with
  | nil => rw [List.nil_append, squeeze, if_pos ⟨rfl, rfl⟩, List.nil_append]
  | cons c front ih =>
      have hhead : (front ++ ' ' :: ' ' :: back).head? = (front ++ ' ' :: back).head? := by
        cases front <;> rfl
      rw [List.cons_append, List.cons_append, squeeze, squeeze, hhead, ih]

end Text

namespace Expression

/-- Expressions with the same code, and the same source up to the length of runs of blanks. -/
def Alike (e e' : Expression) : Prop :=
  e.code = e'.code ∧ squeeze e.source.toList = squeeze e'.source.toList

/-- The expression with its source put together anew from the tokens that it spells. -/
def tidy (e : Expression) : Expression :=
  .compile (Clause.join (spelled e.source.toList))

end Expression

namespace Token

/-- The text spells the same tokens whatever comes behind it, unless that extends the last one. -/
def Composed (text : String) : Prop :=
  ∀ rest, Breaks rest → spelled (text.toList ++ rest) = spelled text.toList ++ spelled rest

/-- A blank breaks any token. -/
theorem breaks_blank (rest : List Char) : Breaks (' ' :: rest) := by
  intro c hc
  obtain rfl := Option.some.inj hc
  decide

/-- The end of the text breaks any token. -/
theorem breaks_nil : Breaks [] :=
  nofun

/-- A genuine token is spelled by its text. -/
theorem Genuine.spelled_text {t : Token} (h : t.Genuine) {rest : List Char} (hb : Breaks rest) :
    spelled (t.text.toList ++ rest) = t.unplaced :: spelled rest := by
  rw [spelled_spelling h hb, Genuine.bare_eq]

/-- Two tokens are joined with a blank between them. -/
theorem toList_join_cons_cons (t u : Token) (tokens : List Token) :
    (Clause.join (t :: u :: tokens)).toList =
      t.text.toList ++ ' ' :: (Clause.join (u :: tokens)).toList := by
  rw [Clause.join, List.map_cons, List.map_cons, String.intercalate_cons_cons,
    String.toList_append, String.toList_append, List.append_assoc]
  rfl

/-- The tokens of a joined text are those that were joined. -/
theorem spelled_join {tokens : List Token} (h : ∀ t ∈ tokens, t.Genuine) {rest : List Char}
    (hb : Breaks rest) :
    spelled ((Clause.join tokens).toList ++ rest) = tokens.map unplaced ++ spelled rest := by
  induction tokens with
  | nil => rfl
  | cons t tokens ih =>
      have ht : t.Genuine := h t List.mem_cons_self
      have htokens : ∀ u ∈ tokens, u.Genuine := fun u hu => h u (List.mem_cons_of_mem t hu)
      cases tokens with
      | nil => exact ht.spelled_text hb
      | cons u tokens =>
          rw [toList_join_cons_cons, List.append_assoc, List.cons_append,
            ht.spelled_text (breaks_blank _), spelled_blank (.inl rfl), ih htokens]
          rfl

/-- Joined tokens are the tokens again. -/
theorem spelled_join_toList {tokens : List Token} (h : ∀ t ∈ tokens, t.Genuine) :
    spelled (Clause.join tokens).toList = tokens.map unplaced := by
  have hjoin := spelled_join h breaks_nil
  rwa [List.append_nil, spelled_nil, List.append_nil] at hjoin

/-- Joined tokens stay apart from what follows them. -/
theorem composed_join {tokens : List Token} (h : ∀ t ∈ tokens, t.Genuine) :
    Composed (Clause.join tokens) := by
  intro rest hb
  rw [spelled_join h hb, spelled_join_toList h]

/-- Joining the tokens of a joined text gives it back. -/
theorem join_spelled_join {tokens : List Token} (h : ∀ t ∈ tokens, t.Genuine) :
    Clause.join (spelled (Clause.join tokens).toList) = Clause.join tokens := by
  rw [spelled_join_toList h, Clause.join_unplaced]

/-- A source keeps its tokens when they are written anew with single blanks between them. -/
theorem scan_join_scan (source : String) :
    (Token.scan (Clause.join (Token.scan source))).map (fun t => (t.kind, t.text)) =
      (Token.scan source).map fun t => (t.kind, t.text) := by
  have hspelled : spelled (Clause.join (Token.scan source)).toList =
      (Token.scan source).map unplaced :=
    spelled_join_toList fun _ ht => genuine_of_mem_scan ht
  rw [← map_unplaced_scan] at hspelled
  have hpairs := congrArg (List.map fun t => (t.kind, t.text)) hspelled
  rwa [List.map_map, List.map_map] at hpairs

end Token

namespace Lexeme

/-- A lexeme that is cut is the first one. -/
theorem scan_of_cut? {text rest : List Char} {lexeme : Lexeme}
    (h : cut? text = some (lexeme, rest)) : scan text = lexeme :: scan rest := by
  rw [scan]
  split
  · rename_i h'
    rw [h] at h'
    cases h'
    rfl
  · rename_i h'
    rw [h] at h'
    cases h'

/-- Where a digit stands, the number is cut. -/
theorem cut?_number {c : Char} {text digits rest : List Char} (hc : isDecimalDigit c = true)
    (h : cutNumber (c :: text) = (digits, rest)) :
    cut? (c :: text) = some (ofDigits digits, rest) := by
  obtain ⟨-, hquote⟩ := Piece.ne_of_isDecimalDigit hc
  rw [cut?, if_neg hquote, if_pos hc, h]

/-- A run of digits is cut as a whole. -/
theorem cut?_digits {whole rest : List Char} (hne : whole ≠ [])
    (h : ∀ c ∈ whole, isDecimalDigit c = true) (hb : Breaks rest) :
    cut? (whole ++ rest) = some (ofDigits whole, rest) := by
  have hcut := Piece.cutNumber_digits h hb
  obtain ⟨c, tail, rfl⟩ := List.exists_cons_of_ne_nil hne
  exact cut?_number (h c List.mem_cons_self) hcut

/-- Digits on both sides of a point are cut as a whole. -/
theorem cut?_fraction {whole part rest : List Char} (hne : whole ≠ [])
    (h : ∀ c ∈ whole, isDecimalDigit c = true) (hne' : part ≠ [])
    (h' : ∀ c ∈ part, isDecimalDigit c = true) (hb : Breaks rest) :
    cut? (whole ++ '.' :: part ++ rest) = some (ofDigits (whole ++ '.' :: part), rest) := by
  have hcut := Piece.cutNumber_fraction h hne' h' hb
  obtain ⟨c, tail, rfl⟩ := List.exists_cons_of_ne_nil hne
  rw [List.append_assoc, List.cons_append, List.cons_append]
  exact cut?_number (h c List.mem_cons_self) hcut

/-- A word is cut as a whole. -/
theorem cut?_word {c : Char} {tail rest : List Char} (hc : isWordStart c = true)
    (h : ∀ d ∈ tail, isWordChar d = true) (hb : Breaks rest) :
    cut? (c :: tail ++ rest) = some (.word (String.ofList (c :: tail)), rest) := by
  obtain ⟨-, hquote, hdigit⟩ := Piece.ne_of_isWordStart hc
  have hword : ∀ d ∈ c :: tail, isWordChar d = true :=
    List.forall_mem_cons.mpr ⟨isWordChar_of_isWordStart hc, h⟩
  have hcut := Piece.cutWord_append hword hb
  rw [List.cons_append] at hcut ⊢
  rw [cut?, if_neg hquote, if_neg (by simp [hdigit]), if_pos hc, hcut]

/-- What a variable can be called is one lexeme. -/
theorem exists_cut?_identifier {text : List Char} (h : IsSpelling .identifier text) :
    ∃ lexeme, ∀ rest, Breaks rest → cut? (text ++ rest) = some (lexeme, rest) := by
  generalize hkind : Kind.identifier = kind at h
  cases h with
  | quoted => cases hkind
  | digits hne hd => exact ⟨ofDigits text, fun _ hb => cut?_digits hne hd hb⟩
  | fraction hne hd hne' hd' => exact ⟨_, fun _ hb => cut?_fraction hne hd hne' hd' hb⟩
  | word hc hw => exact ⟨_, fun _ hb => cut?_word hc hw hb⟩
  | delimiter => cases hkind
  | plain => cases hkind
  | extended => cases hkind
  | conjunction => cases hkind

end Lexeme

/-! ## Combined assignments

The source of a combined assignment has a blank on both sides of what is read. When nothing is read,
they stand side by side. -/

namespace Clause

/-- The symbols that combine. -/
def combining : List String :=
  ["+", "-", "*", "/", "%", "^"]

/-- A symbol that assigns combines with nothing or with one of the combining operators. -/
theorem eq_of_accumulator? {text symbol : String} (h : accumulator? text = some symbol) :
    symbol = "" ∨ symbol ∈ combining := by
  unfold accumulator? at h
  split at h <;> cases h <;> decide

/-- Combining operators are symbols. -/
theorem isSpelling_of_mem_combining {symbol : String} (h : symbol ∈ combining) :
    IsSpelling .symbol symbol.toList := by
  simp only [combining, List.mem_cons, List.not_mem_nil, or_false] at h
  rcases h with rfl | rfl | rfl | rfl | rfl | rfl
  all_goals exact .plain (by decide)

/-- The source of a combined assignment. -/
def combined (name symbol source : String) : String :=
  name ++ " " ++ symbol ++ " ( " ++ source ++ " )"

/-- The tokens of a combined assignment behind the equals sign. -/
def combinedTokens (t : Token) (symbol : String) (tokens : List Token) : List Token :=
  t.unplaced :: bare .symbol symbol.toList :: bare .symbol ['('] ::
    (tokens.map unplaced ++ [bare .symbol [')']])

variable {t : Token} {symbol : String} {tokens : List Token}

/-- The source of an accumulation spells the name, the operator and the parenthesized tokens. -/
theorem spelled_combined (ht : t.Genuine) (hs : symbol ∈ combining)
    (htokens : ∀ u ∈ tokens, u.Genuine) (rest : List Char) :
    spelled ((combined t.text symbol (join tokens)).toList ++ rest) =
      combinedTokens t symbol tokens ++ spelled rest := by
  have htext : (combined t.text symbol (join tokens)).toList ++ rest =
      t.text.toList ++ ' ' :: (symbol.toList ++ ' ' :: '(' :: ' ' ::
        ((join tokens).toList ++ ' ' :: ')' :: rest)) := by
    simp only [combined, String.toList_append, List.append_assoc]
    rfl
  rw [htext, ht.spelled_text (breaks_blank _), spelled_blank (.inl rfl),
    spelled_spelling (isSpelling_of_mem_combining hs) (breaks_blank _), spelled_blank (.inl rfl),
    spelled_delimiter rfl, spelled_blank (.inl rfl), spelled_join htokens (breaks_blank _),
    spelled_blank (.inl rfl), spelled_delimiter rfl]
  simp only [combinedTokens, List.cons_append, List.append_assoc, List.nil_append]

/-- At the end of the text an accumulation spells the same. -/
theorem spelled_combined_toList (ht : t.Genuine) (hs : symbol ∈ combining)
    (htokens : ∀ u ∈ tokens, u.Genuine) :
    spelled (combined t.text symbol (join tokens)).toList = combinedTokens t symbol tokens := by
  have h := spelled_combined ht hs htokens []
  rwa [List.append_nil, spelled_nil, List.append_nil] at h

/-- The source of an accumulation stays apart from what follows it. -/
theorem composed_combined (ht : t.Genuine) (hs : symbol ∈ combining)
    (htokens : ∀ u ∈ tokens, u.Genuine) : Composed (combined t.text symbol (join tokens)) := by
  intro rest _
  rw [spelled_combined ht hs htokens, spelled_combined_toList ht hs htokens]

/-- Joining the tokens of a combined assignment gives its source back, unless nothing is read. -/
theorem join_combinedTokens (h : tokens ≠ []) :
    join (combinedTokens t symbol tokens) = combined t.text symbol (join tokens) := by
  have hne : tokens.map (text ∘ unplaced) ≠ [] := mt List.map_eq_nil_iff.mp h
  have hjoin : join (tokens.map unplaced ++ [bare .symbol [')']]) = join tokens ++ " " ++ ")" := by
    rw [join, List.map_append, List.map_map, List.map_cons,
      String.intercalate_append_of_ne_nil hne (List.cons_ne_nil _ _)]
    rfl
  have hne' : (tokens.map unplaced ++ [bare .symbol [')']]).map Token.text ≠ [] := by simp
  rw [combinedTokens, join, List.map_cons, List.map_cons, List.map_cons,
    String.intercalate_cons_cons, String.intercalate_cons_cons,
    String.intercalate_cons_of_ne_nil hne', ← join, hjoin, ← String.toList_inj]
  simp only [combined, String.toList_append, text_unplaced, text_bare, String.toList_ofList,
    List.append_assoc]
  rfl

/-- An accumulation of nothing leaves two blanks between its parentheses. -/
theorem toList_combined_nil (name : String) :
    (combined name symbol (join [])).toList =
      name.toList ++ ' ' :: (symbol.toList ++ [' ', '(', ' ', ' ', ')']) := by
  simp only [combined, String.toList_append, List.append_assoc]
  rfl

/-- Joined anew it has only one. -/
theorem toList_join_combinedTokens_nil :
    (join (combinedTokens t symbol [])).toList =
      t.text.toList ++ ' ' :: (symbol.toList ++ [' ', '(', ' ', ')']) := by
  rw [combinedTokens, join, List.map_cons, List.map_cons, List.map_cons, List.map_nil,
    List.nil_append, List.map_cons, List.map_nil, String.intercalate_cons_cons,
    String.intercalate_cons_cons, String.intercalate_cons_cons, String.intercalate_singleton]
  simp only [String.toList_append, text_unplaced, text_bare, String.toList_ofList,
    List.append_assoc]
  rfl

/-- A second blank between the parentheses is no lexeme. -/
theorem scan_combined_nil {name : String} (hname : IsSpelling .identifier name.toList)
    (hs : symbol ∈ combining) :
    Lexeme.scan (name.toList ++ ' ' :: (symbol.toList ++ [' ', '(', ' ', ' ', ')'])) =
      Lexeme.scan (name.toList ++ ' ' :: (symbol.toList ++ [' ', '(', ' ', ')'])) := by
  obtain ⟨lexeme, hcut⟩ := Lexeme.exists_cut?_identifier hname
  rw [Lexeme.scan_of_cut? (hcut _ (breaks_blank _)), Lexeme.scan_of_cut? (hcut _ (breaks_blank _))]
  congr 1
  simp only [combining, List.mem_cons, List.not_mem_nil, or_false] at hs
  rcases hs with rfl | rfl | rfl | rfl | rfl | rfl
  all_goals decide +kernel

/-- The tokens of a combined assignment make up the same expression. -/
theorem alike_combined (ht : t.Genuine) (hkind : t.kind = .identifier) (hs : symbol ∈ combining)
    (htokens : ∀ u ∈ tokens, u.Genuine) :
    Expression.Alike (.compile (combined t.text symbol (join tokens)))
      (Expression.tidy (.compile (combined t.text symbol (join tokens)))) := by
  have hname : IsSpelling .identifier t.text.toList := hkind ▸ ht
  rw [Expression.tidy, Expression.source_compile, spelled_combined_toList ht hs htokens]
  by_cases h : tokens = []
  · subst h
    constructor
    · change Instruction.ofLexemes (Lexeme.scan _) = Instruction.ofLexemes (Lexeme.scan _)
      rw [toList_combined_nil, toList_join_combinedTokens_nil, scan_combined_nil hname hs]
    · have hblanks := squeeze_blanks (t.text.toList ++ ' ' :: (symbol.toList ++ [' ', '('])) [')']
      rw [Expression.source_compile, Expression.source_compile, toList_combined_nil,
        toList_join_combinedTokens_nil]
      simpa only [List.append_assoc, List.cons_append, List.nil_append] using hblanks
  · rw [join_combinedTokens h]
    exact ⟨rfl, rfl⟩

end Clause

end Sting
