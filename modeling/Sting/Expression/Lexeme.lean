import Sting.Expression.Operator
import Sting.Number
import Sting.Text.Blank
import Sting.Text.Cut

/-!
# Lexemes of expressions

The source of an expression is cut into operands, operators and parentheses. What is none of them is
passed over one character at a time.
-/

namespace Sting

/-- A unit of an expression. -/
inductive Lexeme where
  | number (value : Float)
  /-- The content of a quoted text. -/
  | text (content : String)
  /-- A truth value or the name of a variable; which of them, the evaluation decides. -/
  | word (name : String)
  /-- An operator. A minus reads as a subtraction until its place in the expression is known. -/
  | operator (op : Operator)
  | opening
  | closing
deriving DecidableEq, Repr

namespace Lexeme

/-- A run of digits is a number, unless it has digits of other scripts: then it is a word. -/
def ofDigits (text : List Char) : Lexeme :=
  match Number.ofLiteral? text with
  | some value => .number value
  | none => .word (String.ofList text)

/-- A bar, any blanks and another bar are one operator, wherever the blanks come from. This is the
rest after the second bar. -/
def cutSecondBar? (text : List Char) : Option (List Char) :=
  match text.dropWhile Text.isBlank with
  | '|' :: rest => some rest
  | _ => none

/-- The operator or parenthesis at the head of a text, with the rest. -/
def cutSymbol? : List Char → Option (Lexeme × List Char)
  | '&' :: '&' :: rest => some (.operator (.binary .and), rest)
  | '|' :: rest => (cutSecondBar? rest).map fun rest => (.operator (.binary .or), rest)
  | '=' :: '=' :: rest => some (.operator (.binary .eq), rest)
  | '!' :: '=' :: rest => some (.operator (.binary .ne), rest)
  | '<' :: '=' :: rest => some (.operator (.binary .le), rest)
  | '>' :: '=' :: rest => some (.operator (.binary .ge), rest)
  | '<' :: rest => some (.operator (.binary .lt), rest)
  | '>' :: rest => some (.operator (.binary .gt), rest)
  | '(' :: rest => some (.opening, rest)
  | ')' :: rest => some (.closing, rest)
  | '!' :: rest => some (.operator (.unary .not), rest)
  | '-' :: rest => some (.operator (.binary .sub), rest)
  | '+' :: rest => some (.operator (.binary .add), rest)
  | '*' :: rest => some (.operator (.binary .mul), rest)
  | '/' :: rest => some (.operator (.binary .div), rest)
  | '%' :: rest => some (.operator (.binary .rem), rest)
  | '^' :: rest => some (.operator (.binary .pow), rest)
  | _ => none

/-- The lexeme at the head of a text, with the rest. -/
def cut? : List Char → Option (Lexeme × List Char)
  | [] => none
  | c :: rest =>
    if c = Text.quote then
      (Text.cutQuoted? rest).map fun (content, rest) => (.text (String.ofList content), rest)
    else if Text.isDecimalDigit c then
      let (digits, rest) := Text.cutNumber (c :: rest)
      some (ofDigits digits, rest)
    else if Text.isWordStart c then
      let (letters, rest) := Text.cutWord (c :: rest)
      some (.word (String.ofList letters), rest)
    else cutSymbol? (c :: rest)

/-- What stands behind a second bar is shorter. -/
theorem length_of_cutSecondBar? {text rest : List Char} (h : cutSecondBar? text = some rest) :
    rest.length < text.length := by
  unfold cutSecondBar? at h
  split at h
  · rename_i rest' hd
    obtain rfl := Option.some.inj h
    have := (List.dropWhile_sublist Text.isBlank (l := text)).length_le
    simp only [hd, List.length_cons] at this
    omega
  · simp at h

/-- A symbol takes at least one character. -/
theorem length_of_cutSymbol? {text rest : List Char} {lexeme : Lexeme}
    (h : cutSymbol? text = some (lexeme, rest)) : rest.length < text.length := by
  unfold cutSymbol? at h
  split at h <;>
    simp only [Option.some.injEq, Option.map_eq_some_iff, Prod.mk.injEq, reduceCtorEq] at h
  case h_2 rest' =>
    obtain ⟨_, h, -, rfl⟩ := h
    have := length_of_cutSecondBar? h
    simp only [List.length_cons]
    omega
  all_goals
    obtain ⟨-, rfl⟩ := h
    simp only [List.length_cons]
    omega

/-- A lexeme takes at least one character. -/
theorem length_of_cut? {text rest : List Char} {lexeme : Lexeme}
    (h : cut? text = some (lexeme, rest)) : rest.length < text.length := by
  unfold cut? at h
  split at h
  · simp at h
  · rename_i c tail
    split at h
    · obtain ⟨⟨content, rest'⟩, hq, he⟩ := Option.map_eq_some_iff.1 h
      simp only [Prod.mk.injEq] at he
      obtain ⟨-, rfl⟩ := he
      have := congrArg List.length (Text.append_of_cutQuoted? hq)
      simp only [List.length_append, List.length_cons] at this ⊢
      omega
    · split at h
      · rename_i hd
        simp only [Option.some.injEq, Prod.mk.injEq] at h
        obtain ⟨-, rfl⟩ := h
        have := congrArg List.length (Text.append_cutNumber (c :: tail))
        have := List.length_pos_iff.2 (Text.cutNumber_fst_ne_nil tail hd)
        simp only [List.length_append] at *
        omega
      · split at h
        · rename_i hw
          simp only [Option.some.injEq, Prod.mk.injEq] at h
          obtain ⟨-, rfl⟩ := h
          have := congrArg List.length (Text.append_cutWord (c :: tail))
          have := List.length_pos_iff.2
            (Text.cutWord_fst_ne_nil tail (Text.isWordChar_of_isWordStart hw))
          simp only [List.length_append] at *
          omega
        · exact length_of_cutSymbol? h

/-- The lexemes of a text from left to right. -/
def scan (text : List Char) : List Lexeme :=
  match h : cut? text with
  | some (lexeme, rest) =>
    have := length_of_cut? h
    lexeme :: scan rest
  | none =>
    match text with
    | [] => []
    | _ :: rest => scan rest
termination_by text.length

end Lexeme

end Sting
