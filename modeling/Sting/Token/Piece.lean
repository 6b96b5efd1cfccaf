import Sting.Text.Cut
import Sting.Token

/-!
# Cutting a source text

A source text is cut into pieces from left to right: tokens, comments, and single characters that
belong to neither. The pieces make up the text (`flatMap_text_scan`); the tokens among them, each
with its place, are the tokens of the source.
-/

namespace Sting

/-- A stretch of a source text. -/
inductive Piece where
  | token (kind : Token.Kind) (text : List Char)
  | comment (text : List Char)
  | stray (c : Char)
deriving DecidableEq, Repr

namespace Piece

/-- The characters of a piece. -/
def text : Piece → List Char
  | .token _ text => text
  | .comment text => text
  | .stray c => [c]

/-- Symbols that stand alone. -/
def isDelimiter (c : Char) : Bool :=
  c == '(' || c == ')' || c == ':' || c == ',' || c == '|'

/-- Symbols that a following equals sign extends. -/
def isExtensible (c : Char) : Bool :=
  c == '-' || c == '+' || c == '*' || c == '/' || c == '%' || c == '^' || c == '=' || c == '!' ||
    c == '<' || c == '>'

/-- The symbol at the head of a text, or a stray character. -/
def cutSymbol (c : Char) (rest : List Char) : Piece × List Char :=
  if isDelimiter c then (.token .symbol [c], rest)
  else if isExtensible c then
    match rest with
    | '=' :: rest => (.token .symbol [c, '='], rest)
    | rest => (.token .symbol [c], rest)
  else
    match c, rest with
    | '&', '&' :: rest => (.token .symbol ['&', '&'], rest)
    | c, rest => (.stray c, rest)

/-- The piece at the head of a text and the rest. A comment runs to the end of its line, and a quote
that is never closed is stray. -/
def cut (c : Char) (rest : List Char) : Piece × List Char :=
  if c = '#' then
    (.comment (c :: rest.takeWhile (· != '\n')), rest.dropWhile (· != '\n'))
  else if c = Text.quote then
    match Text.cutQuoted? rest with
    | some (content, rest) => (.token .text (c :: content ++ [c]), rest)
    | none => (.stray c, rest)
  else if Text.isDecimalDigit c then
    let (digits, rest) := Text.cutNumber (c :: rest)
    (.token (Token.digitsKind digits) digits, rest)
  else if Text.isWordStart c then
    let (word, rest) := Text.cutWord (c :: rest)
    (.token (Token.wordKind word) word, rest)
  else cutSymbol c rest

/-- A symbol and the rest make up the text. -/
theorem append_cutSymbol (c : Char) (rest : List Char) :
    (cutSymbol c rest).1.text ++ (cutSymbol c rest).2 = c :: rest := by
  unfold cutSymbol
  split
  · rfl
  · split <;> split <;> rfl

/-- Nothing is lost by a cut. -/
theorem append_cut (c : Char) (rest : List Char) :
    (cut c rest).1.text ++ (cut c rest).2 = c :: rest := by
  unfold cut
  split
  · simp [text]
  · split
    · rename_i hc
      split
      · rename_i hq
        have := Text.append_of_cutQuoted? hq
        simp [text, ← this, hc]
      · rfl
    · split
      · exact Text.append_cutNumber _
      · split
        · exact Text.append_cutWord _
        · exact append_cutSymbol c rest

/-- A symbol has at least one character. -/
theorem text_cutSymbol_ne_nil (c : Char) (rest : List Char) : (cutSymbol c rest).1.text ≠ [] := by
  unfold cutSymbol
  split
  · simp [text]
  · split <;> split <;> simp [text]

/-- A cut takes at least one character. -/
theorem text_cut_ne_nil (c : Char) (rest : List Char) : (cut c rest).1.text ≠ [] := by
  unfold cut
  split
  · simp [text]
  · split
    · split <;> simp [text]
    · split
      · rename_i hd
        exact Text.cutNumber_fst_ne_nil rest hd
      · split
        · rename_i hw
          exact Text.cutWord_fst_ne_nil rest (Text.isWordChar_of_isWordStart hw)
        · exact text_cutSymbol_ne_nil c rest

/-- What a cut leaves is shorter, so cutting ends. -/
theorem length_cut_snd (c : Char) (rest : List Char) : (cut c rest).2.length < rest.length + 1 := by
  have h := congrArg List.length (append_cut c rest)
  have := List.length_pos_iff.2 (text_cut_ne_nil c rest)
  simp only [List.length_append, List.length_cons] at h
  omega

/-- The pieces of a text from left to right. -/
def scan : List Char → List Piece
  | [] => []
  | c :: rest => (cut c rest).1 :: scan (cut c rest).2
termination_by text => text.length
decreasing_by exact length_cut_snd c rest

/-- The pieces make up the text. -/
theorem flatMap_text_scan (source : List Char) : (scan source).flatMap text = source := by
  fun_induction scan source with
  | case1 => rfl
  | case2 c rest ih => rw [List.flatMap_cons, ih, append_cut]

/-- The tokens among the pieces of a text that begins at a given place. -/
def tokens (p : Position) : List Piece → List Token
  | [] => []
  | .token kind text :: rest => ⟨kind, String.ofList text, p⟩ :: tokens (p.after text) rest
  | piece :: rest => tokens (p.after piece.text) rest

end Piece

/-- The tokens of a source text. -/
def Token.scan (source : String) : List Token :=
  Piece.tokens .start (Piece.scan source.toList)

end Sting
