import Sting.Statement
import Sting.Token

/-!
# Clauses

What can stand at the beginning of a statement: a statement that is complete in itself, the header
of a conditional or a loop, or a token that begins none. Reading a clause takes tokens off the head
of a list and fails at the first one that does not fit.
-/

namespace Sting

/-- What a clause needs at some point. -/
inductive Expected where
  | symbol (text : String)
  | variableName
deriving DecidableEq, Repr

/-- How a message names it. -/
def Expected.render : Expected → String
  | .symbol text => "'" ++ text ++ "'"
  | .variableName => "a variable name"

/-- A clause that cannot be read: what is needed and the token found instead, none at the end of the
input. -/
structure Mismatch where
  expected : Expected
  found : Option Token
deriving DecidableEq, Repr

/-- What the tokens at the beginning of a statement are. -/
inductive Clause where
  /-- A statement without a body. -/
  | simple (statement : Statement)
  /-- The header of a conditional, with its first condition. -/
  | conditional (condition : Expression)
  /-- The header of a loop. -/
  | loop (condition : Expression)
  /-- A token that begins no statement. -/
  | stray

namespace Clause

/-- Keywords that end the expression of an assignment, and the body of a loop after a bar. -/
def isBoundary (text : String) : Bool :=
  ["show", "roi", "if", "elseif", "else", "loop", "str", "num", "bln"].contains text

/-- The arithmetic symbol that an assignment symbol combines with, empty in a plain assignment. -/
def accumulator? : String → Option String
  | "=" => some ""
  | "+=" => some "+"
  | "-=" => some "-"
  | "*=" => some "*"
  | "/=" => some "/"
  | "%=" => some "%"
  | "^=" => some "^"
  | _ => none

/-- Takes a token with the given text. -/
def expect (text : String) : List Token → Except Mismatch (List Token)
  | t :: rest => if t.text = text then .ok rest else .error ⟨.symbol text, some t⟩
  | [] => .error ⟨.symbol text, none⟩

/-- Takes the name of a variable: any token at all. -/
def expectName : List Token → Except Mismatch (String × List Token)
  | t :: rest => .ok (t.text, rest)
  | [] => .error ⟨.variableName, none⟩

/-- Takes a bar if there is one. -/
def skipBar : List Token → List Token
  | t :: rest => if t.text = "|" then rest else t :: rest
  | [] => []

/-- The texts of tokens, one blank between two. -/
def join (tokens : List Token) : String :=
  " ".intercalate (tokens.map Token.text)

/-- Takes everything up to the first closing parenthesis, and the parenthesis. -/
def takeArguments (tokens : List Token) : Except Mismatch (List Token × List Token) :=
  match tokens.dropWhile (·.text != ")") with
  | [] => .error ⟨.symbol ")", none⟩
  | _ :: rest => .ok (tokens.takeWhile (·.text != ")"), rest)

/-- The tokens of an assigned expression go on to a bar or a boundary. -/
def continuesExpression (t : Token) : Bool :=
  t.text != "|" && !isBoundary t.text

/-- Takes the source of an assigned expression, and a bar behind it. -/
def takeSource (tokens : List Token) : String × List Token :=
  (join (tokens.takeWhile continuesExpression), skipBar (tokens.dropWhile continuesExpression))

/-- Takes the tokens up to the parenthesis that closes the one before them, and the parenthesis.
`depth` counts the parentheses opened since. -/
def takeMatching (depth : Nat) : List Token → List Token × List Token
  | [] => ([], [])
  | t :: rest =>
    let inside (depth : Nat) : List Token × List Token :=
      let (tokens, rest) := takeMatching depth rest
      (t :: tokens, rest)
    if t.text = "(" then inside (depth + 1)
    else if t.text = ")" then
      match depth with
      | 0 => ([], rest)
      | depth + 1 => inside depth
    else inside depth

/-- Takes a condition in parentheses and the colon behind it. -/
def takeCondition (tokens : List Token) : Except Mismatch (Expression × List Token) := do
  let (condition, rest) := takeMatching 0 (← expect "(" tokens)
  return (.compile (join condition), ← expect ":" rest)

/-- What follows the keyword of a declaration: a name in parentheses, an equals sign, and an
expression or a prompt. -/
def takeDeclaration (tag : TypeTag) (tokens : List Token) :
    Except Mismatch (Statement × List Token) := do
  let (name, tokens) ← expectName (← expect "(" tokens)
  let tokens ← expect "=" (← expect ")" tokens)
  match tokens with
  | t :: rest =>
    if t.text = "roi" then
      let (prompt, rest) ← takeArguments (← expect "(" rest)
      return (.input name tag (join prompt), skipBar rest)
    else
      let (source, rest) := takeSource tokens
      return (.assign name (some tag) (.compile source), rest)
  | [] => return (.assign name (some tag) (.compile ""), [])

/-- What follows the name and the symbol of an assignment. A combining symbol applies to the old
value and the whole expression. -/
def takeAssigned (name symbol : String) (tokens : List Token) : Statement × List Token :=
  let (source, rest) := takeSource tokens
  let source := if symbol = "" then source else name ++ " " ++ symbol ++ " ( " ++ source ++ " )"
  (.assign name none (.compile source), rest)

/-- What follows the keyword `show`: arguments in parentheses, commas between them ignored. -/
def takeOutput (tokens : List Token) : Except Mismatch (Statement × List Token) := do
  let (args, rest) ← takeArguments (← expect "(" tokens)
  return (.output ((args.map Token.text).filter (· != ",")), skipBar rest)

/-- The symbol that makes a token the name in an assignment. -/
def assigns? (t : Token) (rest : List Token) : Option (String × List Token) :=
  match rest with
  | op :: rest =>
    if t.kind = .identifier then (accumulator? op.text).map fun symbol => (symbol, rest) else none
  | [] => none

/-- The type that a token declares. -/
def declares? (t : Token) : Option TypeTag :=
  if t.kind = .keyword then TypeTag.ofKeyword? t.text else none

/-- Reads the clause that begins with a token, and what follows it. -/
def read (t : Token) (rest : List Token) : Except Mismatch (Clause × List Token) :=
  match declares? t with
  | some tag => do
    let (statement, rest) ← takeDeclaration tag rest
    return (.simple statement, rest)
  | none =>
    match assigns? t rest with
    | some (symbol, rest) =>
      let (statement, rest) := takeAssigned t.text symbol rest
      .ok (.simple statement, rest)
    | none =>
      match t.text with
      | "if" => do
        let (condition, rest) ← takeCondition rest
        return (.conditional condition, rest)
      | "loop" => do
        let (condition, rest) ← takeCondition rest
        return (.loop condition, rest)
      | "show" => do
        let (statement, rest) ← takeOutput rest
        return (.simple statement, rest)
      | "stop" => .ok (.simple .stop, skipBar rest)
      | _ => .ok (.stray, rest)

/-! ## Reading takes tokens and adds none -/

/-- A token that is needed and found is taken. -/
theorem length_of_expect {text : String} {tokens rest : List Token}
    (h : expect text tokens = .ok rest) : rest.length < tokens.length := by
  unfold expect at h
  split at h
  · split at h <;> simp_all
  · simp at h

/-- A name is one token. -/
theorem length_of_expectName {tokens rest : List Token} {name : String}
    (h : expectName tokens = .ok (name, rest)) : rest.length < tokens.length := by
  unfold expectName at h
  split at h <;> simp_all

/-- At most one bar is taken. -/
theorem length_skipBar (tokens : List Token) : (skipBar tokens).length ≤ tokens.length := by
  unfold skipBar
  split
  · split <;> simp
  · simp

/-- Arguments take their closing parenthesis with them. -/
theorem length_of_takeArguments {tokens args rest : List Token}
    (h : takeArguments tokens = .ok (args, rest)) : rest.length < tokens.length := by
  unfold takeArguments at h
  split at h
  · simp at h
  · rename_i hd
    have := (List.dropWhile_sublist (·.text != ")") (l := tokens)).length_le
    simp only [Except.ok.injEq, Prod.mk.injEq] at h
    obtain ⟨-, rfl⟩ := h
    simp only [hd, List.length_cons] at this
    omega

/-- The source of an expression may be empty. -/
theorem length_takeSource (tokens : List Token) : (takeSource tokens).2.length ≤ tokens.length :=
  Nat.le_trans (length_skipBar _) (List.dropWhile_sublist continuesExpression).length_le

/-- The parenthesis that matches may be missing. -/
theorem length_takeMatching (depth : Nat) (tokens : List Token) :
    (takeMatching depth tokens).2.length ≤ tokens.length := by
  induction tokens generalizing depth with
  | nil => simp [takeMatching]
  | cons t rest ih =>
    unfold takeMatching
    dsimp only
    split
    · exact Nat.le_succ_of_le (ih _)
    · split
      · split
        · simp
        · exact Nat.le_succ_of_le (ih _)
      · exact Nat.le_succ_of_le (ih _)

/-- A sequence of readings succeeds when each of them does. -/
theorem exists_of_bind {α β : Type} {x : Except Mismatch α} {f : α → Except Mismatch β}
    {b : β} (h : (x >>= f) = .ok b) : ∃ a, x = .ok a ∧ f a = .ok b := by
  cases x with
  | error e => cases h
  | ok a => exact ⟨a, rfl, h⟩

/-- The header of a block has a parenthesis and a colon at least. -/
theorem length_of_takeCondition {tokens rest : List Token} {condition : Expression}
    (h : takeCondition tokens = .ok (condition, rest)) : rest.length + 2 ≤ tokens.length := by
  obtain ⟨inner, h₁, h⟩ := exists_of_bind h
  obtain ⟨rest', h₂, h⟩ := exists_of_bind h
  cases h
  have := length_of_expect h₁
  have := length_of_expect h₂
  have := length_takeMatching 0 inner
  omega

/-- A declaration takes tokens and adds none. -/
theorem length_of_takeDeclaration {tag : TypeTag} {tokens rest : List Token} {s : Statement}
    (h : takeDeclaration tag tokens = .ok (s, rest)) : rest.length ≤ tokens.length := by
  obtain ⟨t₁, h₁, h⟩ := exists_of_bind h
  obtain ⟨⟨name, t₂⟩, h₂, h⟩ := exists_of_bind h
  obtain ⟨t₃, h₃, h⟩ := exists_of_bind h
  obtain ⟨t₄, h₄, h⟩ := exists_of_bind h
  have l₁ := length_of_expect h₁
  have l₂ := length_of_expectName h₂
  have l₃ := length_of_expect h₃
  have l₄ := length_of_expect h₄
  dsimp only at h
  split at h
  · rename_i t tail
    split at h
    · obtain ⟨t₅, h₅, h⟩ := exists_of_bind h
      obtain ⟨⟨prompt, t₆⟩, h₆, h⟩ := exists_of_bind h
      cases h
      have := length_of_expect h₅
      have := length_of_takeArguments h₆
      have := length_skipBar t₆
      simp only [List.length_cons] at l₄
      dsimp only at *
      omega
    · cases h
      have := length_takeSource (t :: tail)
      omega
  · cases h
    simp

/-- An output takes tokens and adds none. -/
theorem length_of_takeOutput {tokens rest : List Token} {s : Statement}
    (h : takeOutput tokens = .ok (s, rest)) : rest.length ≤ tokens.length := by
  obtain ⟨t₁, h₁, h⟩ := exists_of_bind h
  obtain ⟨⟨args, t₂⟩, h₂, h⟩ := exists_of_bind h
  cases h
  have := length_of_expect h₁
  have := length_of_takeArguments h₂
  have := length_skipBar t₂
  dsimp only at *
  omega

/-- The symbol of an assignment is taken. -/
theorem length_of_assigns? {t : Token} {tokens rest : List Token} {symbol : String}
    (h : assigns? t tokens = some (symbol, rest)) : rest.length < tokens.length := by
  unfold assigns? at h
  split at h
  · split at h
    · obtain ⟨_, -, he⟩ := Option.map_eq_some_iff.1 h
      cases he
      simp
    · simp at h
  · simp at h

/-- How many blocks a clause opens. -/
def opened : Clause → Nat
  | .conditional _ | .loop _ => 1
  | .simple _ | .stray => 0

/-- Apart from its first token a clause adds nothing to what is left to read, and a block that it
opens has cost two tokens more. -/
theorem length_of_read {t : Token} {tokens rest : List Token} {clause : Clause}
    (h : read t tokens = .ok (clause, rest)) : rest.length + 2 * clause.opened ≤ tokens.length := by
  unfold read at h
  split at h
  · obtain ⟨⟨s, rest'⟩, hd, h⟩ := exists_of_bind h
    cases h
    exact length_of_takeDeclaration hd
  · split at h
    · rename_i symbol tail ha
      cases h
      exact Nat.le_trans (length_takeSource tail) (Nat.le_of_lt (length_of_assigns? ha))
    · split at h
      · obtain ⟨⟨c, rest'⟩, hc, h⟩ := exists_of_bind h
        cases h
        exact length_of_takeCondition hc
      · obtain ⟨⟨c, rest'⟩, hc, h⟩ := exists_of_bind h
        cases h
        exact length_of_takeCondition hc
      · obtain ⟨⟨s, rest'⟩, hs, h⟩ := exists_of_bind h
        cases h
        exact length_of_takeOutput hs
      · cases h
        exact length_skipBar tokens
      · cases h
        exact Nat.le_refl _

end Clause

end Sting
