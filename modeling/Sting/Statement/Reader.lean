import Sting.Diagnostic
import Sting.Statement.Clause

/-!
# Reading programs

A bar ends a statement, a branch or a loop, whichever is innermost, and a block can also end where a
keyword begins something new. The reader keeps the blocks that are still open, innermost first, and
takes one clause at a time; each step takes a token or closes a block, so reading ends.
-/

namespace Sting

/-- Tokens that are no program: what was needed, the text found instead, none at the end of the
input, and where. -/
structure SyntaxError where
  expected : Expected
  found : Option String
  position : Position
deriving DecidableEq, Repr

namespace SyntaxError

/-- A mismatch with its place; the end of the input is at `finish`. -/
def ofMismatch (finish : Position) (m : Mismatch) : SyntaxError :=
  match m.found with
  | some t => ⟨m.expected, some t.text, t.position⟩
  | none => ⟨m.expected, none, finish⟩

/-- What the message says. -/
def text (e : SyntaxError) : String :=
  "Expected " ++ e.expected.render ++ " but got '" ++ e.found.getD "EOF" ++ "'"

/-- The error as it is reported. -/
def diagnostic (e : SyntaxError) : Diagnostic :=
  .about .syntaxError e.text (some e.position)

end SyntaxError

/-- A block whose end has not been reached. Statements and arms stand in reverse order. -/
inductive Block where
  /-- An arm of a conditional, after the arms that are complete. -/
  | branch (earlier : List (Branch Statement)) (condition : Option Expression)
      (body : List Statement)
  | loop (condition : Expression) (body : List Statement)

/-- The state of the reader. All lists have the latest entry first. -/
structure Reader where
  /-- The complete statements outside of all blocks. -/
  program : List Statement
  /-- The open blocks. -/
  blocks : List Block
  /-- The tokens that began no statement. -/
  skipped : List Token

namespace Reader

/-- Nothing is read yet. -/
def start : Reader :=
  ⟨[], [], []⟩

/-- Adds a complete statement to the innermost block. -/
def add (r : Reader) (s : Statement) : Reader :=
  match r.blocks with
  | [] => { r with program := s :: r.program }
  | .branch earlier condition body :: outer =>
    { r with blocks := .branch earlier condition (s :: body) :: outer }
  | .loop condition body :: outer => { r with blocks := .loop condition (s :: body) :: outer }

/-- Opens a block. -/
def enter (r : Reader) (b : Block) : Reader :=
  { r with blocks := b :: r.blocks }

/-- Ends the innermost block, which becomes a statement of the one around it. -/
def close (r : Reader) : Reader :=
  match r.blocks with
  | [] => r
  | .branch earlier condition body :: outer =>
    add { r with blocks := outer } (.conditional (⟨condition, body.reverse⟩ :: earlier).reverse)
  | .loop condition body :: outer => add { r with blocks := outer } (.loop condition body.reverse)

/-- Passes over a token that begins no statement. A loop ends there. -/
def skip (r : Reader) (t : Token) : Reader :=
  let passed := { r with skipped := t :: r.skipped }
  match r.blocks with
  | .loop .. :: _ => passed.close
  | _ => passed

/-- Takes the clause that begins with a token. -/
def takeClause (r : Reader) (t : Token) (rest : List Token) :
    Except Mismatch (Reader × List Token) := do
  let (clause, rest) ← Clause.read t rest
  return match clause with
    | .simple s => (r.add s, rest)
    | .conditional condition => (r.enter (.branch [] (some condition) []), rest)
    | .loop condition => (r.enter (.loop condition []), rest)
    | .stray => (r.skip t, rest)

/-- The texts that end the body of an arm. -/
def endsBranch (text : String) : Bool :=
  ["|", "elseif", "else", "if"].contains text

/-- Goes on after the body of an arm: with another arm of the same conditional, or after it. An
`else` arm is the last one. -/
def nextBranch (r : Reader) (tokens : List Token) : Except Mismatch (Reader × List Token) :=
  match r.blocks, tokens with
  | .branch earlier (some condition) body :: outer, t :: rest =>
    let earlier := ⟨some condition, body.reverse⟩ :: earlier
    if t.text = "elseif" then do
      let (condition, rest) ← Clause.takeCondition rest
      return ({ r with blocks := .branch earlier (some condition) [] :: outer }, rest)
    else if t.text = "else" then do
      let rest ← Clause.expect ":" rest
      return ({ r with blocks := .branch earlier none [] :: outer }, rest)
    else .ok (r.close, tokens)
  | _, _ => .ok (r.close, tokens)

/-- One step at a token. Outside of all blocks bars are ignored; the body of a loop ends at a bar
with a boundary or nothing behind it, and any other bar in it is ignored. -/
def step (r : Reader) (t : Token) (rest : List Token) : Except Mismatch (Reader × List Token) :=
  match r.blocks with
  | [] => if t.text = "|" then .ok (r, rest) else r.takeClause t rest
  | .branch .. :: _ =>
    if endsBranch t.text then r.nextBranch (Clause.skipBar (t :: rest)) else r.takeClause t rest
  | .loop .. :: _ =>
    if t.text = "|" then
      match rest with
      | [] => .ok (r.close, [])
      | u :: rest =>
        if Clause.isBoundary u.text then .ok (r.close, u :: rest) else r.takeClause u rest
    else r.takeClause t rest

/-! ## Reading ends -/

/-- Adding a statement opens and closes nothing. -/
@[simp] theorem length_blocks_add (r : Reader) (s : Statement) :
    (r.add s).blocks.length = r.blocks.length := by
  unfold add
  split <;> simp_all

/-- A block that is entered is one more open block. -/
@[simp] theorem length_blocks_enter (r : Reader) (b : Block) :
    (r.enter b).blocks.length = r.blocks.length + 1 := rfl

/-- At most one block is closed. -/
@[simp] theorem length_blocks_close (r : Reader) :
    r.close.blocks.length = r.blocks.length - 1 := by
  unfold close
  split <;> simp_all

/-- A token that is passed over opens nothing. -/
theorem length_blocks_skip (r : Reader) (t : Token) :
    (r.skip t).blocks.length ≤ r.blocks.length := by
  unfold skip
  split <;> simp

/-- How a step brings the reader on: it closes a block, takes a token, or takes the header of a
block, which has three tokens at least. -/
inductive Progress (r : Reader) (tokens : List Token) (r' : Reader) (rest : List Token) : Prop
  | closes (hblocks : r'.blocks.length < r.blocks.length) (hrest : rest.length ≤ tokens.length)
  | takes (hblocks : r'.blocks.length ≤ r.blocks.length) (hrest : rest.length < tokens.length)
  | opens (hblocks : r'.blocks.length = r.blocks.length + 1)
      (hrest : rest.length + 3 ≤ tokens.length)

/-- Tokens that are passed over first only add to it. -/
theorem Progress.of_le {r r' : Reader} {tokens tokens' rest : List Token}
    (h : r.Progress tokens r' rest) (hle : tokens.length ≤ tokens'.length) :
    r.Progress tokens' r' rest := by
  cases h with
  | closes hblocks hrest => exact .closes hblocks (Nat.le_trans hrest hle)
  | takes hblocks hrest => exact .takes hblocks (Nat.lt_of_lt_of_le hrest hle)
  | opens hblocks hrest => exact .opens hblocks (Nat.le_trans hrest hle)

/-- Closing a block is progress of its own. -/
theorem progress_close {r : Reader} {tokens rest : List Token} (hr : r.blocks ≠ [])
    (hrest : rest.length ≤ tokens.length) : r.Progress tokens r.close rest := by
  have := List.length_pos_iff.2 hr
  refine .closes ?_ hrest
  rw [length_blocks_close]
  omega

/-- A clause takes its first token, and its header if it opens a block. -/
theorem progress_of_takeClause {r r' : Reader} {t : Token} {tokens rest : List Token}
    (h : r.takeClause t tokens = .ok (r', rest)) : r.Progress (t :: tokens) r' rest := by
  obtain ⟨⟨clause, tail⟩, hc, h⟩ := Clause.exists_of_bind h
  have hl := Clause.length_of_read hc
  cases clause with
  | simple s =>
    cases h
    exact .takes (Nat.le_of_eq (length_blocks_add r s)) (Nat.lt_succ_of_le hl)
  | conditional c =>
    cases h
    exact .opens (length_blocks_enter r _) (Nat.succ_le_succ hl)
  | loop c =>
    cases h
    exact .opens (length_blocks_enter r _) (Nat.succ_le_succ hl)
  | stray =>
    cases h
    exact .takes (r.length_blocks_skip t) (Nat.lt_succ_of_le hl)

/-- Behind the body of an arm a further arm takes its keyword; otherwise a block is closed. -/
theorem progress_of_nextBranch {r r' : Reader} {tokens rest : List Token} (hr : r.blocks ≠ [])
    (h : r.nextBranch tokens = .ok (r', rest)) : r.Progress tokens r' rest := by
  unfold nextBranch at h
  split at h
  · rename_i hb
    dsimp only at h
    split at h
    · obtain ⟨⟨c, tail⟩, hc, h⟩ := Clause.exists_of_bind h
      cases h
      have := Clause.length_of_takeCondition hc
      refine .takes (by simp [hb]) ?_
      simp only [List.length_cons]
      omega
    · split at h
      · obtain ⟨tail, hc, h⟩ := Clause.exists_of_bind h
        cases h
        exact .takes (by simp [hb]) (Nat.lt_succ_of_lt (Clause.length_of_expect hc))
      · cases h
        exact progress_close hr (Nat.le_refl _)
  · cases h
    exact progress_close hr (Nat.le_refl _)

/-- No step leaves both the tokens and the blocks as they were. -/
theorem progress_of_step {r r' : Reader} {t : Token} {tokens rest : List Token}
    (h : r.step t tokens = .ok (r', rest)) : r.Progress (t :: tokens) r' rest := by
  unfold step at h
  split at h
  · split at h
    · cases h
      exact .takes (Nat.le_refl _) (Nat.lt_succ_self _)
    · exact progress_of_takeClause h
  · rename_i hb
    have hr : r.blocks ≠ [] := by simp [hb]
    split at h
    · exact (progress_of_nextBranch hr h).of_le (Clause.length_skipBar (t :: tokens))
    · exact progress_of_takeClause h
  · rename_i hb
    have hr : r.blocks ≠ [] := by simp [hb]
    split at h
    · split at h
      · cases h
        exact progress_close hr (Nat.zero_le _)
      · rename_i u tail
        split at h
        · cases h
          exact progress_close hr (Nat.le_succ _)
        · exact (progress_of_takeClause h).of_le (Nat.le_succ _)
    · exact progress_of_takeClause h

/-- What is left to do: every token may open a block. -/
def size (r : Reader) (tokens : List Token) : Nat :=
  2 * tokens.length + r.blocks.length

/-- Every step leaves less to do. -/
theorem size_of_step {r r' : Reader} {t : Token} {tokens rest : List Token}
    (h : r.step t tokens = .ok (r', rest)) : r'.size rest < r.size (t :: tokens) := by
  unfold size
  cases progress_of_step h <;> omega

/-- Ends every open block. -/
def closeAll (r : Reader) : Reader :=
  r.blocks.foldl (fun r _ => r.close) r

/-- Reads all tokens. The reader that is returned with a mismatch is the one that met it. -/
def run (r : Reader) : List Token → Reader × Option Mismatch
  | [] => (r.closeAll, none)
  | t :: rest =>
    match h : r.step t rest with
    | .error mismatch => (r, some mismatch)
    | .ok (r', rest') =>
      have := size_of_step h
      r'.run rest'
termination_by tokens => r.size tokens

end Reader

/-- What came of reading a sequence of tokens. -/
structure Reading where
  program : Except SyntaxError (List Statement)
  /-- The tokens that began no statement, in order. -/
  skipped : List Token

/-- Reads a program. At the end of the input every open block ends. -/
def Reading.ofTokens (tokens : List Token) : Reading :=
  let (reader, mismatch) := Reader.start.run tokens
  { program :=
      match mismatch with
      | none => .ok reader.program.reverse
      | some mismatch => .error (.ofMismatch (Token.endPosition tokens) mismatch)
    skipped := reader.skipped.reverse }

/-- The program that a sequence of tokens spells. -/
def Statement.read (tokens : List Token) : Except SyntaxError (List Statement) :=
  (Reading.ofTokens tokens).program

end Sting
