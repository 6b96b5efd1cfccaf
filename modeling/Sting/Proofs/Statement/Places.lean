import Mathlib.Data.List.Basic
import Mathlib.Logic.Function.Iterate
import Sting.Proofs.Token.Spelling
import Sting.Statement.Reader

/-!
# Reading without places

Places of tokens only tell where a mismatch is. Each function of the reader commutes with taking the
places away, so tokens with the same kinds and texts are read as the same program.
-/

namespace Sting

open Token

/-- The same mismatch at a token without its place. -/
def Mismatch.unplaced (m : Mismatch) : Mismatch :=
  ⟨m.expected, m.found.map Token.unplaced⟩

namespace Clause

/-- Changes what was read; a mismatch loses its place. -/
def relocate {α β : Type} (f : α → β) : Except Mismatch α → Except Mismatch β
  | .ok a => .ok (f a)
  | .error m => .error m.unplaced

/-- Sequences of readings relocate step by step. -/
theorem relocate_bind {α β γ δ : Type} {f : α → γ} {g : β → δ} {x : Except Mismatch α}
    {k : α → Except Mismatch β} {k' : γ → Except Mismatch δ}
    (h : ∀ a, k' (f a) = relocate g (k a)) :
    relocate f x >>= k' = relocate g (x >>= k) := by
  cases x with
  | ok a => exact h a
  | error m => rfl

/-- A token is needed for its text, not for its place. -/
theorem expect_unplaced (text : String) (tokens : List Token) :
    expect text (tokens.map unplaced) =
      relocate (List.map unplaced) (expect text tokens) := by
  cases tokens with
  | nil => rfl
  | cons t rest =>
      by_cases h : t.text = text
      · have h' : t.unplaced.text = text := h
        rw [List.map_cons, expect, expect, if_pos h, if_pos h']
        rfl
      · have h' : ¬ t.unplaced.text = text := h
        rw [List.map_cons, expect, expect, if_neg h, if_neg h']
        rfl

/-- A name is needed for its text, not for its place. -/
theorem expectName_unplaced (tokens : List Token) :
    expectName (tokens.map unplaced) =
      relocate (Prod.map id (List.map unplaced)) (expectName tokens) := by
  cases tokens <;> rfl

/-- A bar is a bar wherever it stands. -/
theorem skipBar_unplaced (tokens : List Token) :
    skipBar (tokens.map unplaced) = (skipBar tokens).map unplaced := by
  cases tokens with
  | nil => rfl
  | cons t rest =>
      by_cases h : t.text = "|"
      · have h' : t.unplaced.text = "|" := h
        rw [List.map_cons, skipBar, skipBar, if_pos h, if_pos h']
      · have h' : ¬ t.unplaced.text = "|" := h
        rw [List.map_cons, skipBar, skipBar, if_neg h, if_neg h', List.map_cons]

/-- A source is joined from texts alone. -/
theorem join_unplaced (tokens : List Token) : join (tokens.map unplaced) = join tokens := by
  rw [join, List.map_map]
  rfl

/-- Arguments end at a text. -/
theorem takeArguments_unplaced (tokens : List Token) :
    takeArguments (tokens.map unplaced) =
      relocate (Prod.map (List.map unplaced) (List.map unplaced)) (takeArguments tokens) := by
  have htake : (tokens.map unplaced).takeWhile (·.text != ")") =
      (tokens.takeWhile (·.text != ")")).map unplaced :=
    List.takeWhile_map
  have hdrop : (tokens.map unplaced).dropWhile (·.text != ")") =
      (tokens.dropWhile (·.text != ")")).map unplaced :=
    List.dropWhile_map
  unfold takeArguments
  rw [htake, hdrop]
  cases tokens.dropWhile (·.text != ")") <;> rfl

/-- The source of an expression ends at a text. -/
theorem takeSource_unplaced (tokens : List Token) :
    takeSource (tokens.map unplaced) = Prod.map id (List.map unplaced) (takeSource tokens) := by
  have htake : (tokens.map unplaced).takeWhile continuesExpression =
      (tokens.takeWhile continuesExpression).map unplaced :=
    List.takeWhile_map
  have hdrop : (tokens.map unplaced).dropWhile continuesExpression =
      (tokens.dropWhile continuesExpression).map unplaced :=
    List.dropWhile_map
  rw [takeSource, htake, hdrop, join_unplaced, skipBar_unplaced]
  rfl

/-- Parentheses match by their texts. -/
theorem takeMatching_unplaced (depth : Nat) (tokens : List Token) :
    takeMatching depth (tokens.map unplaced) =
      Prod.map (List.map unplaced) (List.map unplaced) (takeMatching depth tokens) := by
  induction tokens generalizing depth with
  | nil => rfl
  | cons t rest ih =>
      simp only [List.map_cons, takeMatching, text_unplaced, ih]
      split
      · rfl
      · split
        · cases depth <;> rfl
        · rfl

/-- Places do not matter in a condition. -/
theorem takeCondition_unplaced (tokens : List Token) :
    takeCondition (tokens.map unplaced) =
      relocate (Prod.map id (List.map unplaced)) (takeCondition tokens) := by
  unfold takeCondition
  rw [expect_unplaced]
  refine relocate_bind ?_
  intro rest
  simp only [takeMatching_unplaced, Prod.map_fst, Prod.map_snd, join_unplaced, expect_unplaced]
  refine relocate_bind ?_
  intro rest
  rfl

/-- Places do not matter in a declaration. -/
theorem takeDeclaration_unplaced (tag : TypeTag) (tokens : List Token) :
    takeDeclaration tag (tokens.map unplaced) =
      relocate (Prod.map id (List.map unplaced)) (takeDeclaration tag tokens) := by
  unfold takeDeclaration
  rw [expect_unplaced]
  refine relocate_bind ?_
  intro rest
  rw [expectName_unplaced]
  refine relocate_bind ?_
  rintro ⟨name, rest⟩
  simp only [Prod.map_fst, Prod.map_snd, expect_unplaced]
  refine relocate_bind ?_
  intro rest
  simp only [expect_unplaced]
  refine relocate_bind ?_
  intro rest
  cases rest with
  | nil => rfl
  | cons t rest =>
      simp only [List.map_cons, text_unplaced]
      split
      · rw [expect_unplaced]
        refine relocate_bind ?_
        intro rest
        rw [takeArguments_unplaced]
        refine relocate_bind ?_
        rintro ⟨prompt, rest⟩
        simp only [Prod.map_fst, Prod.map_snd, join_unplaced, skipBar_unplaced]
        rfl
      · rw [← List.map_cons, takeSource_unplaced]
        rfl

/-- Places do not matter behind the symbol of an assignment. -/
theorem takeAssigned_unplaced (name symbol : String) (tokens : List Token) :
    takeAssigned name symbol (tokens.map unplaced) =
      Prod.map id (List.map unplaced) (takeAssigned name symbol tokens) := by
  rw [takeAssigned, takeSource_unplaced]
  rfl

/-- Places do not matter in an output. -/
theorem takeOutput_unplaced (tokens : List Token) :
    takeOutput (tokens.map unplaced) =
      relocate (Prod.map id (List.map unplaced)) (takeOutput tokens) := by
  unfold takeOutput
  rw [expect_unplaced]
  refine relocate_bind ?_
  intro rest
  rw [takeArguments_unplaced]
  refine relocate_bind ?_
  rintro ⟨args, rest⟩
  simp only [Prod.map_fst, Prod.map_snd, skipBar_unplaced, List.map_map]
  rfl

/-- An assignment is recognized by kinds and texts. -/
theorem assigns?_unplaced (t : Token) (rest : List Token) :
    assigns? t.unplaced (rest.map unplaced) =
      (assigns? t rest).map (Prod.map id (List.map unplaced)) := by
  cases rest with
  | nil => rfl
  | cons op rest =>
      by_cases h : t.kind = .identifier
      · have h' : t.unplaced.kind = .identifier := h
        rw [List.map_cons, assigns?, assigns?, if_pos h, if_pos h', Option.map_map]
        rfl
      · have h' : ¬ t.unplaced.kind = .identifier := h
        rw [List.map_cons, assigns?, assigns?, if_neg h, if_neg h', Option.map_none]

/-- A clause is the same without places, and its mismatch is at the same token. -/
theorem read_unplaced (t : Token) (rest : List Token) :
    read t.unplaced (rest.map unplaced) =
      relocate (Prod.map id (List.map unplaced)) (read t rest) := by
  have hd : declares? t.unplaced = declares? t := rfl
  unfold read
  rw [hd, assigns?_unplaced]
  cases declares? t with
  | some tag =>
      simp only [takeDeclaration_unplaced]
      refine relocate_bind ?_
      rintro ⟨s, rest⟩
      rfl
  | none =>
      cases assigns? t rest with
      | some assigned =>
          simp only [Option.map_some, Prod.map, text_unplaced, takeAssigned_unplaced]
          rfl
      | none =>
          simp only [Option.map_none, text_unplaced]
          split
          · rw [takeCondition_unplaced]
            refine relocate_bind ?_
            rintro ⟨condition, rest⟩
            rfl
          · rw [takeCondition_unplaced]
            refine relocate_bind ?_
            rintro ⟨condition, rest⟩
            rfl
          · rw [takeOutput_unplaced]
            refine relocate_bind ?_
            rintro ⟨s, rest⟩
            rfl
          · rw [skipBar_unplaced]
            rfl
          · rfl

end Clause

namespace Reader

/-- The same reader with the places of the skipped tokens taken away. -/
def unplaced (r : Reader) : Reader :=
  { r with skipped := r.skipped.map Token.unplaced }

/-- Statements have no places. -/
theorem add_unplaced (r : Reader) (s : Statement) : r.unplaced.add s = (r.add s).unplaced := by
  obtain ⟨program, blocks, skipped⟩ := r
  cases blocks with
  | nil => rfl
  | cons b outer => cases b <;> rfl

/-- Blocks have no places. -/
theorem close_unplaced (r : Reader) : r.unplaced.close = r.close.unplaced := by
  obtain ⟨program, blocks, skipped⟩ := r
  cases blocks with
  | nil => rfl
  | cons b outer =>
      cases b with
      | branch earlier condition body => exact add_unplaced ⟨program, outer, skipped⟩ _
      | loop condition body => exact add_unplaced ⟨program, outer, skipped⟩ _

/-- A token that is passed over is kept, and loses its place with the others. -/
theorem skip_unplaced (r : Reader) (t : Token) :
    r.unplaced.skip t.unplaced = (r.skip t).unplaced := by
  obtain ⟨program, blocks, skipped⟩ := r
  cases blocks with
  | nil => rfl
  | cons b outer =>
      cases b with
      | branch earlier condition body => rfl
      | loop condition body =>
          exact close_unplaced ⟨program, .loop condition body :: outer, t :: skipped⟩

/-- The reader takes a clause for its kinds and texts. -/
theorem takeClause_unplaced (r : Reader) (t : Token) (rest : List Token) :
    r.unplaced.takeClause t.unplaced (rest.map Token.unplaced) =
      Clause.relocate (Prod.map unplaced (List.map Token.unplaced)) (r.takeClause t rest) := by
  unfold takeClause
  rw [Clause.read_unplaced]
  refine Clause.relocate_bind ?_
  rintro ⟨clause, rest⟩
  cases clause with
  | simple s =>
      simp only [Prod.map, add_unplaced]
      rfl
  | conditional condition => rfl
  | loop condition => rfl
  | stray =>
      simp only [Prod.map, skip_unplaced]
      rfl

/-- The reader takes another arm for its kinds and texts. -/
theorem nextBranch_unplaced (r : Reader) (tokens : List Token) :
    r.unplaced.nextBranch (tokens.map Token.unplaced) =
      Clause.relocate (Prod.map unplaced (List.map Token.unplaced)) (r.nextBranch tokens) := by
  have hclose : (.ok (r.unplaced.close, tokens.map Token.unplaced) :
      Except Mismatch (Reader × List Token)) =
        Clause.relocate (Prod.map unplaced (List.map Token.unplaced)) (.ok (r.close, tokens)) := by
    rw [close_unplaced]
    rfl
  obtain ⟨program, blocks, skipped⟩ := r
  match blocks, tokens with
  | [], _ => exact hclose
  | .loop .. :: _, _ => exact hclose
  | .branch _ none _ :: _, _ => exact hclose
  | .branch _ (some _) _ :: _, [] => exact hclose
  | .branch earlier (some condition) body :: outer, t :: rest =>
      by_cases h₁ : t.text = "elseif"
      · have h₁' : t.unplaced.text = "elseif" := h₁
        simp only [nextBranch, unplaced, List.map_cons, if_pos h₁, if_pos h₁',
          Clause.takeCondition_unplaced]
        refine Clause.relocate_bind ?_
        rintro ⟨condition, rest⟩
        rfl
      · have h₁' : ¬ t.unplaced.text = "elseif" := h₁
        by_cases h₂ : t.text = "else"
        · have h₂' : t.unplaced.text = "else" := h₂
          simp only [nextBranch, unplaced, List.map_cons, if_neg h₁, if_neg h₁', if_pos h₂,
            if_pos h₂', Clause.expect_unplaced]
          refine Clause.relocate_bind ?_
          intro rest
          rfl
        · have h₂' : ¬ t.unplaced.text = "else" := h₂
          simp only [nextBranch, unplaced, List.map_cons, if_neg h₁, if_neg h₁', if_neg h₂,
            if_neg h₂']
          exact hclose

/-- A step does not depend on places. -/
theorem step_unplaced (r : Reader) (t : Token) (rest : List Token) :
    r.unplaced.step t.unplaced (rest.map Token.unplaced) =
      Clause.relocate (Prod.map unplaced (List.map Token.unplaced)) (r.step t rest) := by
  have hclause := takeClause_unplaced r
  have hclose (tokens : List Token) : (.ok (r.unplaced.close, tokens.map Token.unplaced) :
      Except Mismatch (Reader × List Token)) =
        Clause.relocate (Prod.map unplaced (List.map Token.unplaced)) (.ok (r.close, tokens)) := by
    rw [close_unplaced]
    rfl
  have hnext := nextBranch_unplaced r
  obtain ⟨program, blocks, skipped⟩ := r
  match blocks with
  | [] =>
      by_cases h : t.text = "|"
      · have h' : t.unplaced.text = "|" := h
        simp only [step, unplaced, if_pos h, if_pos h']
        rfl
      · have h' : ¬ t.unplaced.text = "|" := h
        simp only [step, unplaced, if_neg h, if_neg h']
        exact hclause t rest
  | .branch .. :: _ =>
      by_cases h : endsBranch t.text = true
      · have h' : endsBranch t.unplaced.text = true := h
        simp only [step, unplaced, if_pos h, if_pos h', ← List.map_cons, Clause.skipBar_unplaced]
        exact hnext (Clause.skipBar (t :: rest))
      · have h' : ¬ endsBranch t.unplaced.text = true := h
        simp only [step, unplaced, if_neg h, if_neg h']
        exact hclause t rest
  | .loop .. :: _ =>
      by_cases h : t.text = "|"
      · have h' : t.unplaced.text = "|" := h
        simp only [step, unplaced, if_pos h, if_pos h']
        cases rest with
        | nil => exact hclose []
        | cons u rest =>
            by_cases hu : Clause.isBoundary u.text = true
            · have hu' : Clause.isBoundary u.unplaced.text = true := hu
              simp only [List.map_cons, if_pos hu, if_pos hu']
              exact hclose (u :: rest)
            · have hu' : ¬ Clause.isBoundary u.unplaced.text = true := hu
              simp only [List.map_cons, if_neg hu, if_neg hu']
              exact hclause u rest
      · have h' : ¬ t.unplaced.text = "|" := h
        simp only [step, unplaced, if_neg h, if_neg h']
        exact hclause t rest

/-- All blocks are closed by closing as often as there are blocks. -/
theorem closeAll_eq_iterate (r : Reader) : r.closeAll = Reader.close^[r.blocks.length] r :=
  List.foldl_const Reader.close r r.blocks

/-- What commutes with ending a block commutes with ending all of them. -/
theorem closeAll_comm {f : Reader → Reader} (hblocks : ∀ r, (f r).blocks = r.blocks)
    (hclose : ∀ r, (f r).close = f r.close) (r : Reader) : (f r).closeAll = f r.closeAll := by
  have hcommutes : Function.Semiconj f Reader.close Reader.close := fun r => (hclose r).symm
  rw [closeAll_eq_iterate, closeAll_eq_iterate, hblocks]
  exact (hcommutes.iterate_right r.blocks.length r).symm

/-- Closing all blocks does not depend on places. -/
theorem closeAll_unplaced (r : Reader) : r.unplaced.closeAll = r.closeAll.unplaced :=
  closeAll_comm (f := unplaced) (fun _ => rfl) close_unplaced r

/-- A step that succeeds leads on. -/
theorem run_of_step {r r' : Reader} {t : Token} {rest rest' : List Token}
    (h : r.step t rest = .ok (r', rest')) : r.run (t :: rest) = r'.run rest' := by
  rw [run]
  split
  · rename_i hm
    rw [h] at hm
    cases hm
  · rename_i hm
    rw [h] at hm
    cases hm
    rfl

/-- A step that fails is the last one. -/
theorem run_of_mismatch {r : Reader} {t : Token} {rest : List Token} {m : Mismatch}
    (h : r.step t rest = .error m) : r.run (t :: rest) = (r, some m) := by
  rw [run]
  split
  · rename_i hm
    rw [h] at hm
    cases hm
    rfl
  · rename_i hm
    rw [h] at hm
    cases hm

/-- A whole run reads the same without places. -/
theorem run_unplaced (r : Reader) (tokens : List Token) :
    r.unplaced.run (tokens.map Token.unplaced) =
      ((r.run tokens).1.unplaced, (r.run tokens).2.map Mismatch.unplaced) := by
  fun_induction run r tokens with
  | case1 r =>
      rw [List.map_nil, run, closeAll_unplaced]
      rfl
  | case2 r t rest m h =>
      have hstep := step_unplaced r t rest
      rw [h] at hstep
      rw [List.map_cons, run_of_mismatch hstep]
      rfl
  | case3 r t rest r' rest' h hsize ih =>
      have hstep := step_unplaced r t rest
      rw [h] at hstep
      rw [List.map_cons, run_of_step hstep]
      exact ih

end Reader

/-- A program is read when the run meets no mismatch. -/
theorem Statement.read_eq_ok_iff {tokens : List Token} {program : List Statement} :
    Statement.read tokens = .ok program ↔ (Reader.start.run tokens).2 = none ∧
      (Reader.start.run tokens).1.program.reverse = program := by
  unfold Statement.read Reading.ofTokens
  obtain ⟨r, mismatch⟩ := Reader.start.run tokens
  cases mismatch with
  | none => simp
  | some m => simp

/-- Tokens with the same kinds and texts are read as the same program. -/
theorem Statement.read_eq_ok_unplaced {tokens : List Token} {program : List Statement} :
    Statement.read (tokens.map unplaced) = .ok program ↔ Statement.read tokens = .ok program := by
  have hrun : Reader.start.run (tokens.map unplaced) =
      ((Reader.start.run tokens).1.unplaced, (Reader.start.run tokens).2.map Mismatch.unplaced) :=
    Reader.run_unplaced .start tokens
  rw [read_eq_ok_iff, read_eq_ok_iff, hrun, Option.map_eq_none_iff]
  rfl

end Sting
