import Sting.Proofs.Statement.Blocks
import Sting.Proofs.Statement.Lines

/-!
# Reading written tokens

How the reader takes the tokens of a written clause, and what it makes of bars up to the end of the
input. Tokens that are passed over do not count, so the outcome of a run leaves them out.
-/

namespace Sting

open Token Text

namespace Clause

/-! ## Clauses in written form -/

/-- The source of an expression ends at the first token that does not go on with it. -/
theorem takeSource_append {tokens : List Token} (h : ∀ t ∈ tokens, continuesExpression t = true)
    {t : Token} (ht : continuesExpression t = false) (rest : List Token) :
    takeSource (tokens ++ t :: rest) = (join tokens, skipBar (t :: rest)) := by
  have hstop : ∀ u ∈ (t :: rest).head?, continuesExpression u = false := by
    rintro _ ⟨⟩
    exact ht
  obtain ⟨htake, hdrop⟩ := span_run h hstop
  rw [takeSource, htake, hdrop]

/-- A bar is skipped. -/
@[simp] theorem skipBar_bar (rest : List Token) : skipBar (sign '|' :: rest) = rest := by
  rw [skipBar, if_pos (by decide)]

/-- A bar ends the source and is taken with it. -/
theorem takeSource_bar {tokens : List Token} (h : ∀ t ∈ tokens, continuesExpression t = true)
    (rest : List Token) : takeSource (tokens ++ sign '|' :: rest) = (join tokens, rest) := by
  rw [takeSource_append h (by decide), skipBar_bar]

/-- No expression goes on with a request for input. -/
theorem ne_roi_of_continuesExpression {t : Token} (h : continuesExpression t = true) :
    t.text ≠ "roi" := by
  intro hroi
  rw [continuesExpression, hroi] at h
  exact absurd h (by decide)

/-- Where an expression and a bar stand, the first token is no request for input. -/
theorem head_ne_roi {tokens : List Token} (h : ∀ t ∈ tokens, continuesExpression t = true)
    (rest : List Token) : ∀ t ∈ (tokens ++ sign '|' :: rest).head?, t.text ≠ "roi" := by
  cases tokens with
  | nil =>
      rintro _ ⟨⟩
      decide
  | cons t tokens =>
      rintro _ ⟨⟩
      exact ne_roi_of_continuesExpression (h t List.mem_cons_self)

/-- Arguments end at the first closing parenthesis. -/
theorem takeArguments_append {tokens : List Token} (h : ∀ t ∈ tokens, (t.text != ")") = true)
    {close : Token} (hclose : close.text = ")") (rest : List Token) :
    takeArguments (tokens ++ close :: rest) = .ok (tokens, rest) := by
  have hstop : ∀ t ∈ (close :: rest).head?, (t.text != ")") = false := by
    rintro _ ⟨⟩
    rw [hclose]
    rfl
  obtain ⟨htake, hdrop⟩ := span_run h hstop
  rw [takeArguments, hdrop, htake]

/-- Arguments in written form end at their closing parenthesis. -/
theorem takeArguments_closing {tokens : List Token} (h : ∀ t ∈ tokens, (t.text != ")") = true)
    (rest : List Token) : takeArguments (tokens ++ sign ')' :: rest) = .ok (tokens, rest) :=
  takeArguments_append h (by decide) rest

/-- A balanced condition ends at its own parenthesis. -/
theorem takeCondition_header {tokens : List Token} (h : Balanced tokens) (rest : List Token) :
    takeCondition (sign '(' :: (tokens ++ sign ')' :: sign ':' :: rest)) =
      .ok (.compile (join tokens), rest) := by
  have hmatching := h (sign ')') (sign ':' :: rest) rfl
  unfold takeCondition
  rw [expect, if_pos (by decide)]
  change (do
    let condition ← expect ":" (takeMatching 0 (tokens ++ sign ')' :: sign ':' :: rest)).2
    pure _) = _
  rw [hmatching, expect, if_pos (by decide)]
  rfl

/-- The name of a type declares it. -/
theorem declares?_reserved (tag : TypeTag) : declares? (reserved tag.keyword) = some tag := by
  cases tag <;> decide

/-- The words that are no types begin no declaration, and no keyword begins an assignment. -/
theorem begins_reserved (word : String) (h : TypeTag.ofKeyword? word = none) (rest : List Token) :
    declares? (reserved word) = none ∧ assigns? (reserved word) rest = none := by
  have hkind : (reserved word).kind = .keyword := rfl
  constructor
  · rw [declares?, if_pos hkind, text_reserved, h]
  · cases rest with
    | nil => rfl
    | cons op rest => rw [assigns?, hkind, if_neg (by decide)]

/-- Reads the clause that a word begins, if it is the name of no variable. -/
def readKeyword (word : String) (tokens : List Token) : Except Mismatch (Clause × List Token) :=
  match word with
  | "if" => do
    let (condition, rest) ← takeCondition tokens
    return (.conditional condition, rest)
  | "loop" => do
    let (condition, rest) ← takeCondition tokens
    return (.loop condition, rest)
  | "show" => do
    let (statement, rest) ← takeOutput tokens
    return (.simple statement, rest)
  | "stop" => .ok (.simple .stop, skipBar tokens)
  | _ => .ok (.stray, tokens)

/-- Behind neither a type nor a variable a clause is read by its first word. -/
theorem read_eq_readKeyword {t : Token} {tokens : List Token} (hdeclares : declares? t = none)
    (hassigns : assigns? t tokens = none) : read t tokens = readKeyword t.text tokens := by
  rw [read, hdeclares]
  simp only [hassigns]
  rfl

/-- A keyword that is no type is the word that its clause is read by. -/
theorem read_reserved {word : String} (h : TypeTag.ofKeyword? word = none) (tokens : List Token) :
    read (reserved word) tokens = readKeyword word tokens := by
  obtain ⟨hdeclares, hassigns⟩ := begins_reserved word h tokens
  rw [read_eq_readKeyword hdeclares hassigns, text_reserved]

/-- A declaration with an expression behind the equals sign. -/
theorem read_declared {tokens rest : List Token} {source : String} (tag : TypeTag) (n : Token)
    (hroi : ∀ t ∈ tokens.head?, t.text ≠ "roi") (hsource : takeSource tokens = (source, rest)) :
    read (reserved tag.keyword) (sign '(' :: n :: sign ')' :: sign '=' :: tokens) =
      .ok (.simple (.assign n.text (some tag) (.compile source)), rest) := by
  have hdeclaration : takeDeclaration tag (sign '(' :: n :: sign ')' :: sign '=' :: tokens) =
      .ok (.assign n.text (some tag) (.compile source), rest) := by
    cases tokens with
    | nil =>
        cases hsource
        rfl
    | cons t tokens =>
        obtain ⟨hjoin, hrest⟩ := Prod.mk.inj hsource
        change (if t.text = "roi" then _ else _) = _
        rw [if_neg (hroi t rfl), hjoin, hrest]
        rfl
  rw [read, declares?_reserved]
  simp only [hdeclaration]
  rfl

/-- A declaration with a request for input behind the equals sign. -/
theorem read_input {tokens : List Token} (tag : TypeTag) (n : Token)
    (h : ∀ t ∈ tokens, (t.text != ")") = true) (rest : List Token) :
    read (reserved tag.keyword) (sign '(' :: n :: sign ')' :: sign '=' :: reserved "roi" ::
        sign '(' :: (tokens ++ sign ')' :: rest)) =
      .ok (.simple (.input n.text tag (join tokens)), skipBar rest) := by
  have hdeclaration : takeDeclaration tag (sign '(' :: n :: sign ')' :: sign '=' ::
      reserved "roi" :: sign '(' :: (tokens ++ sign ')' :: rest)) =
        .ok (.input n.text tag (join tokens), skipBar rest) := by
    change (takeArguments (tokens ++ sign ')' :: rest) >>= _) = _
    rw [takeArguments_closing h]
    rfl
  rw [read, declares?_reserved]
  simp only [hdeclaration]
  rfl

/-- An assignment to a variable without a declared type. -/
theorem read_assign {n : Token} {tokens : List Token} (hkind : n.kind = .identifier)
    (h : ∀ t ∈ tokens, continuesExpression t = true) (rest : List Token) :
    read n (sign '=' :: (tokens ++ sign '|' :: rest)) =
      .ok (.simple (.assign n.text none (.compile (join tokens))), rest) := by
  have hdeclares : declares? n = none := by
    rw [declares?, hkind, if_neg nofun]
  have hassigns : assigns? n (sign '=' :: (tokens ++ sign '|' :: rest)) =
      some ("", tokens ++ sign '|' :: rest) := by
    rw [assigns?, if_pos hkind]
    rfl
  rw [read, hdeclares]
  simp only [hassigns, takeAssigned, takeSource_bar h rest]
  rfl

/-- An output; the commas between its arguments are left out. -/
theorem read_output {tokens : List Token} (h : ∀ t ∈ tokens, (t.text != ")") = true)
    (rest : List Token) :
    read (reserved "show") (sign '(' :: (tokens ++ sign ')' :: rest)) =
      .ok (.simple (.output ((tokens.map Token.text).filter (· != ","))), skipBar rest) := by
  rw [read_reserved rfl]
  change (takeArguments (tokens ++ sign ')' :: rest) >>= _) >>= _ = _
  rw [takeArguments_closing h]
  rfl

/-- The end of a loop from within. -/
theorem read_stop (rest : List Token) :
    read (reserved "stop") (sign '|' :: rest) = .ok (.simple .stop, rest) := by
  rw [read_reserved rfl]
  change Except.ok (Clause.simple .stop, skipBar (sign '|' :: rest)) = _
  rw [skipBar_bar]

/-- The header of a block, whose keyword says of what kind the block is. -/
theorem read_header (word : String) (clause : Expression → Clause)
    (hword : TypeTag.ofKeyword? word = none)
    (hclause : ∀ tokens, readKeyword word tokens = do
      let (condition, rest) ← takeCondition tokens
      return (clause condition, rest))
    {tokens : List Token} (h : Balanced tokens) (rest : List Token) :
    read (reserved word) (sign '(' :: (tokens ++ sign ')' :: sign ':' :: rest)) =
      .ok (clause (.compile (join tokens)), rest) := by
  rw [read_reserved hword, hclause, takeCondition_header h]
  rfl

/-- A bar with only bars behind it begins no statement. -/
theorem read_bar {t : Token} {rest : List Token} (ht : t.text = "|")
    (hrest : ∀ u ∈ rest, u.text = "|") : read t rest = .ok (.stray, rest) := by
  have hdeclares : declares? t = none := by
    rw [declares?, ht]
    split <;> rfl
  have hassigns : assigns? t rest = none := by
    cases rest with
    | nil => rfl
    | cons op rest =>
        rw [assigns?, hrest op List.mem_cons_self]
        split <;> rfl
  rw [read, hdeclares]
  simp only [hassigns, ht]
  rfl

end Clause

namespace Reader

/-! ## What comes of reading -/

/-- The program that is read in the end, and the mismatch. -/
def outcome (r : Reader) (tokens : List Token) : List Statement × Option Mismatch :=
  ((r.run tokens).1.program, (r.run tokens).2)

/-- What comes of reading is what comes of it behind a step. -/
theorem outcome_of_step {r r' : Reader} {t : Token} {tokens rest : List Token}
    (h : r.step t tokens = .ok (r', rest)) : r.outcome (t :: tokens) = r'.outcome rest := by
  rw [outcome, run_of_step h, outcome]

/-- At the end of the input all open blocks are closed. -/
theorem outcome_nil (r : Reader) : r.outcome [] = (r.closeAll.program, none) := by
  rw [outcome, run]

/-- A token that ends nothing begins a clause. -/
theorem step_of_begins {r : Reader} {t : Token} (hbar : t.text ≠ "|")
    (hends : r.inBranch = true → endsBranch t.text = false) (rest : List Token) :
    r.step t rest = r.takeClause t rest := by
  obtain ⟨program, blocks, skipped⟩ := r
  cases blocks with
  | nil => simp only [step, if_neg hbar]
  | cons b outer =>
      cases b with
      | branch earlier condition body =>
          have h : ¬ endsBranch t.text = true := by simp [hends rfl]
          simp only [step, if_neg h]
      | loop condition body => simp only [step, if_neg hbar]

/-- The reader after a clause that begins with a token. -/
def accept (r : Reader) (t : Token) : Clause → Reader
  | .simple s => r.add s
  | .conditional condition => r.enter (.branch [] (some condition) [])
  | .loop condition => r.enter (.loop condition [])
  | .stray => r.skip t

/-- Taking a clause is reading it and accepting it. -/
theorem takeClause_eq_map (r : Reader) (t : Token) (tokens : List Token) :
    r.takeClause t tokens =
      (Clause.read t tokens).map fun (clause, rest) => (r.accept t clause, rest) := by
  unfold takeClause
  cases Clause.read t tokens with
  | error m => rfl
  | ok read =>
      obtain ⟨clause, rest⟩ := read
      cases clause <;> rfl

/-- No arm ends at a type. -/
theorem endsBranch_keyword (tag : TypeTag) : endsBranch (reserved tag.keyword).text = false := by
  rw [text_reserved]
  cases tag <;> rfl

/-- A clause is accepted where its first token ends nothing. -/
theorem outcome_clause {r : Reader} {t : Token} {tokens rest : List Token} {clause : Clause}
    (hread : Clause.read t tokens = .ok (clause, rest)) (hbar : t.text ≠ "|")
    (hends : r.inBranch = true → endsBranch t.text = false) :
    r.outcome (t :: tokens) = (r.accept t clause).outcome rest := by
  apply outcome_of_step
  rw [step_of_begins hbar hends, takeClause_eq_map, hread]
  rfl

/-- A statement without a body is added. -/
theorem outcome_simple {r : Reader} {t : Token} {tokens rest : List Token} {s : Statement}
    (hread : Clause.read t tokens = .ok (.simple s, rest)) (hends : endsBranch t.text = false) :
    r.outcome (t :: tokens) = (r.add s).outcome rest := by
  have hbar : t.text ≠ "|" := by
    intro h
    rw [h] at hends
    exact absurd hends (by decide)
  exact outcome_clause hread hbar fun _ => hends

/-! ## Bars up to the end -/

/-- Closing a block does not look at the tokens that were passed over. -/
theorem close_skipped (r : Reader) (tokens : List Token) :
    ({ r with skipped := tokens } : Reader).close = { r.close with skipped := tokens } := by
  obtain ⟨program, blocks, skipped⟩ := r
  match blocks with
  | [] => rfl
  | [b] => cases b <;> rfl
  | b :: b' :: outer => cases b <;> cases b' <;> rfl

/-- Passing over tokens does not change what is closed. -/
theorem closeAll_skipped (r : Reader) (tokens : List Token) :
    ({ r with skipped := tokens } : Reader).closeAll.program = r.closeAll.program := by
  have hcloses := closeAll_comm (f := fun r => { r with skipped := tokens }) (fun _ => rfl)
    (close_skipped · tokens) r
  have hprogram := congrArg Reader.program hcloses
  exact hprogram

/-- Closing one block first makes no difference. -/
theorem closeAll_close (r : Reader) : r.close.closeAll = r.closeAll := by
  cases hb : r.blocks with
  | nil =>
      have hr : r.close = r := by
        rw [close, hb]
      rw [hr]
  | cons b outer =>
      rw [closeAll_eq_iterate, closeAll_eq_iterate, length_blocks_close, hb, List.length_cons,
        Nat.add_sub_cancel, Function.iterate_succ_apply]

/-- A bar with only bars behind it closes at most the innermost block. -/
theorem exists_step_bar {t : Token} {tokens : List Token} (r : Reader) (ht : t.text = "|")
    (h : ∀ u ∈ tokens, u.text = "|") :
    ∃ r' rest, r.step t tokens = .ok (r', rest) ∧ rest <:+ tokens ∧
      r'.closeAll.program = r.closeAll.program := by
  have hclose := congrArg Reader.program (closeAll_close r)
  obtain ⟨program, blocks, skipped⟩ := r
  cases blocks with
  | nil => exact ⟨_, _, if_pos ht, List.suffix_rfl, rfl⟩
  | cons b outer =>
      cases b with
      | branch earlier condition body =>
          have hends : endsBranch t.text = true := by
            rw [ht]
            decide
          have hbar : Clause.skipBar (t :: tokens) = tokens := if_pos ht
          refine ⟨_, tokens, ?_, List.suffix_rfl, hclose⟩
          simp only [step, if_pos hends, hbar]
          cases condition with
          | none => rfl
          | some c =>
              cases tokens with
              | nil => rfl
              | cons u tail =>
                  have hu := h u List.mem_cons_self
                  have helseif : ¬ u.text = "elseif" := by
                    rw [hu]
                    decide
                  have helse : ¬ u.text = "else" := by
                    rw [hu]
                    decide
                  simp only [nextBranch, if_neg helseif, if_neg helse]
      | loop condition body =>
          cases tokens with
          | nil =>
              refine ⟨_, [], ?_, List.suffix_rfl, hclose⟩
              simp only [step, if_pos ht]
          | cons u tail =>
              have hu := h u List.mem_cons_self
              have htail : ∀ v ∈ tail, v.text = "|" := fun v hv => h v (List.mem_cons_of_mem u hv)
              have hboundary : ¬ Clause.isBoundary u.text = true := by
                rw [hu]
                decide
              refine ⟨skip ⟨program, .loop condition body :: outer, skipped⟩ u, tail, ?_,
                List.suffix_cons u tail, ?_⟩
              · simp only [step, if_pos ht, if_neg hboundary, takeClause, Clause.read_bar hu htail]
                rfl
              · rw [skip, closeAll_close]
                exact closeAll_skipped ⟨program, .loop condition body :: outer, skipped⟩ _

/-- Bars up to the end close every block. -/
theorem outcome_bars {r : Reader} {tokens : List Token} (h : ∀ t ∈ tokens, t.text = "|") :
    r.outcome tokens = (r.closeAll.program, none) := by
  -- A loop takes two bars at once, so the induction is on the number of bars that are left.
  induction hn : tokens.length using Nat.strong_induction_on generalizing r tokens with
  | _ n ih =>
      cases tokens with
      | nil => exact outcome_nil r
      | cons t tokens =>
          have ht := h t List.mem_cons_self
          have htokens : ∀ u ∈ tokens, u.text = "|" := fun u hu => h u (List.mem_cons_of_mem t hu)
          obtain ⟨r', rest, hstep, hsuffix, hprogram⟩ := exists_step_bar r ht htokens
          have hlength : rest.length < n := by
            have hle := hsuffix.length_le
            rw [List.length_cons] at hn
            omega
          have hrest : ∀ u ∈ rest, u.text = "|" := fun u hu => htokens u (hsuffix.subset hu)
          rw [outcome_of_step hstep, ih rest.length hlength hrest rfl, hprogram]

end Reader

end Sting
