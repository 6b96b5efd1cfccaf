import Sting.Proofs.Statement.Written

/-!
# How far the reader looks

Reading takes tokens off the head of a list and looks at most at one token more. So a token that
does not fit is reported whatever follows it, and what was read before it does not depend on what
follows either. Where the tokens come to an end instead, a bar would have done the same.
-/

namespace Sting

/-- A bar as it stands between statements. -/
def Token.IsBar (t : Token) : Prop :=
  t.kind = .symbol ∧ t.text = "|"

namespace Clause

/-- What comes of reading some tokens, with the part of them that decides it. Results that are the
`same` need not be told apart. -/
inductive Decided {α : Type} (same : α → α → Prop)
    (f : List Token → Except Mismatch (α × List Token)) (tokens : List Token) : Prop
  /-- Tokens are left, and none but the first of them has been looked at. -/
  | leaves (taken : List Token) (next : Token) (rest : List Token) (a : α)
      (htokens : tokens = taken ++ next :: rest)
      (h : ∀ rest, f (taken ++ next :: rest) = .ok (a, next :: rest))
  /-- All tokens are taken. A bar behind them would be left, or it would be taken with them. -/
  | takes (a : α) (h : f tokens = .ok (a, []))
      (hbar : ∀ bar rest, bar.IsBar → ∃ a', same a a' ∧
        (f (tokens ++ bar :: rest) = .ok (a', bar :: rest) ∨
          f (tokens ++ bar :: rest) = .ok (a', rest)))
  /-- A token does not fit, and nothing behind it has been looked at. -/
  | stops (taken : List Token) (t : Token) (rest : List Token) (expected : Expected)
      (htokens : tokens = taken ++ t :: rest)
      (h : ∀ rest, f (taken ++ t :: rest) = .error ⟨expected, some t⟩)
  /-- The tokens come to an end too early. -/
  | ends (expected : Expected) (h : f tokens = .error ⟨expected, none⟩)

variable {α β : Type} {same : α → α → Prop} {f g : List Token → Except Mismatch (α × List Token)}

/-- Tokens that are taken first do not change what comes of the others. -/
theorem Decided.after {rest : List Token} (h : Decided same g rest) (taken : List Token)
    (hf : ∀ tokens, f (taken ++ tokens) = g tokens) : Decided same f (taken ++ rest) := by
  cases h with
  | leaves taken' next rest' a htokens h =>
      refine .leaves (taken ++ taken') next rest' a ?_ ?_
      · rw [htokens, List.append_assoc]
      · intro rest
        rw [List.append_assoc, hf, h]
  | takes a h hbar =>
      refine .takes a (by rw [hf, h]) ?_
      intro bar more hb
      rw [List.append_assoc, hf]
      exact hbar bar more hb
  | stops taken' t rest' expected htokens h =>
      refine .stops (taken ++ taken') t rest' expected ?_ ?_
      · rw [htokens, List.append_assoc]
      · intro rest
        rw [List.append_assoc, hf, h]
  | ends expected h => exact .ends expected (by rw [hf, h])

/-- The first token decides which function reads. -/
theorem Decided.of_head {op : Token} {rest : List Token} (h : Decided same g (op :: rest))
    (hf : ∀ tokens, f (op :: tokens) = g (op :: tokens)) : Decided same f (op :: rest) := by
  have hhead {taken rest' : List Token} {t : Token} (htokens : op :: rest = taken ++ t :: rest')
      (more : List Token) : ∃ tail, taken ++ t :: more = op :: tail := by
    cases taken with
    | nil =>
        cases htokens
        exact ⟨more, rfl⟩
    | cons u taken =>
        cases htokens
        exact ⟨taken ++ t :: more, rfl⟩
  cases h with
  | leaves taken next rest' a htokens h =>
      refine .leaves taken next rest' a htokens ?_
      intro more
      obtain ⟨tail, htail⟩ := hhead htokens more
      rw [htail, hf, ← htail, h]
  | takes a h hbar =>
      refine .takes a (by rw [hf, h]) ?_
      intro bar more hb
      rw [List.cons_append, hf, ← List.cons_append]
      exact hbar bar more hb
  | stops taken t rest' expected htokens h =>
      refine .stops taken t rest' expected htokens ?_
      intro more
      obtain ⟨tail, htail⟩ := hhead htokens more
      rw [htail, hf, ← htail, h]
  | ends expected h => exact .ends expected (by rw [hf, h])

/-- Without tokens, a bar is all that can follow. -/
theorem Decided.of_nil (h : Decided same g []) (hf : f [] = g [])
    (hbar : ∀ bar rest, bar.IsBar → f (bar :: rest) = g (bar :: rest)) : Decided same f [] := by
  cases h with
  | leaves taken next rest a htokens h => cases taken <;> cases htokens
  | takes a h hbar' =>
      refine .takes a (hf.trans h) ?_
      intro bar rest hb
      obtain ⟨a', hsame, hread⟩ := hbar' bar rest hb
      rw [List.nil_append, ← hbar bar rest hb] at hread
      exact ⟨a', hsame, hread⟩
  | stops taken t rest expected htokens h => cases taken <;> cases htokens
  | ends expected h => exact .ends expected (hf.trans h)

/-- What is made of the result in the end changes nothing. -/
theorem Decided.map {same' : β → β → Prop} (hsame : ∀ b, same' b b) {tokens : List Token}
    (h : Decided Eq f tokens) {k : α × List Token → Except Mismatch (β × List Token)} (make : α → β)
    (hk : ∀ a rest, k (a, rest) = .ok (make a, rest)) :
    Decided same' (fun tokens => f tokens >>= k) tokens := by
  have hok {tokens rest : List Token} {a : α} (h : f tokens = .ok (a, rest)) :
      f tokens >>= k = .ok (make a, rest) := by
    rw [h]
    exact hk a rest
  cases h with
  | leaves taken next rest a htokens h =>
      exact .leaves taken next rest (make a) htokens fun more => hok (h more)
  | takes a h hbar =>
      refine .takes (make a) (hok h) ?_
      intro bar more hb
      obtain ⟨_, rfl, hleft | htaken⟩ := hbar bar more hb
      · exact ⟨make a, hsame _, .inl (hok hleft)⟩
      · exact ⟨make a, hsame _, .inr (hok htaken)⟩
  | stops taken t rest expected htokens h =>
      refine .stops taken t rest expected htokens ?_
      intro more
      rw [h]
      rfl
  | ends expected h =>
      refine .ends expected ?_
      rw [h]
      rfl

/-! ## Parts of clauses -/

/-- Nothing is taken. -/
theorem decided_pure (hsame : ∀ a, same a a) (a : α) (tokens : List Token) :
    Decided same (fun tokens => .ok (a, tokens)) tokens := by
  cases tokens with
  | nil => exact .takes a rfl fun bar rest _ => ⟨a, hsame a, .inl rfl⟩
  | cons t rest => exact .leaves [] t rest a rfl fun _ => rfl

/-- A bar is taken if there is one. -/
theorem decided_skipBar (a : α) (tokens : List Token) :
    Decided Eq (fun tokens => .ok (a, skipBar tokens)) tokens := by
  cases tokens with
  | nil =>
      refine .takes a rfl ?_
      rintro bar rest ⟨-, hbar⟩
      refine ⟨a, rfl, .inr ?_⟩
      rw [List.nil_append, skipBar, if_pos hbar]
  | cons t rest =>
      by_cases ht : t.text = "|"
      · refine (decided_pure (fun _ => rfl) a rest).after [t] ?_
        intro tokens
        rw [List.singleton_append, skipBar, if_pos ht]
      · refine .leaves [] t rest a rfl ?_
        intro rest
        rw [List.nil_append, skipBar, if_neg ht]

/-- The source of an expression goes on to a bar, which is taken, or to a boundary. -/
theorem decided_takeSource (make : String → α) (tokens : List Token) :
    Decided Eq (fun tokens => .ok (make (takeSource tokens).1, (takeSource tokens).2)) tokens := by
  have hsplit := List.takeWhile_append_dropWhile (p := continuesExpression) (l := tokens)
  have hrun : ∀ t ∈ tokens.takeWhile continuesExpression, continuesExpression t = true :=
    fun t ht => List.mem_takeWhile_imp ht
  have hend := List.head?_dropWhile_not continuesExpression tokens
  generalize tokens.takeWhile continuesExpression = run at hsplit hrun
  generalize tokens.dropWhile continuesExpression = rest at hsplit hend
  subst hsplit
  cases rest with
  | nil =>
      refine .takes (make (join run)) ?_ ?_
      · have hstop : ∀ t ∈ ([] : List Token).head?, continuesExpression t = false := by
          intro t ht
          cases ht
        obtain ⟨htaken, hdropped⟩ := Text.span_run hrun hstop
        rw [takeSource, htaken, hdropped]
        rfl
      · rintro bar rest ⟨-, hbar⟩
        have hstop : continuesExpression bar = false := by
          rw [continuesExpression, hbar]
          rfl
        refine ⟨_, rfl, .inr ?_⟩
        rw [List.append_nil, takeSource_append hrun hstop, skipBar, if_pos hbar]
  | cons t rest =>
      have hstop : continuesExpression t = false := by simpa using hend
      have hbar := decided_skipBar (make (join run)) (t :: rest)
      refine (hbar.of_head ?_).after run fun _ => rfl
      intro more
      rw [takeSource_append hrun hstop]

/-- A token that is needed is taken before anything else is decided. -/
theorem decided_expect (text : String) (hg : ∀ tokens, Decided same g tokens)
    (tokens : List Token) :
    Decided same (fun tokens => expect text tokens >>= g) tokens := by
  cases tokens with
  | nil => exact .ends (.symbol text) rfl
  | cons t rest =>
      by_cases ht : t.text = text
      · refine (hg rest).after [t] ?_
        intro tokens
        rw [List.singleton_append, expect, if_pos ht]
        rfl
      · refine .stops [] t rest (.symbol text) rfl ?_
        intro rest
        rw [List.nil_append, expect, if_neg ht]
        rfl

/-- A name is taken before anything else is decided. -/
theorem decided_expectName {k : String × List Token → Except Mismatch (α × List Token)}
    (hk : ∀ name tokens, Decided same (fun tokens => k (name, tokens)) tokens)
    (tokens : List Token) : Decided same (fun tokens => expectName tokens >>= k) tokens := by
  cases tokens with
  | nil => exact .ends .variableName rfl
  | cons t rest => exact (hk t.text rest).after [t] fun _ => rfl

/-- Arguments are decided by their closing parenthesis. -/
theorem decided_takeArguments {k : List Token × List Token → Except Mismatch (α × List Token)}
    (hk : ∀ args tokens, Decided same (fun tokens => k (args, tokens)) tokens)
    (tokens : List Token) : Decided same (fun tokens => takeArguments tokens >>= k) tokens := by
  have hsplit := List.takeWhile_append_dropWhile (p := fun t : Token => t.text != ")") (l := tokens)
  have hargs : ∀ t ∈ tokens.takeWhile (·.text != ")"), (t.text != ")") = true :=
    fun t ht => List.mem_takeWhile_imp (p := fun t : Token => t.text != ")") ht
  have hend := List.head?_dropWhile_not (fun t : Token => t.text != ")") tokens
  cases hrest : tokens.dropWhile (·.text != ")") with
  | nil =>
      refine .ends (.symbol ")") ?_
      rw [takeArguments, hrest]
      rfl
  | cons close rest =>
      rw [hrest] at hsplit hend
      have hclose : close.text = ")" := by simpa using hend
      rw [← hsplit, List.append_cons]
      refine (hk (tokens.takeWhile (·.text != ")")) rest).after _ ?_
      intro tokens
      rw [← List.append_cons, takeArguments_append hargs hclose]
      rfl

/-- Either the parenthesis that is looked for is among the tokens, and then nothing behind it
counts, or all tokens are taken. -/
theorem takeMatching_cases (depth : Nat) (tokens : List Token) :
    (∃ inner close rest, tokens = inner ++ close :: rest ∧
      ∀ rest, takeMatching depth (inner ++ close :: rest) = (inner, rest)) ∨
    takeMatching depth tokens = (tokens, []) := by
  induction tokens generalizing depth with
  | nil => exact .inr rfl
  | cons t tokens ih =>
      rcases takeMatching_cons depth t with ⟨rfl, hclose⟩ | ⟨depth', hnext⟩
      · exact .inl ⟨[], t, tokens, rfl, takeMatching_closing hclose⟩
      · rcases ih depth' with ⟨inner, close, rest, rfl, htaken⟩ | hall
        · refine .inl ⟨t :: inner, close, rest, rfl, ?_⟩
          intro rest
          rw [List.cons_append, hnext, htaken]
        · refine .inr ?_
          rw [hnext, hall]

/-- A condition is decided by its matching parenthesis and the colon behind it. -/
theorem decided_takeCondition (tokens : List Token) : Decided Eq takeCondition tokens := by
  refine decided_expect "(" ?_ tokens
  intro tokens
  rcases takeMatching_cases 0 tokens with ⟨inner, close, rest, rfl, htaken⟩ | hall
  · have hpure (tokens : List Token) : Decided Eq
        (fun tokens => .ok (Expression.compile (join inner), tokens)) tokens :=
      decided_pure (fun _ => rfl) _ tokens
    rw [List.append_cons]
    refine (decided_expect ":" hpure rest).after _ ?_
    intro tokens
    rw [← List.append_cons, htaken]
    rfl
  · refine .ends (.symbol ":") ?_
    rw [hall]
    rfl

/-- An output is decided by its closing parenthesis, and perhaps the bar behind it. -/
theorem decided_takeOutput (tokens : List Token) : Decided Eq takeOutput tokens := by
  refine decided_expect "(" (fun tokens => decided_takeArguments ?_ tokens) tokens
  intro args tokens
  exact decided_skipBar _ tokens

/-- A declaration is decided by the token that its expression or prompt ends at. -/
theorem decided_takeDeclaration (tag : TypeTag) (tokens : List Token) :
    Decided Eq (takeDeclaration tag) tokens := by
  refine decided_expect "(" (fun tokens => decided_expectName ?_ tokens) tokens
  intro name tokens
  refine decided_expect ")" (fun tokens => decided_expect "=" ?_ tokens) tokens
  intro tokens
  have hassign := decided_takeSource
    (fun source => Statement.assign name (some tag) (.compile source)) tokens
  cases tokens with
  | nil =>
      refine hassign.of_nil rfl ?_
      rintro bar rest ⟨-, hbar⟩
      refine if_neg ?_
      rw [hbar]
      decide
  | cons t rest =>
      by_cases ht : t.text = "roi"
      · have hprompt (tokens : List Token) : Decided Eq (fun tokens => expect "(" tokens >>=
            fun tokens => takeArguments tokens >>= fun taken =>
              .ok (Statement.input name tag (join taken.1), skipBar taken.2)) tokens := by
          refine decided_expect "(" (fun tokens => decided_takeArguments ?_ tokens) tokens
          intro prompt tokens
          exact decided_skipBar (Statement.input name tag (join prompt)) tokens
        refine (hprompt rest).after [t] ?_
        intro tokens
        exact if_pos ht
      · refine hassign.of_head ?_
        intro tokens
        exact if_neg ht

/-! ## Clauses -/

/-- The clause of a keyword is decided as what its keyword asks for is. -/
theorem decided_readKeyword (word : String) (tokens : List Token) :
    Decided Eq (readKeyword word) tokens := by
  unfold readKeyword
  split
  · exact (decided_takeCondition tokens).map (fun _ => rfl) .conditional fun _ _ => rfl
  · exact (decided_takeCondition tokens).map (fun _ => rfl) .loop fun _ _ => rfl
  · exact (decided_takeOutput tokens).map (fun _ => rfl) .simple fun _ _ => rfl
  · exact decided_skipBar _ tokens
  · exact decided_pure (fun _ => rfl) _ tokens

/-- Behind the name in an assignment the clause is decided by the token after it. -/
theorem decided_read (t : Token) (tokens : List Token) : Decided Eq (read t) tokens := by
  cases hdeclares : declares? t with
  | some tag =>
      have hdeclaration : Decided Eq (fun tokens => takeDeclaration tag tokens >>=
          fun taken => .ok (Clause.simple taken.1, taken.2)) tokens :=
        (decided_takeDeclaration tag tokens).map (fun _ => rfl) Clause.simple fun _ _ => rfl
      refine hdeclaration.after [] ?_
      intro tokens
      rw [List.nil_append, read, hdeclares]
      rfl
  | none =>
      have hkeyword := decided_readKeyword t.text tokens
      cases tokens with
      | nil =>
          refine hkeyword.of_nil (read_eq_readKeyword hdeclares rfl) ?_
          rintro bar rest ⟨-, hbar⟩
          refine read_eq_readKeyword hdeclares ?_
          rw [assigns?, hbar]
          split <;> rfl
      | cons op rest =>
          have hassigns (tokens : List Token) : assigns? t (op :: tokens) =
              (if t.kind = .identifier then accumulator? op.text else none).map (·, tokens) := by
            rw [assigns?]
            split <;> rfl
          cases hsymbol : if t.kind = .identifier then accumulator? op.text else none with
          | none =>
              refine hkeyword.of_head ?_
              intro tokens
              refine read_eq_readKeyword hdeclares ?_
              rw [hassigns, hsymbol]
              rfl
          | some symbol =>
              have hsource := decided_takeSource (fun source => Clause.simple
                (.assign t.text none (.compile (if symbol = "" then source
                  else t.text ++ " " ++ symbol ++ " ( " ++ source ++ " )")))) rest
              refine hsource.after [op] ?_
              intro tokens
              rw [List.singleton_append, read, hdeclares]
              simp only [hassigns, hsymbol]
              rfl

end Clause

namespace Reader

/-! ## The reader -/

/-- Readers that differ at most in the tokens that they have passed over. -/
structure Same (r r' : Reader) : Prop where
  program : r.program = r'.program
  blocks : r.blocks = r'.blocks

/-- A reader is the same as itself. -/
theorem Same.refl (r : Reader) : r.Same r :=
  ⟨rfl, rfl⟩

open Clause (Decided decided_pure)

/-- What a clause makes of the reader is decided as the clause is. -/
theorem decided_takeClause (r : Reader) (t : Token) (tokens : List Token) :
    Decided Same (r.takeClause t) tokens := by
  refine (Clause.decided_read t tokens).map Same.refl (r.accept t) ?_
  intro clause rest
  cases clause <;> rfl

/-- What follows an arm is decided by one token, or by the header of another arm. -/
theorem decided_nextBranch (r : Reader) (tokens : List Token) :
    Decided Same r.nextBranch tokens := by
  have hclose := decided_pure Same.refl r.close tokens
  obtain ⟨program, blocks, skipped⟩ := r
  match blocks with
  | [] => exact hclose
  | .loop .. :: _ => exact hclose
  | .branch _ none _ :: _ => exact hclose
  | .branch earlier (some condition) body :: outer =>
      have hnext {t : Token} (helseif : t.text ≠ "elseif") (helse : t.text ≠ "else")
          (rest : List Token) :
          nextBranch ⟨program, .branch earlier (some condition) body :: outer, skipped⟩
              (t :: rest) =
            .ok (close ⟨program, .branch earlier (some condition) body :: outer, skipped⟩,
              t :: rest) := by
        simp only [nextBranch, if_neg helseif, if_neg helse]
      cases tokens with
      | nil =>
          refine hclose.of_nil rfl ?_
          rintro bar rest ⟨-, hbar⟩
          refine hnext ?_ ?_ rest
          · rw [hbar]
            decide
          · rw [hbar]
            decide
      | cons t rest =>
          by_cases helseif : t.text = "elseif"
          · have hcondition := (Clause.decided_takeCondition rest).map Same.refl
              (k := fun taken => .ok (⟨program, .branch (⟨some condition, body.reverse⟩ :: earlier)
                (some taken.1) [] :: outer, skipped⟩, taken.2))
              (fun c => ⟨program, .branch (⟨some condition, body.reverse⟩ :: earlier) (some c) [] ::
                outer, skipped⟩) fun _ _ => rfl
            refine hcondition.after [t] ?_
            intro tokens
            simp only [List.singleton_append, nextBranch, if_pos helseif]
            rfl
          · by_cases helse : t.text = "else"
            · have hcolon := Clause.decided_expect ":" (decided_pure Same.refl
                ⟨program, .branch (⟨some condition, body.reverse⟩ :: earlier) none [] :: outer,
                  skipped⟩) rest
              refine hcolon.after [t] ?_
              intro tokens
              simp only [List.singleton_append, nextBranch, if_neg helseif, if_pos helse]
              rfl
            · exact hclose.of_head (hnext helseif helse)

/-- A step at the first token. Without tokens every open block ends. -/
def advance (r : Reader) : List Token → Except Mismatch (Reader × List Token)
  | [] => .ok (r.closeAll, [])
  | t :: rest => r.step t rest

/-- A bar begins no statement, whatever follows it. -/
theorem takeClause_bar (r : Reader) {bar : Token} (h : bar.IsBar) (rest : List Token) :
    r.takeClause bar rest = .ok (r.skip bar, rest) := by
  obtain ⟨hkind, htext⟩ := h
  have hdeclares : Clause.declares? bar = none := by
    rw [Clause.declares?, hkind]
    rfl
  have hassigns : Clause.assigns? bar rest = none := by
    cases rest with
    | nil => rfl
    | cons op rest =>
        rw [Clause.assigns?, hkind]
        rfl
  rw [takeClause, Clause.read_eq_readKeyword hdeclares hassigns, htext]
  rfl

/-- A bar in a loop is decided by the token behind it. -/
theorem decided_advance_loop (program : List Statement) (condition : Expression)
    (body : List Statement) (outer : List Block) (skipped : List Token) {t : Token}
    (ht : t.text = "|") (tokens : List Token) :
    Decided Same (advance ⟨program, .loop condition body :: outer, skipped⟩) (t :: tokens) := by
  cases tokens with
  | nil =>
      -- Behind a second bar the loop ends too, but that bar counts as passed over.
      refine .takes (close ⟨program, .loop condition body :: outer, skipped⟩) (if_pos ht) ?_
      intro bar rest hbar
      have hboundary : ¬ Clause.isBoundary bar.text = true := by
        rw [hbar.2]
        decide
      refine ⟨skip ⟨program, .loop condition body :: outer, skipped⟩ bar, ?_, .inr ?_⟩
      · have hclose := close_skipped ⟨program, .loop condition body :: outer, skipped⟩
          (bar :: skipped)
        have hprogram := congrArg Reader.program hclose
        have hblocks := congrArg Reader.blocks hclose
        exact ⟨hprogram.symm, hblocks.symm⟩
      · simp only [List.singleton_append, advance, step, if_pos ht, if_neg hboundary]
        exact takeClause_bar _ hbar rest
  | cons u tokens =>
      by_cases hboundary : Clause.isBoundary u.text = true
      · refine .leaves [t] u tokens (close ⟨program, .loop condition body :: outer, skipped⟩) rfl ?_
        intro rest
        simp only [List.singleton_append, advance, step, if_pos ht, if_pos hboundary]
      · refine (decided_takeClause ⟨program, .loop condition body :: outer, skipped⟩ u
          tokens).after [t, u] ?_
        intro rest
        simp only [List.cons_append, List.nil_append, advance, step, if_pos ht, if_neg hboundary]

/-- Every step is decided by the tokens that it takes and one more. -/
theorem decided_advance (r : Reader) (t : Token) (tokens : List Token) :
    Decided Same r.advance (t :: tokens) := by
  have hclause := decided_takeClause r t tokens
  have hnext := decided_nextBranch r
  have hsame := decided_pure Same.refl r tokens
  obtain ⟨program, blocks, skipped⟩ := r
  match blocks with
  | [] =>
      by_cases ht : t.text = "|"
      · exact hsame.after [t] fun _ => if_pos ht
      · exact hclause.after [t] fun _ => if_neg ht
  | .branch earlier condition body :: outer =>
      by_cases hends : endsBranch t.text = true
      · by_cases ht : t.text = "|"
        · refine (hnext tokens).after [t] ?_
          intro rest
          simp only [List.singleton_append, advance, step, if_pos hends, Clause.skipBar, if_pos ht]
        · refine (hnext (t :: tokens)).of_head ?_
          intro rest
          simp only [advance, step, if_pos hends, Clause.skipBar, if_neg ht]
      · exact hclause.after [t] fun _ => if_neg hends
  | .loop condition body :: outer =>
      by_cases ht : t.text = "|"
      · exact decided_advance_loop program condition body outer skipped ht tokens
      · exact hclause.after [t] fun _ => if_neg ht

/-- A run goes on behind a step, and has less to do there. -/
theorem run_of_advance {r r' : Reader} {tokens rest : List Token} (htokens : tokens ≠ [])
    (h : r.advance tokens = .ok (r', rest)) :
    r.run tokens = r'.run rest ∧ r'.size rest < r.size tokens := by
  cases tokens with
  | nil => exact absurd rfl htokens
  | cons t tokens => exact ⟨run_of_step h, size_of_step h⟩

/-- A run ends at the mismatch of a step. -/
theorem run_of_advance_error {r : Reader} {tokens : List Token} {m : Mismatch}
    (h : r.advance tokens = .error m) : r.run tokens = (r, some m) := by
  cases tokens with
  | nil => cases h
  | cons t tokens => exact run_of_mismatch h

/-- A run that meets a token that does not fit meets it whatever follows. -/
theorem mismatch_run {r : Reader} {tokens : List Token} {m : Mismatch}
    (h : (r.run tokens).2 = some m) :
    m.found = none ∨ ∃ before t after, tokens = before ++ t :: after ∧ m.found = some t ∧
      ∀ after, (r.run (before ++ t :: after)).2 = some m := by
  cases tokens with
  | nil =>
      rw [run] at h
      cases h
  | cons t tokens =>
      cases decided_advance r t tokens with
      | leaves taken next rest r' htokens hnext =>
          have hrun (rest : List Token) := run_of_advance (by simp) (hnext rest)
          obtain ⟨hrest, hsize⟩ := hrun rest
          rw [htokens] at h ⊢
          rw [hrest] at h
          rcases mismatch_run h with hnone | ⟨before, t', after, hsplit, hfound, hsame⟩
          · exact .inl hnone
          · refine .inr ⟨taken ++ before, t', after, ?_, hfound, ?_⟩
            · rw [hsplit, List.append_assoc]
            · intro after
              -- The first token that was left is still the same one.
              obtain ⟨tail, htail⟩ : ∃ tail, before ++ t' :: after = next :: tail := by
                cases before with
                | nil =>
                    cases hsplit
                    exact ⟨after, rfl⟩
                | cons u before =>
                    cases hsplit
                    exact ⟨before ++ t' :: after, rfl⟩
              rw [List.append_assoc, htail, (hrun tail).1, ← htail]
              exact hsame after
      | takes r' hstep hbar =>
          rw [(run_of_advance (by simp) hstep).1, run] at h
          cases h
      | stops taken t' rest expected htokens hstep =>
          have hm := run_of_advance_error (hstep rest)
          rw [← htokens] at hm
          rw [hm] at h
          cases h
          refine .inr ⟨taken, t', rest, htokens, rfl, ?_⟩
          intro after
          rw [run_of_advance_error (hstep after)]
      | ends expected hstep =>
          rw [run_of_advance_error hstep] at h
          cases h
          exact .inl rfl
termination_by r.size tokens
decreasing_by
  subst_vars
  simpa [htokens] using hsize

end Reader

namespace Statement

/-- Reading fails exactly with the mismatch of its run, placed among the tokens. -/
theorem read_eq_error_iff {tokens : List Token} {e : SyntaxError} :
    Statement.read tokens = .error e ↔ ∃ m, (Reader.start.run tokens).2 = some m ∧
      e = .ofMismatch (Token.endPosition tokens) m := by
  unfold Statement.read Reading.ofTokens
  obtain ⟨r, mismatch⟩ := Reader.start.run tokens
  cases mismatch with
  | none => simp
  | some m => simp [eq_comm]

/-- Tokens that are no program are reported with the first token that does not fit, or with the end
of the input. In the first case nothing behind that token matters: whatever follows it, the report
is the same. -/
theorem read_error_is_decided (tokens : List Token) (e : SyntaxError)
    (h : Statement.read tokens = .error e) :
    e.diagnostic.kind = .syntaxError ∧ ∃ position expected, e.diagnostic.position = some position ∧
      ((∃ i t, tokens[i]? = some t ∧ position = t.position ∧
          e.diagnostic.message = "Expected " ++ expected ++ " but got '" ++ t.text ++ "'" ∧
          ∀ tokens', tokens'.take (i + 1) = tokens.take (i + 1) →
            Statement.read tokens' = .error e) ∨
        e.diagnostic.message = "Expected " ++ expected ++ " but got 'EOF'" ∧
          position = Token.endPosition tokens) := by
  obtain ⟨m, hm, rfl⟩ := read_eq_error_iff.mp h
  refine ⟨rfl, _, m.expected.render, rfl, ?_⟩
  obtain ⟨expected, found⟩ := m
  rcases Reader.mismatch_run hm with hnone | ⟨before, t, after, rfl, hfound, hsame⟩
  · cases hnone
    refine .inr ⟨?_, rfl⟩
    change "Expected " ++ expected.render ++ " but got '" ++ "EOF" ++ "'" = _
    rw [String.append_assoc, String.append_assoc]
    rfl
  · cases hfound
    refine .inl ⟨before.length, t, by simp, rfl, rfl, ?_⟩
    intro tokens' htake
    have htokens' : tokens' = before ++ t :: tokens'.drop (before.length + 1) := by
      have htaken : tokens'.take (before.length + 1) = before ++ [t] := by
        rw [htake, List.append_cons]
        exact List.take_left' (by simp)
      conv_lhs => rw [← List.take_append_drop (before.length + 1) tokens', htaken]
      rw [← List.append_cons]
    rw [htokens', read_eq_error_iff]
    exact ⟨_, hsame _, rfl⟩

/-- A declaration in the body of a loop that lacks its parenthesis. -/
theorem read_error_is_decided_declaration :
    ∃ i t, (Token.scan "loop (x) : | num y = 1")[i]? = some t ∧ t.position = ⟨0, 17, 17⟩ ∧
      ∀ tokens, tokens.take (i + 1) = (Token.scan "loop (x) : | num y = 1").take (i + 1) →
        Statement.read tokens = .error ⟨.symbol "(", some "y", ⟨0, 17, 17⟩⟩ := by
  have herror : Statement.read (Token.scan "loop (x) : | num y = 1") =
      .error ⟨.symbol "(", some "y", ⟨0, 17, 17⟩⟩ := by
    decide +kernel
  obtain ⟨-, _, _, ⟨⟩, ⟨i, t, ht, hposition, -, hsame⟩ | ⟨-, hposition⟩⟩ :=
    read_error_is_decided _ _ herror
  · exact ⟨i, t, ht, hposition.symm, hsame⟩
  · exact absurd hposition (by decide +kernel)

end Statement

end Sting
