import Sting.Proofs.Expression.Isolation
import Sting.Proofs.Statement.WellFormed
import Sting.Proofs.Statement.Written

/-!
# Assignments that combine

An assignment with a combining symbol is read as a plain one: its expression is put together from
the name, the symbol and the tokens behind it in parentheses, and is then compiled anew. It still
means what it looks like: the operator is applied to the old value and to the value that the tokens
have on their own, whatever operators are among them and even if they are no regular expression.
-/

namespace Sting

open Token

namespace Lexeme

variable {tokens : List Token}

/-- Without bars every token stands for itself. -/
theorem ofTokens_eq_flatMap (h : ∀ t ∈ tokens, isBar t = false) :
    ofTokens tokens = tokens.flatMap fun t => ofToken t.kind t.text.toList := by
  induction tokens with
  | nil => exact ofTokens_nil
  | cons t tokens ih =>
      obtain ⟨ht, htokens⟩ := List.forall_mem_cons.mp h
      rw [ofTokens_cons ht, ih htokens, List.flatMap_cons]

/-- The parentheses among the lexemes are those among the tokens: if tokens close no more than was
open before and is opened by them, neither do their lexemes. -/
theorem count_take_ofTokens (hgenuine : ∀ t ∈ tokens, t.Genuine)
    (hbar : ∀ t ∈ tokens, isBar t = false) (depth : Nat)
    (h : ∀ k, (tokens.take k).countP (·.text = ")") ≤
      depth + (tokens.take k).countP (·.text = "(")) (k : Nat) :
    ((ofTokens tokens).take k).count .closing ≤
      depth + ((ofTokens tokens).take k).count .opening := by
  have hne : Lexeme.closing ≠ .opening := nofun
  induction tokens generalizing depth k with
  | nil => simp [ofTokens_nil]
  | cons t tokens ih =>
      obtain ⟨ht, hgenuine⟩ := List.forall_mem_cons.mp hgenuine
      obtain ⟨htbar, hbar⟩ := List.forall_mem_cons.mp hbar
      rw [ofTokens_cons htbar]
      by_cases hopen : t.text = "("
      · have hdeeper (j : Nat) : (tokens.take j).countP (·.text = ")") ≤
            depth + 1 + (tokens.take j).countP (·.text = "(") := by
          have hj := h (j + 1)
          rw [List.take_succ_cons, List.countP_cons_of_neg (by simp [hopen]),
            List.countP_cons_of_pos (by simp [hopen])] at hj
          omega
        rw [ofToken_opening ht hopen, List.singleton_append]
        cases k with
        | zero => simp
        | succ k =>
            have hrest := ih hgenuine hbar (depth + 1) hdeeper k
            rw [List.take_succ_cons, List.count_cons_of_ne hne.symm, List.count_cons_self]
            omega
      · by_cases hclose : t.text = ")"
        · have hhigher (j : Nat) : (tokens.take j).countP (·.text = ")") + 1 ≤
              depth + (tokens.take j).countP (·.text = "(") := by
            have hj := h (j + 1)
            rwa [List.take_succ_cons, List.countP_cons_of_pos (by simp [hclose]),
              List.countP_cons_of_neg (by simp [hclose])] at hj
          have hdepth : 1 ≤ depth := hhigher 0
          rw [ofToken_closing ht hclose, List.singleton_append]
          cases k with
          | zero => simp
          | succ k =>
              have hrest := ih hgenuine hbar (depth - 1) (fun j => by have := hhigher j; omega) k
              rw [List.take_succ_cons, List.count_cons_self, List.count_cons_of_ne hne]
              omega
        · obtain ⟨hopening, hclosing⟩ := @not_mem_ofToken t.kind t.text.toList
            (fun htext => hopen (String.toList_injective htext))
            (fun htext => hclose (String.toList_injective htext))
          have hzero {lexeme : Lexeme} (hmem : lexeme ∉ ofToken t.kind t.text.toList) (j : Nat) :
              ((ofToken t.kind t.text.toList).take j).count lexeme = 0 :=
            List.count_eq_zero.mpr fun h => hmem (List.mem_of_mem_take h)
          rw [List.take_append, List.count_append, List.count_append, hzero hopening,
            hzero hclosing, Nat.zero_add, Nat.zero_add]
          refine ih hgenuine hbar depth ?_ _
          intro j
          have hj := h (j + 1)
          rwa [List.take_succ_cons, List.countP_cons_of_neg (by simp [hclose]),
            List.countP_cons_of_neg (by simp [hopen])] at hj

/-- The tokens of an expression with a value are balanced, if they close nothing too early. -/
theorem balanced_ofTokens (hgenuine : ∀ t ∈ tokens, t.Genuine)
    (hbar : ∀ t ∈ tokens, isBar t = false)
    (hearly : ∀ k, (tokens.take k).countP (·.text = ")") ≤ (tokens.take k).countP (·.text = "("))
    {env : Environment} {stack : List Value}
    (hrun : Instruction.run env [] (Instruction.ofLexemes (ofTokens tokens)) = .ok stack) :
    Balanced (ofTokens tokens) := by
  apply balanced_of_unmatched
  · intro k
    have hcount := count_take_ofTokens hgenuine hbar 0
      (fun k => by rw [Nat.zero_add]; exact hearly k) k
    rwa [Nat.zero_add] at hcount
  · have hnone := Instruction.unclosed_not_mem_of_run hrun
    rwa [← List.count_eq_zero, Instruction.ofLexemes, Instruction.count_unclosed_convert] at hnone

end Lexeme

namespace Clause

/-- The operators that an assignment can combine with. -/
def combiningOperators : List BinaryOperator :=
  [.add, .sub, .mul, .div, .rem, .pow]

/-- An operator that combines is the symbol of its own accumulating assignment. -/
theorem accumulator?_symbol : ∀ op ∈ combiningOperators,
    accumulator? (op.symbol ++ "=") = some op.symbol ∧ op.symbol ≠ "" ∧ op.symbol ∈ combining ∧
      Lexeme.ofSymbol op.symbol.toList = [.operator (.binary op)] := by
  decide +kernel

variable {x sign bar : Token} {tokens : List Token} {op : BinaryOperator}

/-- An accumulating assignment is read as an assignment of the old value and the whole source. -/
theorem read_combined {symbol : String} (hkind : x.kind = .identifier)
    (hsign : accumulator? sign.text = some symbol) (hsymbol : symbol ≠ "")
    (htokens : ∀ t ∈ tokens, continuesExpression t = true) (hbar : bar.text = "|")
    (rest : List Token) :
    read x (sign :: (tokens ++ bar :: rest)) =
      .ok (.simple (.assign x.text none (.compile (combined x.text symbol (join tokens)))),
        rest) := by
  have hdeclares : declares? x = none := by
    rw [declares?, hkind, if_neg (by decide)]
  have hassigns : assigns? x (sign :: (tokens ++ bar :: rest)) =
      some (symbol, tokens ++ bar :: rest) := by
    rw [assigns?, if_pos hkind, hsign]
    rfl
  have hstop : continuesExpression bar = false := by
    rw [continuesExpression, hbar]
    rfl
  have hsource := takeSource_append htokens hstop rest
  rw [skipBar, if_pos hbar] at hsource
  rw [read, hdeclares]
  simp only [hassigns, takeAssigned, hsource, if_neg hsymbol]
  rfl

/-- No expression goes on with a bar. -/
theorem isBar_of_continuesExpression {t : Token} (h : continuesExpression t = true) :
    Lexeme.isBar t = false := by
  rw [continuesExpression, Bool.and_eq_true, bne_iff_ne] at h
  rw [Lexeme.isBar, beq_eq_false_iff_ne]
  exact h.1

/-- What the tokens of a combined assignment stand for. -/
theorem ofTokens_combinedTokens (hx : x.Genuine) (hkind : x.kind = .identifier)
    (hop : op ∈ combiningOperators) (hgenuine : ∀ t ∈ tokens, t.Genuine)
    (hcontinues : ∀ t ∈ tokens, continuesExpression t = true) :
    Lexeme.ofTokens (combinedTokens x op.symbol tokens) =
      .word x.text :: .operator (.binary op) :: .opening ::
        (Lexeme.ofTokens tokens ++ [.closing]) := by
  obtain ⟨-, -, hcombining, hsymbol⟩ := accumulator?_symbol op hop
  have hbar : ∀ t ∈ combinedTokens x op.symbol tokens, Lexeme.isBar t = false := by
    have hassignable := (assignable_combined hx hkind hcombining hgenuine hcontinues).continues
    rw [Expression.source_compile, spelled_combined_toList hx hcombining hgenuine] at hassignable
    exact fun t ht => isBar_of_continuesExpression (hassignable t ht)
  have hname : Lexeme.ofToken x.unplaced.kind x.unplaced.text.toList = [.word x.text] := by
    change Lexeme.ofToken x.kind x.text.toList = _
    rw [hkind, Lexeme.ofToken, String.ofList_toList]
  have htokens : (tokens.map unplaced).flatMap (fun t => Lexeme.ofToken t.kind t.text.toList) =
      Lexeme.ofTokens tokens := by
    rw [List.flatMap_map,
      Lexeme.ofTokens_eq_flatMap fun t ht => isBar_of_continuesExpression (hcontinues t ht)]
    rfl
  have hoperator : Lexeme.ofToken (bare .symbol op.symbol.toList).kind
      (bare .symbol op.symbol.toList).text.toList = [.operator (.binary op)] := by
    rw [text_bare, String.ofList_toList]
    exact hsymbol
  rw [Lexeme.ofTokens_eq_flatMap hbar, combinedTokens, List.flatMap_cons, List.flatMap_cons,
    List.flatMap_cons, List.flatMap_append, htokens, hname, hoperator]
  rfl

end Clause

namespace Statement

/-- No arm ends at the name of a variable. -/
theorem endsBranch_of_identifier {t : Token} (h : t.Genuine) (hkind : t.kind = .identifier) :
    Reader.endsBranch t.text = false := by
  have hname : IsSpelling .identifier t.text.toList := hkind ▸ h
  rw [← String.ofList_toList (s := t.text)]
  exact contains_eq_false_of_identifier (by decide) hname

/-- Tokens that are one clause without a body are a program of one statement. -/
theorem read_of_simple {t : Token} {tokens : List Token} {s : Statement}
    (hread : Clause.read t tokens = .ok (.simple s, []))
    (hends : Reader.endsBranch t.text = false) : Statement.read (t :: tokens) = .ok [s] := by
  have houtcome : Reader.start.outcome (t :: tokens) = ([s], none) := by
    rw [Reader.outcome_simple hread hends, Reader.outcome_nil]
    rfl
  obtain ⟨hprogram, hmismatch⟩ := Prod.mk.inj houtcome
  rw [read_eq_ok_iff]
  exact ⟨hmismatch, by rw [hprogram]; rfl⟩

/-- A combining symbol applies its operator to the old value of the variable and to the value of
what stands behind it. -/
theorem combined_assignment_accumulates {source source' : String} {x sign bar : Token}
    {tokens : List Token} {op : BinaryOperator} (hx : x ∈ Token.scan source)
    (hkind : x.kind = .identifier) (hop : op ∈ Clause.combiningOperators)
    (hsign : sign.text = op.symbol ++ "=") (hbar : bar.text = "|")
    (htokens : tokens ⊆ Token.scan source')
    (hcontinues : ∀ t ∈ tokens, t.text ≠ "|" ∧ Clause.isBoundary t.text = false)
    (hearly : ∀ front, front <+: tokens →
      front.countP (·.text = ")") ≤ front.countP (·.text = "(")) :
    ∃ e, Statement.read (x :: sign :: (tokens ++ [bar])) = .ok [.assign x.text none e] ∧
      ∀ env left right, env.lookup x.text = .ok left →
        (Expression.compile (Clause.join tokens)).evaluate env = .ok right →
        e.evaluate env = op.apply left right := by
  have hname : x.Genuine := genuine_of_mem_scan hx
  have hgenuine : ∀ t ∈ tokens, t.Genuine := fun t ht => genuine_of_mem_scan (htokens ht)
  have hcontinues' : ∀ t ∈ tokens, Clause.continuesExpression t = true := by
    intro t ht
    rw [Clause.continuesExpression, bne_iff_ne.mpr (hcontinues t ht).1, (hcontinues t ht).2]
    rfl
  obtain ⟨haccumulator, hsymbol, hcombining, -⟩ := Clause.accumulator?_symbol op hop
  rw [← hsign] at haccumulator
  refine ⟨.compile (Clause.combined x.text op.symbol (Clause.join tokens)), ?_, ?_⟩
  · exact read_of_simple (Clause.read_combined hkind haccumulator hsymbol hcontinues' hbar [])
      (endsBranch_of_identifier hname hkind)
  · intro env left right hleft hright
    have hrun := Expression.run_of_evaluate hright
    have hcode : (Expression.compile (Clause.join tokens)).code =
        Instruction.ofLexemes (Lexeme.ofTokens tokens) := by
      rw [Expression.code_eq, Expression.source_compile, Lexeme.scan_join hgenuine]
    rw [hcode] at hrun
    have hbalanced := Lexeme.balanced_ofTokens hgenuine
      (fun t ht => Clause.isBar_of_continuesExpression (hcontinues' t ht))
      (fun k => hearly _ (List.take_prefix k tokens)) hrun
    refine Expression.evaluate_accumulated ?_ hleft hrun
    rw [Expression.code_eq_of_alike (Clause.alike_combined hname hkind hcombining hgenuine),
      Expression.source_compile, Clause.spelled_combined_toList hname hcombining hgenuine,
      Clause.ofTokens_combinedTokens hname hkind hop hgenuine hcontinues',
      Instruction.ofLexemes_accumulated hbalanced]

/-- What stands behind the symbol has a comma, an operator without its second operand and looser
operators than the sum, and still has a value. -/
theorem combined_assignment_accumulates_irregular :
    let source := "x += ( x , 'b' + == 'c' ) |"
    ∃ e, Statement.read (Token.scan source) = .ok [.assign "x" none e] ∧
      e.evaluate (Environment.empty.set "x" (.text "a")) = .ok (.text "afalse") := by
  intro source
  let x : Token := ⟨.identifier, "x", ⟨0, 0, 0⟩⟩
  let sign : Token := ⟨.symbol, "+=", ⟨0, 2, 2⟩⟩
  let bar : Token := ⟨.symbol, "|", ⟨0, 26, 26⟩⟩
  let tokens := ((Token.scan source).drop 2).dropLast
  have hscan : Token.scan source = x :: sign :: (tokens ++ [bar]) := by decide +kernel
  have hx : x ∈ Token.scan source := by
    rw [hscan]
    exact List.mem_cons_self
  have hop : BinaryOperator.add ∈ Clause.combiningOperators := by decide
  have hsign : sign.text = BinaryOperator.add.symbol ++ "=" := by decide
  have hbar : bar.text = "|" := rfl
  have htokens : tokens ⊆ Token.scan source :=
    fun t ht => List.drop_subset 2 _ (List.dropLast_subset _ ht)
  have hcontinues : ∀ t ∈ tokens, t.text ≠ "|" ∧ Clause.isBoundary t.text = false := by
    decide +kernel
  have hearly : ∀ front ∈ tokens.inits,
      front.countP (·.text = ")") ≤ front.countP (·.text = "(") := by
    decide +kernel
  obtain ⟨e, hread, hvalue⟩ :=
    combined_assignment_accumulates hx rfl hop hsign hbar htokens hcontinues
      fun front hfront => hearly front ((List.mem_inits front tokens).mpr hfront)
  refine ⟨e, hscan ▸ hread, ?_⟩
  rw [hvalue (Environment.empty.set "x" (.text "a")) (.text "a") (.boolean false)]
  · decide +kernel
  · decide +kernel
  · decide +kernel

end Statement

end Sting
