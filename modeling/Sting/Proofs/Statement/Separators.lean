import Sting.Proofs.Statement.Lookahead

/-!
# Bars between programs

A program that was read to its end can be followed by bars and another program. Where the first one
leaves blocks open, the bars close them: an arm takes one bar, a loop two, and an assignment at the
end one more. Every open block has cost more tokens than that, so as many bars as there are tokens
are always enough.
-/

namespace Sting

namespace Reader

/-! ## How many bars are enough -/

/-- How many bars are enough to close all blocks after the remaining tokens. -/
def debt (r : Reader) (tokens : List Token) : Nat :=
  2 * r.blocks.length + tokens.length

/-- Every step leaves fewer bars to be asked for. -/
theorem debt_of_step {r r' : Reader} {t : Token} {tokens rest : List Token}
    (h : r.step t tokens = .ok (r', rest)) : r'.debt rest < r.debt (t :: tokens) := by
  unfold debt
  cases progress_of_step h <;> omega

/-- A step pays some of the debt. -/
theorem debt_of_advance {r r' : Reader} {tokens rest : List Token} (htokens : tokens ≠ [])
    (h : r.advance tokens = .ok (r', rest)) : r'.debt rest < r.debt tokens := by
  cases tokens with
  | nil => exact absurd rfl htokens
  | cons t tokens => exact debt_of_step h

/-! ## Reading after a program -/

/-- The reader with what another one has read before it. -/
def atop (r base : Reader) : Reader :=
  ⟨r.program ++ base.program, r.blocks, r.skipped ++ base.skipped⟩

@[simp] theorem blocks_atop (r base : Reader) : (r.atop base).blocks = r.blocks := rfl

/-- A statement is added atop others as it is by itself. -/
theorem add_atop (r base : Reader) (s : Statement) : (r.atop base).add s = (r.add s).atop base := by
  obtain ⟨program, blocks, skipped⟩ := r
  match blocks with
  | [] | .branch .. :: _ | .loop .. :: _ => rfl

/-- A block is closed atop others as it is by itself. -/
theorem close_atop (r base : Reader) : (r.atop base).close = r.close.atop base := by
  obtain ⟨program, blocks, skipped⟩ := r
  match blocks with
  | [] => rfl
  | .branch .. :: outer | .loop .. :: outer => exact add_atop ⟨program, outer, skipped⟩ base _

/-- A token is passed over atop others as it is by itself. -/
theorem skip_atop (r base : Reader) (t : Token) : (r.atop base).skip t = (r.skip t).atop base := by
  have hclose := close_atop { r with skipped := t :: r.skipped } base
  obtain ⟨program, blocks, skipped⟩ := r
  match blocks with
  | [] | .branch .. :: _ => rfl
  | .loop .. :: _ => exact hclose

/-- A clause is taken atop others as it is by itself. -/
theorem takeClause_atop (r base : Reader) (t : Token) (tokens : List Token) :
    (r.atop base).takeClause t tokens =
      (r.takeClause t tokens).map fun (r', rest) => (r'.atop base, rest) := by
  unfold takeClause
  cases Clause.read t tokens with
  | error m => rfl
  | ok clause =>
      obtain ⟨clause, rest⟩ := clause
      cases clause with
      | simple s =>
          change Except.ok ((r.atop base).add s, rest) = _
          rw [add_atop]
          rfl
      | conditional c => rfl
      | loop c => rfl
      | stray =>
          change Except.ok ((r.atop base).skip t, rest) = _
          rw [skip_atop]
          rfl

/-- Another arm is taken atop others as it is by itself. -/
theorem nextBranch_atop (r base : Reader) (tokens : List Token) :
    (r.atop base).nextBranch tokens =
      (r.nextBranch tokens).map fun (r', rest) => (r'.atop base, rest) := by
  unfold nextBranch
  rw [blocks_atop, close_atop]
  split
  · dsimp only
    split
    · cases Clause.takeCondition _ <;> rfl
    · split
      · cases Clause.expect ":" _ <;> rfl
      · rfl
  · rfl

/-- A step does not depend on what was read before. -/
theorem step_atop (r base : Reader) (t : Token) (tokens : List Token) :
    (r.atop base).step t tokens =
      (r.step t tokens).map fun (r', rest) => (r'.atop base, rest) := by
  unfold step
  rw [blocks_atop, close_atop]
  split
  · split
    · rfl
    · exact takeClause_atop r base t tokens
  · split
    · exact nextBranch_atop r base _
    · exact takeClause_atop r base t tokens
  · split
    · split
      · rfl
      · split
        · rfl
        · exact takeClause_atop r base _ _
    · exact takeClause_atop r base t tokens

/-- All blocks are closed atop others as they are by themselves. -/
theorem closeAll_atop (r base : Reader) : (r.atop base).closeAll = r.closeAll.atop base :=
  closeAll_comm (f := (atop · base)) (blocks_atop · base) (close_atop · base) r

/-- A run does not depend on what was read before. -/
theorem run_atop (r base : Reader) (tokens : List Token) :
    (r.atop base).run tokens = ((r.run tokens).1.atop base, (r.run tokens).2) := by
  fun_induction run r tokens with
  | case1 r => rw [run, closeAll_atop]
  | case2 r t rest m hstep =>
      have hatop := step_atop r base t rest
      rw [hstep] at hatop
      rw [run_of_mismatch hatop]
  | case3 r t rest r' rest' hstep hsize ih =>
      have hatop := step_atop r base t rest
      rw [hstep] at hatop
      rw [run_of_step hatop]
      exact ih

/-- Outside of all blocks a program is read as at the beginning. -/
theorem outcome_of_top {r : Reader} (h : r.blocks = []) (tokens : List Token) :
    r.outcome tokens =
      ((start.outcome tokens).1 ++ r.program, (start.outcome tokens).2) := by
  have hr : start.atop r = r := by
    rw [atop, start, ← h]
    rfl
  rw [outcome, ← hr, run_atop]
  rfl

/-! ## Bars before a program -/

/-- Two bars close the innermost block; an arm leaves the second one. -/
theorem exists_step_bars {r : Reader} (hr : r.blocks ≠ []) {bar next : Token} (hbar : bar.IsBar)
    (hnext : next.IsBar) (rest : List Token) :
    ∃ r' rest', r.step bar (next :: rest) = .ok (r', rest') ∧
      (rest' = next :: rest ∨ rest' = rest) ∧ r'.blocks.length + 1 = r.blocks.length ∧
      r'.closeAll.program = r.closeAll.program := by
  have hlength : r.close.blocks.length + 1 = r.blocks.length := by
    have hpos := List.length_pos_iff.2 hr
    rw [length_blocks_close]
    omega
  have hclose := congrArg Reader.program (closeAll_close r)
  obtain ⟨program, blocks, skipped⟩ := r
  match blocks with
  | [] => exact absurd rfl hr
  | .branch earlier condition body :: outer =>
      refine ⟨_, next :: rest, ?_, .inl rfl, hlength, hclose⟩
      have hends : endsBranch bar.text = true := by
        rw [hbar.2]
        decide
      have helseif : ¬ next.text = "elseif" := by
        rw [hnext.2]
        decide
      have helse : ¬ next.text = "else" := by
        rw [hnext.2]
        decide
      simp only [step, if_pos hends, Clause.skipBar, if_pos hbar.2]
      cases condition with
      | none => rfl
      | some c => simp only [nextBranch, if_neg helseif, if_neg helse]
  | .loop condition body :: outer =>
      have hboundary : ¬ Clause.isBoundary next.text = true := by
        rw [hnext.2]
        decide
      have hskip : skip ⟨program, .loop condition body :: outer, skipped⟩ next =
          { close ⟨program, .loop condition body :: outer, skipped⟩ with
            skipped := next :: skipped } :=
        close_skipped ⟨program, .loop condition body :: outer, skipped⟩ (next :: skipped)
      refine ⟨skip ⟨program, .loop condition body :: outer, skipped⟩ next, rest, ?_, .inr rfl, ?_,
        ?_⟩
      · simp only [step, if_pos hbar.2, if_neg hboundary]
        exact takeClause_bar _ hnext rest
      · rw [hskip]
        exact hlength
      · rw [hskip, closeAll_skipped]
        exact hclose

/-- Two bars for every open block bring the reader back to the outside of all blocks. -/
theorem outcome_bars_append {r : Reader} {bars : List Token} (hbars : ∀ t ∈ bars, t.IsBar)
    (hlength : 2 * r.blocks.length ≤ bars.length) (tokens : List Token) :
    r.outcome (bars ++ tokens) =
      ((start.outcome tokens).1 ++ r.closeAll.program, (start.outcome tokens).2) := by
  induction hn : bars.length using Nat.strong_induction_on generalizing r bars with
  | _ n ih =>
      by_cases hr : r.blocks = []
      · have hclosed : r.closeAll = r := by
          rw [closeAll, hr]
          rfl
        cases bars with
        | nil => rw [List.nil_append, outcome_of_top hr, hclosed]
        | cons bar bars =>
            obtain ⟨hbar, hrest⟩ := List.forall_mem_cons.mp hbars
            have hstep : r.step bar (bars ++ tokens) = .ok (r, bars ++ tokens) := by
              simp only [step, hr, if_pos hbar.2]
            rw [List.cons_append, outcome_of_step hstep]
            rw [List.length_cons] at hn
            exact ih bars.length (by omega) hrest (by simp [hr]) rfl
      · have hpos := List.length_pos_iff.2 hr
        cases bars with
        | nil =>
            rw [List.length_nil] at hlength
            omega
        | cons bar bars =>
            obtain ⟨hbar, hrest⟩ := List.forall_mem_cons.mp hbars
            cases bars with
            | nil =>
                rw [List.length_singleton] at hlength
                omega
            | cons next bars =>
                obtain ⟨hnext, hrest'⟩ := List.forall_mem_cons.mp hrest
                obtain ⟨r', rest, hstep, hleft, hblocks, hprogram⟩ :=
                  exists_step_bars hr hbar hnext (bars ++ tokens)
                rw [List.cons_append, List.cons_append, outcome_of_step hstep, ← hprogram]
                simp only [List.length_cons] at hlength hn
                rcases hleft with rfl | rfl
                · exact ih (next :: bars).length (by simp only [List.length_cons]; omega) hrest
                    (by simp only [List.length_cons]; omega) rfl
                · exact ih bars.length (by omega) hrest' (by omega) rfl

/-- Readers that are the same end in the same program. -/
theorem Same.closeAll {r r' : Reader} (h : r.Same r') :
    r.closeAll.program = r'.closeAll.program := by
  obtain ⟨program, blocks, skipped⟩ := r
  obtain ⟨program', blocks', skipped'⟩ := r'
  obtain ⟨hprogram, hblocks⟩ := h
  dsimp only at hprogram hblocks
  subst hprogram hblocks
  exact closeAll_skipped ⟨program, blocks, skipped'⟩ skipped

/-- After tokens that were read to their end, bars lead to the outside of all blocks. Where the
tokens end in the middle of a step, the first bar does what their end did. -/
theorem outcome_append {r : Reader} {tokens bars : List Token} (h : (r.run tokens).2 = none)
    (hbars : ∀ t ∈ bars, t.IsBar) (hdebt : r.debt tokens ≤ bars.length) (after : List Token) :
    r.outcome (tokens ++ (bars ++ after)) =
      ((start.outcome after).1 ++ (r.run tokens).1.program, (start.outcome after).2) := by
  cases tokens with
  | nil =>
      rw [List.nil_append, outcome_bars_append hbars hdebt, run]
  | cons t tokens =>
      cases decided_advance r t tokens with
      | leaves taken next rest r' htokens hnext =>
          have hpaid := debt_of_advance (by simp) (hnext rest)
          have hrun (rest : List Token) := (run_of_advance (by simp) (hnext rest)).1
          rw [htokens] at h hdebt ⊢
          rw [hrun] at h ⊢
          rw [List.append_assoc, List.cons_append, outcome, hrun, ← List.cons_append]
          exact outcome_append h hbars (by omega) after
      | takes r' hstep hbar =>
          have hpaid := debt_of_advance (by simp) hstep
          have hrun := (run_of_advance (by simp) hstep).1
          cases bars with
          | nil =>
              rw [List.length_nil] at hdebt
              omega
          | cons bar bars =>
              have hbars' := List.forall_mem_cons.mp hbars
              obtain ⟨r'', hsame, hread⟩ := hbar bar (bars ++ after) hbars'.1
              have hblocks := congrArg List.length hsame.blocks
              simp only [debt, List.length_nil, List.length_cons] at hpaid hdebt
              rw [hrun, run, hsame.closeAll, outcome]
              rcases hread with hleft | htaken
              · have hnext := (run_of_advance (by simp) hleft).1
                rw [← List.cons_append] at hnext
                rw [hnext]
                exact outcome_bars_append hbars (by simp only [List.length_cons]; omega) after
              · have hnext := (run_of_advance (by simp) htaken).1
                rw [← List.cons_append] at hnext
                rw [hnext]
                exact outcome_bars_append hbars'.2 (by omega) after
      | stops taken t' rest expected htokens hstep =>
          rw [htokens, run_of_advance_error (hstep rest)] at h
          cases h
      | ends expected hstep =>
          rw [run_of_advance_error hstep] at h
          cases h
termination_by r.debt tokens
decreasing_by
  subst_vars
  simpa [htokens] using hpaid

end Reader

namespace Statement

/-- The end of the input is where the last program ends. -/
theorem endPosition_append {tokens : List Token} (h : tokens ≠ []) (before : List Token) :
    Token.endPosition (before ++ tokens) = Token.endPosition tokens := by
  rw [Token.endPosition, List.getLast?_append_of_ne_nil before h]
  rfl

/-- Behind a program and at least as many bars as it has tokens, another program is read as if it
stood alone, whatever blocks the first one left open. -/
theorem read_append_bars (tokens bars after : List Token) (program : List Statement)
    (h : Statement.read tokens = .ok program) (hbars : ∀ t ∈ bars, t.IsBar)
    (hlength : tokens.length ≤ bars.length) :
    Statement.read (tokens ++ bars ++ after) = (Statement.read after).map (program ++ ·) := by
  obtain ⟨hnone, rfl⟩ := read_eq_ok_iff.mp h
  have hdebt : Reader.start.debt tokens ≤ bars.length := by
    simpa [Reader.debt, Reader.start] using hlength
  obtain ⟨hprogram, hmismatch⟩ :=
    Prod.mk.inj (Reader.outcome_append hnone hbars hdebt after)
  rw [List.append_assoc]
  cases hafter : Statement.read after with
  | ok program' =>
      obtain ⟨hnone', rfl⟩ := read_eq_ok_iff.mp hafter
      refine read_eq_ok_iff.mpr ⟨hmismatch.trans hnone', ?_⟩
      rw [hprogram, List.reverse_append]
      rfl
  | error e =>
      obtain ⟨m, hm, rfl⟩ := read_eq_error_iff.mp hafter
      refine read_eq_error_iff.mpr ⟨m, hmismatch.trans hm, ?_⟩
      have hne : after ≠ [] := by
        rintro rfl
        rw [Reader.run] at hm
        cases hm
      rw [← List.append_assoc, endPosition_append hne]

/-- A loop, an arm in it and an assignment in that are open where the bars begin. -/
theorem read_append_bars_nested :
    let tokens := Token.scan "loop (x) : if (y) : z = x"
    let program : List Statement := [.loop (.compile "x")
      [.conditional [⟨some (.compile "y"), [.assign "z" none (.compile "x")]⟩]]]
    let bars := List.replicate tokens.length (⟨.symbol, "|", .start⟩ : Token)
    Statement.read tokens = .ok program ∧
      Statement.read (tokens ++ bars ++ Token.scan "show (z)") =
        .ok (program ++ [.output ["z"]]) ∧
      Statement.read (tokens ++ bars ++ Token.scan "show") =
        .error ⟨.symbol "(", none, ⟨0, 4, 4⟩⟩ := by
  intro tokens program bars
  have hopen : Statement.read tokens = .ok program := by
    decide +kernel
  have hbars : ∀ t ∈ bars, t.IsBar := by
    intro t ht
    obtain rfl := List.eq_of_mem_replicate ht
    exact ⟨rfl, rfl⟩
  have hlength : tokens.length ≤ bars.length := Nat.le_of_eq List.length_replicate.symm
  have hread : Statement.read (Token.scan "show (z)") = .ok [.output ["z"]] := by
    decide +kernel
  have herror : Statement.read (Token.scan "show") = .error ⟨.symbol "(", none, ⟨0, 4, 4⟩⟩ := by
    decide +kernel
  refine ⟨hopen, ?_, ?_⟩
  · rw [read_append_bars _ _ _ _ hopen hbars hlength, hread]
    rfl
  · rw [read_append_bars _ _ _ _ hopen hbars hlength, herror]
    rfl

end Statement

end Sting
