import Sting.Proofs.Statement.Nesting

/-!
# Reading makes progress

The reader goes round in loops: over the statements of a program, of an arm and of a loop, over the
arms of a conditional, over arguments and conditions. From every place in every sequence of tokens a
turn of such a loop takes a token or is the last one, so all of them end.
-/

namespace Sting

namespace Reader

/-! ## Turns -/

/-- One turn of the loop over the statements of the innermost block, or of the program outside of
all blocks. -/
def turn (r : Reader) : List Token → Except Mismatch (Reader × List Token)
  | [] => .ok (r.close, [])
  | t :: rest => do
    let (r', rest) ← r.step t rest
    r'.finish r.blocks.length rest

/-- Some turns, one after the other. -/
def turns : Nat → Reader → List Token → Except Mismatch (Reader × List Token)
  | 0, r, tokens => .ok (r, tokens)
  | k + 1, r, tokens => do
    let (r', rest) ← r.turn tokens
    r'.turns k rest

/-- Whatever comes of it, a run goes through the end of the block. -/
theorem run_of_finish {depth : Nat} {r r' : Reader} {tokens rest : List Token}
    (h : r.finish depth tokens = .ok (r', rest)) : r.run tokens = r'.run rest := by
  fun_induction finish depth r tokens with
  | case1 r tokens hdepth =>
      cases h
      rfl
  | case2 r hdepth hsize ih => rw [← ih h, run, run, closeAll_close]
  | case3 r hdepth t tokens m hstep => cases h
  | case4 r hdepth t tokens r₁ rest₁ hstep hsize ih => rw [run_of_step hstep, ih h]

/-- A mismatch while a statement is finished is one of the run. -/
theorem run_of_finish_error {depth : Nat} {r : Reader} {tokens : List Token} {m : Mismatch}
    (h : r.finish depth tokens = .error m) : (r.run tokens).2 = some m := by
  fun_induction finish depth r tokens with
  | case1 r tokens hdepth => cases h
  | case2 r hdepth hsize ih =>
      have hrun := ih h
      rw [run] at hrun
      cases hrun
  | case3 r hdepth t tokens m' hstep =>
      cases h
      rw [run_of_mismatch hstep]
  | case4 r hdepth t tokens r₁ rest₁ hstep hsize ih => rw [run_of_step hstep, ih h]

/-- A step that takes no token ends a block. -/
theorem Progress.ends_or_takes {r r' : Reader} {tokens rest : List Token}
    (h : r.Progress tokens r' rest) :
    r'.blocks.length < r.blocks.length ∨ rest.length < tokens.length := by
  cases h with
  | closes hblocks hrest => exact .inl hblocks
  | takes hblocks hrest => exact .inr hrest
  | opens hblocks hrest => exact .inr (by omega)

/-- A turn is a step, and finishing what it begins. -/
theorem exists_of_turn {r r' : Reader} {t : Token} {tokens rest : List Token}
    (h : r.turn (t :: tokens) = .ok (r', rest)) :
    ∃ r₁ rest₁, r.step t tokens = .ok (r₁, rest₁) ∧
      r₁.finish r.blocks.length rest₁ = .ok (r', rest) := by
  obtain ⟨⟨r₁, rest₁⟩, hstep, hfinish⟩ := Clause.exists_of_bind h
  exact ⟨r₁, rest₁, hstep, hfinish⟩

/-- A turn closes a block or takes a token, and opens no block that it leaves open. -/
theorem progress_of_turn {r r' : Reader} {t : Token} {tokens rest : List Token}
    (h : r.turn (t :: tokens) = .ok (r', rest)) :
    rest <:+ t :: tokens ∧ r'.blocks.length ≤ r.blocks.length ∧
      (r'.blocks.length < r.blocks.length ∨ rest.length < (t :: tokens).length) := by
  obtain ⟨r₁, rest₁, hstep, hfinish⟩ := exists_of_turn h
  obtain ⟨hrest, hblocks⟩ := suffix_of_finish hfinish
  refine ⟨hrest.trans (suffix_of_step hstep), hblocks, ?_⟩
  rcases (progress_of_step hstep).ends_or_takes with hends | htakes
  · rw [finish_of_le (Nat.le_of_lt hends)] at hfinish
    cases hfinish
    exact .inl hends
  · exact .inr (Nat.lt_of_le_of_lt hrest.length_le htakes)

/-- A run goes on behind a turn. -/
theorem run_of_turn {r r' : Reader} {t : Token} {tokens rest : List Token}
    (h : r.turn (t :: tokens) = .ok (r', rest)) : r.run (t :: tokens) = r'.run rest := by
  obtain ⟨r₁, rest₁, hstep, hfinish⟩ := exists_of_turn h
  rw [run_of_step hstep, run_of_finish hfinish]

/-- A mismatch of a turn is one of the run. -/
theorem run_of_turn_error {r : Reader} {t : Token} {tokens : List Token} {m : Mismatch}
    (h : r.turn (t :: tokens) = .error m) : (r.run (t :: tokens)).2 = some m := by
  cases hstep : r.step t tokens with
  | error m' =>
      simp only [turn, hstep] at h
      cases h
      rw [run_of_mismatch hstep]
  | ok next =>
      obtain ⟨r₁, rest₁⟩ := next
      simp only [turn, hstep] at h
      rw [run_of_step hstep, run_of_finish_error h]

/-- Outside of all blocks a run is a sequence of turns, at most as many as there are tokens. Either
they take all tokens, or the next turn fails. -/
theorem exists_turns {r : Reader} (hr : r.blocks = []) (tokens : List Token) :
    ∃ k ≤ tokens.length, ∃ r' rest, r.turns k tokens = .ok (r', rest) ∧ r'.blocks = [] ∧
      rest <:+ tokens ∧ (rest = [] ∧ r.run tokens = (r', none) ∨
        ∃ m, rest ≠ [] ∧ r'.turn rest = .error m ∧ (r.run tokens).2 = some m) := by
  -- A turn can take many tokens, so the induction is on how many are left.
  induction hn : tokens.length using Nat.strong_induction_on generalizing r tokens with
  | _ n ih =>
      cases tokens with
      | nil =>
          have hrun : r.run [] = (r, none) := by
            rw [run, closeAll, hr]
            rfl
          exact ⟨0, Nat.zero_le _, r, [], rfl, hr, List.suffix_rfl, .inl ⟨rfl, hrun⟩⟩
      | cons t tokens =>
          cases hturn : r.turn (t :: tokens) with
          | error m =>
              exact ⟨0, Nat.zero_le _, r, t :: tokens, rfl, hr, List.suffix_rfl,
                .inr ⟨m, by simp, hturn, run_of_turn_error hturn⟩⟩
          | ok next =>
              obtain ⟨r₁, rest₁⟩ := next
              obtain ⟨hsuffix, hblocks, hprogress⟩ := progress_of_turn hturn
              rw [hr] at hblocks hprogress
              have hr₁ : r₁.blocks = [] := List.length_eq_zero_iff.mp (Nat.le_zero.mp hblocks)
              have htakes : rest₁.length < n := by
                rw [← hn]
                exact hprogress.resolve_left (Nat.not_lt_zero _)
              obtain ⟨k, hk, r', rest, hturns, hr', hrest, hend⟩ := ih _ htakes hr₁ rest₁ rfl
              refine ⟨k + 1, by omega, r', rest, ?_, hr', hrest.trans hsuffix, ?_⟩
              · rw [turns, hturn]
                exact hturns
              · rw [run_of_turn hturn]
                exact hend

/-- Behind an arm no block is opened but another arm in its place. -/
theorem length_blocks_of_nextBranch {r r' : Reader} {tokens rest : List Token}
    (h : r.nextBranch tokens = .ok (r', rest)) : r'.blocks.length ≤ r.blocks.length := by
  rcases nextBranch_cases h with rfl | ⟨-, hblocks⟩
  · rw [length_blocks_close]
    exact Nat.sub_le _ _
  · exact Nat.le_of_eq hblocks

end Reader

/-! ## Cursors -/

/-- A suffix of the tokens is a cursor among them. -/
theorem cursor_of_split {tokens front rest : List Token} {p : Nat} (hp : p ≤ tokens.length)
    (h : tokens.drop p = front ++ rest) :
    rest = tokens.drop (p + front.length) ∧ p + front.length ≤ tokens.length := by
  constructor
  · rw [← List.drop_drop, h, List.drop_left]
  · have hlength := congrArg List.length h
    rw [List.length_append, List.length_drop] at hlength
    omega

/-- What is left of the tokens behind a cursor is a cursor further on. -/
theorem exists_cursor {tokens rest : List Token} {p : Nat} (hp : p ≤ tokens.length)
    (h : rest <:+ tokens.drop p) : ∃ q, rest = tokens.drop q ∧ p ≤ q ∧ q ≤ tokens.length := by
  obtain ⟨front, hfront⟩ := h
  obtain ⟨hrest, hle⟩ := cursor_of_split hp hfront.symm
  exact ⟨p + front.length, hrest, Nat.le_add_right _ _, hle⟩

namespace Reader

/-- What comes of a turn at a cursor: it fails, or it goes on to a cursor that is not before it. If
it takes no token, the block ends. -/
def Advances (r : Reader) (tokens : List Token) (p : Nat)
    (result : Except Mismatch (Reader × List Token)) : Prop :=
  (∃ m, result = .error m) ∨ ∃ r' q, result = .ok (r', tokens.drop q) ∧ p ≤ q ∧
    q ≤ tokens.length ∧ r'.blocks.length ≤ r.blocks.length ∧
    (r'.blocks.length < r.blocks.length ∨ p < q)

/-- Progress on the tokens is progress of the cursor. -/
theorem advances_of_progress {r : Reader} {tokens : List Token} {p : Nat}
    {result : Except Mismatch (Reader × List Token)} (hp : p ≤ tokens.length)
    (h : ∀ r' rest, result = .ok (r', rest) → rest <:+ tokens.drop p ∧
      r'.blocks.length ≤ r.blocks.length ∧
      (r'.blocks.length < r.blocks.length ∨ rest.length < (tokens.drop p).length)) :
    r.Advances tokens p result := by
  cases result with
  | error m => exact .inl ⟨m, rfl⟩
  | ok next =>
      obtain ⟨r', rest⟩ := next
      obtain ⟨hsuffix, hblocks, hprogress⟩ := h r' rest rfl
      obtain ⟨q, rfl, hq, hle⟩ := exists_cursor hp hsuffix
      refine .inr ⟨r', q, rfl, hq, hle, hblocks, ?_⟩
      rw [List.length_drop, List.length_drop] at hprogress
      omega

/-- A turn moves the cursor on or closes a block. -/
theorem turn_advances (r : Reader) {tokens : List Token} {p : Nat} (hp : p < tokens.length) :
    r.Advances tokens p (r.turn (tokens.drop p)) := by
  refine advances_of_progress (Nat.le_of_lt hp) ?_
  intro r' rest h
  rw [List.drop_eq_getElem_cons hp] at h ⊢
  exact progress_of_turn h

/-- What follows an arm moves the cursor on or closes a block. -/
theorem nextBranch_advances {r : Reader} (hr : r.blocks ≠ []) {tokens : List Token} {p : Nat}
    (hp : p ≤ tokens.length) : r.Advances tokens p (r.nextBranch (tokens.drop p)) := by
  refine advances_of_progress hp ?_
  intro r' rest h
  exact ⟨(decided_nextBranch r _).suffix h, length_blocks_of_nextBranch h,
    (progress_of_nextBranch hr h).ends_or_takes⟩

end Reader

/-- Arguments go up to the first closing parenthesis. -/
theorem Clause.takeArguments_cases (tokens : List Token) :
    takeArguments tokens = .error ⟨.symbol ")", none⟩ ∨
      ∃ args close rest, tokens = args ++ close :: rest ∧
        takeArguments tokens = .ok (args, rest) := by
  have hsplit := List.takeWhile_append_dropWhile (p := fun t : Token => t.text != ")") (l := tokens)
  unfold takeArguments
  split
  · exact .inl rfl
  · rename_i close rest hrest
    rw [hrest] at hsplit
    exact .inr ⟨_, close, rest, hsplit.symm, rfl⟩

namespace Statement

/-- How reading gets on in a sequence of tokens. -/
structure MakesProgress (tokens : List Token) : Prop where
  /-- A statement fails or takes tokens, and it does not matter in which blocks it stands. -/
  statement (p : Nat) (t : Token) (ht : tokens[p]? = some t) :
    (∃ m, ∀ r : Reader, r.statement (tokens.drop p) = .error m) ∨
      ∃ read q, p < q ∧ q ≤ tokens.length ∧ ∀ r : Reader, ∃ r',
        r.statement (tokens.drop p) = .ok (r', tokens.drop q) ∧ r'.Same (r.receive t read)
  /-- The loops over the statements of a program, of an arm and of a loop. -/
  turn (r : Reader) (p : Nat) (hp : p < tokens.length) :
    r.Advances tokens p (r.turn (tokens.drop p))
  /-- A turn at a token that ends nothing is the statement there. -/
  begins (r : Reader) (p : Nat) (t : Token) (ht : tokens[p]? = some t) (hbar : t.text ≠ "|")
      (hends : r.inBranch = true → Reader.endsBranch t.text = false) :
    r.turn (tokens.drop p) = r.statement (tokens.drop p)
  /-- The loop over the arms of a conditional. -/
  branch (r : Reader) (p : Nat) (hr : r.blocks ≠ []) (hp : p ≤ tokens.length) :
    r.Advances tokens p (r.nextBranch (tokens.drop p))
  /-- The loop over arguments, and over the words of a prompt: one token in each turn. -/
  arguments (p : Nat) (hp : p ≤ tokens.length) :
    Clause.takeArguments (tokens.drop p) = .error ⟨.symbol ")", none⟩ ∨
      ∃ args q, Clause.takeArguments (tokens.drop p) = .ok (args, tokens.drop q) ∧
        q = p + args.length + 1 ∧ q ≤ tokens.length
  /-- The loop over a condition: one token in each turn. -/
  condition (depth p : Nat) (hp : p ≤ tokens.length) :
    ∃ inner q, Clause.takeMatching depth (tokens.drop p) = (inner, tokens.drop q) ∧
      q ≤ tokens.length ∧ (q = p + inner.length + 1 ∨ q = p + inner.length ∧ q = tokens.length)
  /-- The program is read in at most as many turns as there are tokens. Either they are all taken,
  or the next turn fails. -/
  program : ∃ k ≤ tokens.length, ∃ r q, Reader.start.turns k tokens = .ok (r, tokens.drop q) ∧
    (q = tokens.length ∧ Statement.read tokens = .ok r.program.reverse ∨
      ∃ m, q < tokens.length ∧ r.turn (tokens.drop q) = .error m ∧
        Statement.read tokens = .error (.ofMismatch (Token.endPosition tokens) m))

/-- Reading makes progress in every sequence of tokens, also in one that no text has. -/
theorem reading_makes_progress (tokens : List Token) : MakesProgress tokens where
  statement p t ht := by
    obtain ⟨hp, rfl⟩ := List.getElem?_eq_some_iff.mp ht
    rw [List.drop_eq_getElem_cons hp]
    rcases Reader.exists_statement tokens[p] (tokens.drop (p + 1)) with
      hfails | ⟨read, rest, hsuffix, hread⟩
    · exact .inl hfails
    · obtain ⟨q, rfl, hq, hle⟩ := exists_cursor hp hsuffix
      exact .inr ⟨read, q, hq, hle, hread⟩
  turn r p hp := r.turn_advances hp
  begins r p t ht hbar hends := by
    obtain ⟨hp, rfl⟩ := List.getElem?_eq_some_iff.mp ht
    rw [List.drop_eq_getElem_cons hp, Reader.turn, Reader.step_of_begins hbar hends,
      Reader.statement]
  branch r p hr hp := Reader.nextBranch_advances hr hp
  arguments p hp := by
    rcases Clause.takeArguments_cases (tokens.drop p) with
      hfails | ⟨args, close, rest, hsplit, htaken⟩
    · exact .inl hfails
    · rw [List.append_cons] at hsplit
      obtain ⟨rfl, hle⟩ := cursor_of_split hp hsplit
      rw [List.length_append] at htaken hle
      exact .inr ⟨args, _, htaken, rfl, hle⟩
  condition depth p hp := by
    rcases Clause.takeMatching_cases depth (tokens.drop p) with
      ⟨inner, close, rest, hsplit, htaken⟩ | hall
    · have hrest := htaken rest
      rw [← hsplit] at hrest
      rw [List.append_cons] at hsplit
      obtain ⟨rfl, hle⟩ := cursor_of_split hp hsplit
      rw [List.length_append] at hrest hle
      exact ⟨inner, _, hrest, hle, .inl rfl⟩
    · refine ⟨tokens.drop p, tokens.length, ?_, Nat.le_refl _, .inr ⟨?_, rfl⟩⟩
      · rw [hall, List.drop_length]
      · rw [List.length_drop]
        omega
  program := by
    obtain ⟨k, hk, r, rest, hturns, -, hsuffix, hend⟩ :=
      Reader.exists_turns (r := .start) rfl tokens
    obtain ⟨q, rfl, -, hq⟩ := exists_cursor (Nat.zero_le _) hsuffix
    refine ⟨k, hk, r, q, hturns, ?_⟩
    rcases hend with ⟨hnil, hrun⟩ | ⟨m, hrest, hturn, hrun⟩
    · refine .inl ⟨Nat.le_antisymm hq (List.drop_eq_nil_iff.mp hnil), ?_⟩
      rw [read_eq_ok_iff, hrun]
      exact ⟨rfl, rfl⟩
    · refine .inr ⟨m, ?_, hturn, read_eq_error_iff.mpr ⟨m, hrun, rfl⟩⟩
      exact Nat.lt_of_not_le fun hle => hrest (List.drop_eq_nil_iff.mpr hle)

/-- Keywords that are numbers: a loop with a conditional in it, both open at the end. -/
theorem reading_makes_progress_unspelled :
    let tokens : List Token := ["loop", "(", ")", ":", "if", "(", "x", ")", ":", "|", "else",
      ":"].map fun text => ⟨.number, text, .start⟩
    ∃ q, 0 < q ∧ q ≤ 12 ∧
      ∀ r : Reader, ∃ r', r.statement tokens = .ok (r', tokens.drop q) := by
  intro tokens
  have hok : (Reader.start.statement tokens).isOk = true := by decide +kernel
  rcases (reading_makes_progress tokens).statement 0 _ rfl with
    ⟨m, hfails⟩ | ⟨read, q, hq, hle, hread⟩
  · have hm : Reader.start.statement tokens = .error m := hfails .start
    rw [hm] at hok
    cases hok
  · refine ⟨q, hq, hle, ?_⟩
    intro r
    obtain ⟨r', hr', -⟩ := hread r
    exact ⟨r', hr'⟩

end Statement

end Sting
