import Sting.Proofs.Statement.Separators

/-!
# Statements in their places

A statement is read up to the end of the blocks that it opens. Steps inside of these blocks do not
depend on the blocks around them, so a statement takes the same tokens and becomes the same wherever
it stands.
-/

namespace Sting

namespace Clause

/-- What is left is the end of what was there. -/
theorem Decided.suffix {α : Type} {same : α → α → Prop}
    {f : List Token → Except Mismatch (α × List Token)} {tokens rest : List Token} {a : α}
    (h : Decided same f tokens) (hf : f tokens = .ok (a, rest)) : rest <:+ tokens := by
  cases h with
  | leaves taken next rest' a' htokens h =>
      subst htokens
      rw [h] at hf
      cases hf
      exact List.suffix_append taken _
  | takes a' h hbar =>
      rw [h] at hf
      cases hf
      exact List.nil_suffix
  | stops taken t rest' expected htokens h =>
      subst htokens
      rw [h] at hf
      cases hf
  | ends expected h =>
      rw [h] at hf
      cases hf

end Clause

namespace Reader

/-! ## Up to the end of a block -/

/-- Closing a block leaves less to do. -/
theorem size_close {r : Reader} {depth : Nat} (h : ¬ r.blocks.length ≤ depth)
    (tokens : List Token) : r.close.size tokens < r.size tokens := by
  rw [size, size, length_blocks_close]
  omega

/-- Goes on until at most `depth` blocks are open. At the end of the input blocks just end. -/
def finish (depth : Nat) (r : Reader) (tokens : List Token) :
    Except Mismatch (Reader × List Token) :=
  if hdepth : r.blocks.length ≤ depth then .ok (r, tokens)
  else
    match tokens with
    | [] =>
      have := size_close hdepth []
      r.close.finish depth []
    | t :: rest =>
      match h : r.step t rest with
      | .error m => .error m
      | .ok (r', rest') =>
        have := size_of_step h
        r'.finish depth rest'
termination_by r.size tokens

/-- Reads the statement at the first token, with the blocks that it opens. -/
def statement (r : Reader) : List Token → Except Mismatch (Reader × List Token)
  | [] => .ok (r, [])
  | t :: rest => do
    let (r', rest) ← r.takeClause t rest
    r'.finish r.blocks.length rest

/-- A step leaves a suffix of the tokens. -/
theorem suffix_of_step {r r' : Reader} {t : Token} {tokens rest : List Token}
    (h : r.step t tokens = .ok (r', rest)) : rest <:+ t :: tokens :=
  (decided_advance r t tokens).suffix h

/-- Finishing leaves a suffix of the tokens, and no more blocks than asked for. -/
theorem suffix_of_finish {depth : Nat} {r r' : Reader} {tokens rest : List Token}
    (h : r.finish depth tokens = .ok (r', rest)) :
    rest <:+ tokens ∧ r'.blocks.length ≤ depth := by
  fun_induction finish depth r tokens with
  | case1 r tokens hdepth =>
      cases h
      exact ⟨List.suffix_rfl, hdepth⟩
  | case2 r hdepth hsize ih => exact ih h
  | case3 r hdepth t tokens m hstep => cases h
  | case4 r hdepth t tokens r₁ rest₁ hstep hsize ih =>
      obtain ⟨hrest, hblocks⟩ := ih h
      exact ⟨hrest.trans (suffix_of_step hstep), hblocks⟩

/-- Nothing is left to finish where no more blocks are open. -/
theorem finish_of_le {depth : Nat} {r : Reader} (h : r.blocks.length ≤ depth)
    (tokens : List Token) : r.finish depth tokens = .ok (r, tokens) := by
  rw [finish.eq_def, dif_pos h]

/-- A step may be taken first. -/
theorem finish_of_step {depth : Nat} {r r' : Reader} {t : Token} {tokens rest : List Token}
    (hdepth : depth < r.blocks.length) (h : r.step t tokens = .ok (r', rest)) :
    r.finish depth (t :: tokens) = r'.finish depth rest := by
  rw [finish.eq_def, dif_neg (Nat.not_le.mpr hdepth)]
  dsimp only
  split
  · rename_i hm
    rw [h] at hm
    cases hm
  · rename_i hm
    rw [h] at hm
    cases hm
    rfl

/-- A mismatch of the step is one of the whole. -/
theorem finish_of_mismatch {depth : Nat} {r : Reader} {t : Token} {tokens : List Token}
    {m : Mismatch} (hdepth : depth < r.blocks.length) (h : r.step t tokens = .error m) :
    r.finish depth (t :: tokens) = .error m := by
  rw [finish.eq_def, dif_neg (Nat.not_le.mpr hdepth)]
  dsimp only
  split
  · rename_i hm
    rw [h] at hm
    cases hm
    rfl
  · rename_i hm
    rw [h] at hm
    cases hm

/-- At the end of the tokens the innermost block is closed first. -/
theorem finish_nil {depth : Nat} {r : Reader} (hdepth : depth < r.blocks.length) :
    r.finish depth [] = r.close.finish depth [] := by
  rw [finish.eq_def, dif_neg (Nat.not_le.mpr hdepth)]

/-! ## Inside of other blocks -/

/-- The reader inside of the innermost block of another one, which gets the statements that are
complete. -/
def within (r base : Reader) : Reader :=
  let below := r.program.foldr (fun s below => below.add s) base
  ⟨below.program, r.blocks ++ below.blocks, r.skipped ++ base.skipped⟩

/-- A reader that has read nothing is the one around it. -/
theorem start_within (base : Reader) : start.within base = base := rfl

/-- Adding a statement does not look at the tokens that were passed over. -/
theorem add_skipped (r : Reader) (tokens : List Token) (s : Statement) :
    ({ r with skipped := tokens } : Reader).add s = { r.add s with skipped := tokens } := by
  obtain ⟨program, blocks, skipped⟩ := r
  match blocks with
  | [] | .branch .. :: _ | .loop .. :: _ => rfl

/-- A statement is added inside as it is outside. -/
theorem add_within (r base : Reader) (s : Statement) :
    (r.within base).add s = (r.add s).within base := by
  obtain ⟨program, blocks, skipped⟩ := r
  match blocks with
  | [] => exact add_skipped _ (skipped ++ base.skipped) s
  | .branch .. :: _ | .loop .. :: _ => rfl

/-- A block inside is closed as it is by itself. -/
theorem close_within {r : Reader} (hr : r.blocks ≠ []) (base : Reader) :
    (r.within base).close = r.close.within base := by
  obtain ⟨program, blocks, skipped⟩ := r
  match blocks with
  | [] => exact absurd rfl hr
  | .branch .. :: outer | .loop .. :: outer => exact add_within ⟨program, outer, skipped⟩ base _

/-- A token inside of a block is passed over as it is by itself. -/
theorem skip_within {r : Reader} (hr : r.blocks ≠ []) (base : Reader) (t : Token) :
    (r.within base).skip t = (r.skip t).within base := by
  have hclose := close_within (r := { r with skipped := t :: r.skipped }) hr base
  obtain ⟨program, blocks, skipped⟩ := r
  match blocks with
  | [] => exact absurd rfl hr
  | .branch .. :: _ => rfl
  | .loop .. :: _ => exact hclose

/-- A stray token is the exception: outside of its own blocks it can end a loop of `base`. -/
theorem accept_within {r : Reader} {clause : Clause} (h : r.blocks ≠ [] ∨ clause ≠ .stray)
    (base : Reader) (t : Token) :
    (r.within base).accept t clause = (r.accept t clause).within base := by
  cases clause with
  | simple s => exact add_within r base s
  | conditional c => rfl
  | loop c => rfl
  | stray => exact skip_within (h.resolve_right (absurd rfl)) base t

/-- What follows an arm does not depend on the blocks around it. -/
theorem nextBranch_within {r : Reader} (hr : r.blocks ≠ []) (base : Reader) (tokens : List Token) :
    (r.within base).nextBranch tokens =
      (r.nextBranch tokens).map fun (r', rest) => (r'.within base, rest) := by
  have hclose := close_within hr base
  obtain ⟨program, blocks, skipped⟩ := r
  match blocks, tokens with
  | [], _ => exact absurd rfl hr
  | .branch earlier (some condition) body :: outer, t :: rest =>
      simp only [nextBranch, within, List.cons_append]
      split
      · cases Clause.takeCondition rest <;> rfl
      · split
        · cases Clause.expect ":" rest <;> rfl
        · exact congrArg (fun r => Except.ok (r, t :: rest)) hclose
  | .branch _ (some _) _ :: _, [] => exact congrArg (fun r => Except.ok (r, [])) hclose
  | .branch _ none _ :: _, tokens => exact congrArg (fun r => Except.ok (r, tokens)) hclose
  | .loop .. :: _, tokens => exact congrArg (fun r => Except.ok (r, tokens)) hclose

/-- A clause inside of a block does not depend on the blocks around it. -/
theorem takeClause_within {r : Reader} (hr : r.blocks ≠ []) (base : Reader) (t : Token)
    (tokens : List Token) :
    (r.within base).takeClause t tokens =
      (r.takeClause t tokens).map fun (r', rest) => (r'.within base, rest) := by
  rw [takeClause_eq_map, takeClause_eq_map]
  cases Clause.read t tokens with
  | error m => rfl
  | ok read =>
      change Except.ok ((r.within base).accept t read.1, read.2) = _
      rw [accept_within (.inl hr)]
      rfl

/-- A step inside of a block does not depend on the blocks around it. -/
theorem step_within {r : Reader} (hr : r.blocks ≠ []) (base : Reader) (t : Token)
    (tokens : List Token) :
    (r.within base).step t tokens =
      (r.step t tokens).map fun (r', rest) => (r'.within base, rest) := by
  have hclose := close_within hr base
  have hclause := takeClause_within hr base
  have hnext := nextBranch_within hr base
  obtain ⟨program, blocks, skipped⟩ := r
  match blocks with
  | [] => exact absurd rfl hr
  | .branch earlier condition body :: outer =>
      by_cases hends : endsBranch t.text = true
      · simp only [step, within, List.cons_append, if_pos hends]
        exact hnext _
      · simp only [step, within, List.cons_append, if_neg hends]
        exact hclause t tokens
  | .loop condition body :: outer =>
      by_cases ht : t.text = "|"
      · cases tokens with
        | nil =>
            simp only [step, within, List.cons_append, if_pos ht]
            exact congrArg (fun r => Except.ok (r, [])) hclose
        | cons u tokens =>
            by_cases hu : Clause.isBoundary u.text = true
            · simp only [step, within, List.cons_append, if_pos ht, if_pos hu]
              exact congrArg (fun r => Except.ok (r, u :: tokens)) hclose
            · simp only [step, within, List.cons_append, if_pos ht, if_neg hu]
              exact hclause u tokens
      · simp only [step, within, List.cons_append, if_neg ht]
        exact hclause t tokens

/-- The open blocks are those inside and those around. -/
theorem length_blocks_within (r base : Reader) :
    (r.within base).blocks.length = r.blocks.length + base.blocks.length := by
  have hbelow (program : List Statement) :
      (program.foldr (fun s below => below.add s) base).blocks.length = base.blocks.length := by
    induction program with
    | nil => rfl
    | cons s program ih => rw [List.foldr_cons, length_blocks_add, ih]
  rw [within, List.length_append, hbelow]

/-- Finishing inside leaves the blocks around it open. -/
theorem finish_within (depth : Nat) (r base : Reader) (tokens : List Token) :
    (r.within base).finish (depth + base.blocks.length) tokens =
      (r.finish depth tokens).map fun (r', rest) => (r'.within base, rest) := by
  have hlength := length_blocks_within r base
  -- Where `finish` goes on, a block of the inner reader is open, and its steps do not reach `base`.
  fun_induction finish depth r tokens with
  | case1 r tokens hdepth =>
      rw [finish_of_le (by omega)]
      rfl
  | case2 r hdepth hsize ih =>
      have hr : r.blocks ≠ [] := List.ne_nil_of_length_pos (by omega)
      rw [finish_nil (by omega), close_within hr, ih (length_blocks_within _ _)]
  | case3 r hdepth t tokens m hstep =>
      have hr : r.blocks ≠ [] := List.ne_nil_of_length_pos (by omega)
      have hwithin := step_within hr base t tokens
      rw [hstep] at hwithin
      rw [finish_of_mismatch (by omega) hwithin]
      rfl
  | case4 r hdepth t tokens r₁ rest₁ hstep hsize ih =>
      have hr : r.blocks ≠ [] := List.ne_nil_of_length_pos (by omega)
      have hwithin := step_within hr base t tokens
      rw [hstep] at hwithin
      rw [finish_of_step (by omega) hwithin, ih (length_blocks_within _ _)]

/-! ## One statement -/

/-- The complete statements outside of all blocks, with the one that is still open. -/
def begun (r : Reader) : Nat :=
  r.program.length + min r.blocks.length 1

/-- A statement that is added inside of a block begins nothing at the outside. -/
theorem begun_add {r : Reader} (hr : r.blocks ≠ []) (s : Statement) :
    (r.add s).begun = r.begun := by
  obtain ⟨program, blocks, skipped⟩ := r
  match blocks with
  | [] => exact absurd rfl hr
  | .branch .. :: _ | .loop .. :: _ => rfl

/-- A block that is opened inside of another begins nothing at the outside. -/
theorem begun_enter {r : Reader} (hr : r.blocks ≠ []) (b : Block) :
    (r.enter b).begun = r.begun := by
  have hlength := List.length_pos_iff.mpr hr
  change r.program.length + min (r.blocks.length + 1) 1 = r.program.length + min r.blocks.length 1
  omega

/-- A block that is closed was begun before. -/
theorem begun_close {r : Reader} (hr : r.blocks ≠ []) : r.close.begun = r.begun := by
  obtain ⟨program, blocks, skipped⟩ := r
  match blocks with
  | [] => exact absurd rfl hr
  | [.branch ..] | [.loop ..] => rfl
  | .branch .. :: b :: outer | .loop .. :: b :: outer => cases b <;> simp [close, add, begun]

/-- Passing over a token begins nothing. -/
theorem begun_skip {r : Reader} (hr : r.blocks ≠ []) (t : Token) : (r.skip t).begun = r.begun := by
  have hclose := begun_close (r := { r with skipped := t :: r.skipped }) hr
  obtain ⟨program, blocks, skipped⟩ := r
  match blocks with
  | [] => exact absurd rfl hr
  | .branch .. :: _ => rfl
  | .loop .. :: _ => exact hclose

/-- A clause inside of a block begins nothing at the outside. -/
theorem begun_of_takeClause {r r' : Reader} {t : Token} {tokens rest : List Token}
    (hr : r.blocks ≠ []) (h : r.takeClause t tokens = .ok (r', rest)) : r'.begun = r.begun := by
  obtain ⟨⟨clause, tail⟩, -, h⟩ := Clause.exists_of_bind h
  cases clause with
  | simple s =>
      cases h
      exact begun_add hr s
  | conditional c =>
      cases h
      exact begun_enter hr _
  | loop c =>
      cases h
      exact begun_enter hr _
  | stray =>
      cases h
      exact begun_skip hr t

/-- After an arm the conditional ends, or another arm stands in its place. -/
theorem nextBranch_cases {r r' : Reader} {tokens rest : List Token}
    (h : r.nextBranch tokens = .ok (r', rest)) :
    r' = r.close ∨ r'.program = r.program ∧ r'.blocks.length = r.blocks.length := by
  unfold nextBranch at h
  split at h
  · rename_i hb
    dsimp only at h
    split at h
    · obtain ⟨⟨c, tail⟩, -, h⟩ := Clause.exists_of_bind h
      cases h
      exact .inr ⟨rfl, by rw [hb]; rfl⟩
    · split at h
      · obtain ⟨tail, -, h⟩ := Clause.exists_of_bind h
        cases h
        exact .inr ⟨rfl, by rw [hb]; rfl⟩
      · cases h
        exact .inl rfl
  · cases h
    exact .inl rfl

/-- Another arm begins nothing at the outside. -/
theorem begun_of_nextBranch {r r' : Reader} {tokens rest : List Token} (hr : r.blocks ≠ [])
    (h : r.nextBranch tokens = .ok (r', rest)) : r'.begun = r.begun := by
  rcases nextBranch_cases h with rfl | ⟨hprogram, hblocks⟩
  · exact begun_close hr
  · rw [begun, begun, hprogram, hblocks]

/-- No step inside of a block begins anything at the outside. -/
theorem begun_of_step {r r' : Reader} {t : Token} {tokens rest : List Token}
    (hr : r.blocks ≠ []) (h : r.step t tokens = .ok (r', rest)) : r'.begun = r.begun := by
  unfold step at h
  split at h
  · rename_i hb
    exact absurd hb hr
  · split at h
    · exact begun_of_nextBranch hr h
    · exact begun_of_takeClause hr h
  · split at h
    · split at h
      · cases h
        exact begun_close hr
      · split at h
        · cases h
          exact begun_close hr
        · exact begun_of_takeClause hr h
    · exact begun_of_takeClause hr h

/-- Up to the end of a block no other statement is begun outside of it. -/
theorem begun_of_finish {depth : Nat} {r r' : Reader} {tokens rest : List Token}
    (h : r.finish depth tokens = .ok (r', rest)) : r'.begun = r.begun := by
  fun_induction finish depth r tokens with
  | case1 r tokens hdepth =>
      cases h
      rfl
  | case2 r hdepth hsize ih =>
      have hr : r.blocks ≠ [] := List.ne_nil_of_length_pos (by omega)
      rw [ih h, begun_close hr]
  | case3 r hdepth t tokens m hstep => cases h
  | case4 r hdepth t tokens r₁ rest₁ hstep hsize ih =>
      have hr : r.blocks ≠ [] := List.ne_nil_of_length_pos (by omega)
      rw [ih h, begun_of_step hr hstep]

/-- The reader after what was read at a token: a statement, or none. -/
def receive (r : Reader) (t : Token) : Option Statement → Reader
  | some s => r.add s
  | none => r.skip t

/-- Outside of all blocks what is begun is complete. -/
theorem exists_program_eq {r : Reader} (hblocks : r.blocks = []) (hbegun : r.begun = 1) :
    ∃ s, r.program = [s] := by
  rw [begun, hblocks] at hbegun
  exact List.length_eq_one_iff.mp hbegun

/-- A reader that has just read one statement adds it to the one around it. -/
theorem within_same {r base : Reader} {s : Statement} (hblocks : r.blocks = [])
    (hprogram : r.program = [s]) : (r.within base).Same (base.add s) := by
  constructor
  · rw [within, hprogram]
    rfl
  · rw [within, hprogram, hblocks]
    rfl

/-- A clause that is no stray token becomes one statement, which the reader adds wherever it is. -/
theorem statement_of_clause {t : Token} {tokens rest : List Token} {clause : Clause}
    (hread : Clause.read t tokens = .ok (clause, rest)) (hclause : clause ≠ .stray) :
    (∃ m, ∀ r : Reader, r.statement (t :: tokens) = .error m) ∨
      ∃ s rest', rest' <:+ rest ∧ ∀ r : Reader, ∃ r', r.statement (t :: tokens) = .ok (r', rest') ∧
        r'.Same (r.add s) := by
  -- Read from the start, the clause leaves one statement; `within` brings it to any place.
  have hstatement (r : Reader) : r.statement (t :: tokens) =
      ((start.accept t clause).finish 0 rest).map fun (r', rest) => (r'.within r, rest) := by
    change (r.takeClause t tokens >>= fun (r', rest) => r'.finish r.blocks.length rest) = _
    rw [takeClause_eq_map, hread, ← finish_within, Nat.zero_add, ← accept_within (.inr hclause),
      start_within]
    rfl
  have hbegun : (start.accept t clause).begun = 1 := by
    cases clause with
    | simple s => rfl
    | conditional c => rfl
    | loop c => rfl
    | stray => exact absurd rfl hclause
  cases hfinish : (start.accept t clause).finish 0 rest with
  | error m =>
      refine .inl ⟨m, fun r => ?_⟩
      rw [hstatement, hfinish]
      rfl
  | ok next =>
      obtain ⟨r', rest'⟩ := next
      obtain ⟨hsuffix, hblocks⟩ := suffix_of_finish hfinish
      have hnone : r'.blocks = [] := List.length_eq_zero_iff.mp (Nat.le_zero.mp hblocks)
      obtain ⟨s, hprogram⟩ := exists_program_eq hnone ((begun_of_finish hfinish).trans hbegun)
      refine .inr ⟨s, rest', hsuffix, fun r => ⟨r'.within r, ?_, within_same hnone hprogram⟩⟩
      rw [hstatement, hfinish]
      rfl

/-- What is read at a token is the same wherever the reader is. -/
theorem exists_statement (t : Token) (tokens : List Token) :
    (∃ m, ∀ r : Reader, r.statement (t :: tokens) = .error m) ∨
      ∃ read rest, rest <:+ tokens ∧ ∀ r : Reader, ∃ r',
        r.statement (t :: tokens) = .ok (r', rest) ∧ r'.Same (r.receive t read) := by
  cases hread : Clause.read t tokens with
  | error m =>
      refine .inl ⟨m, fun r => ?_⟩
      change (r.takeClause t tokens >>= _) = _
      rw [takeClause_eq_map, hread]
      rfl
  | ok next =>
      obtain ⟨clause, rest⟩ := next
      have hsuffix : rest <:+ tokens := (Clause.decided_read t tokens).suffix hread
      by_cases hclause : clause = .stray
      · subst hclause
        refine .inr ⟨none, rest, hsuffix, fun r => ⟨r.skip t, ?_, Same.refl _⟩⟩
        change (r.takeClause t tokens >>= fun (r', rest) => r'.finish r.blocks.length rest) = _
        rw [takeClause_eq_map, hread]
        exact finish_of_le (r.length_blocks_skip t) rest
      · rcases statement_of_clause hread hclause with hfails | ⟨s, rest', hrest, hok⟩
        · exact .inl hfails
        · exact .inr ⟨some s, rest', hrest.trans hsuffix, hok⟩

end Reader

end Sting
