import Sting.Proofs.Statement.Blocks
import Sting.Proofs.Statement.Written

/-!
# Reading what was written

A program that was read, written and read again is the same program, up to the length of runs of
blanks in its expressions. A bar ends a loop only where a boundary or nothing but bars follow it, so
this is asked of every loop.
-/

namespace Sting

open Token

namespace Statement

/-! ## Programs that are the same -/

mutual

/-- Statements of the same form with the same names, types, prompts and arguments, and with
expressions that are alike. -/
def Alike : Statement → Statement → Prop
  | .assign n₁ d₁ e₁, .assign n₂ d₂ e₂ => n₁ = n₂ ∧ d₁ = d₂ ∧ e₁.Alike e₂
  | .input n₁ d₁ p₁, .input n₂ d₂ p₂ => n₁ = n₂ ∧ d₁ = d₂ ∧ p₁ = p₂
  | .output a₁, .output a₂ => a₁ = a₂
  | .conditional b₁, .conditional b₂ => AlikeArms b₁ b₂
  | .loop c₁ b₁, .loop c₂ b₂ => c₁.Alike c₂ ∧ AlikeBody b₁ b₂
  | .stop, .stop => True
  | _, _ => False

/-- Bodies with alike statements in the same order. -/
def AlikeBody : List Statement → List Statement → Prop
  | [], [] => True
  | s₁ :: rest₁, s₂ :: rest₂ => s₁.Alike s₂ ∧ AlikeBody rest₁ rest₂
  | _, _ => False

/-- Conditionals with alike arms in the same order. -/
def AlikeArms : List (Branch Statement) → List (Branch Statement) → Prop
  | [], [] => True
  | ⟨none, b₁⟩ :: rest₁, ⟨none, b₂⟩ :: rest₂ => AlikeBody b₁ b₂ ∧ AlikeArms rest₁ rest₂
  | ⟨some c₁, b₁⟩ :: rest₁, ⟨some c₂, b₂⟩ :: rest₂ =>
    c₁.Alike c₂ ∧ AlikeBody b₁ b₂ ∧ AlikeArms rest₁ rest₂
  | _, _ => False

end

mutual

/-- The statement with all its expressions put together anew. -/
def tidy : Statement → Statement
  | .assign name declared e => .assign name declared e.tidy
  | .input name declared prompt => .input name declared prompt
  | .output args => .output args
  | .conditional branches => .conditional (tidyArms branches)
  | .loop c body => .loop c.tidy (tidyBody body)
  | .stop => .stop

/-- The body with all its expressions put together anew. -/
def tidyBody : List Statement → List Statement
  | [] => []
  | s :: rest => s.tidy :: tidyBody rest

/-- The arms with all their expressions put together anew. -/
def tidyArms : List (Branch Statement) → List (Branch Statement)
  | [] => []
  | ⟨condition, body⟩ :: rest => ⟨condition.map Expression.tidy, tidyBody body⟩ :: tidyArms rest

end

mutual

/-- What is read again is alike. -/
theorem alike_tidy : ∀ {s : Statement}, s.Readable → s.Alike s.tidy
  | .assign _ (some _) _, ⟨_, he⟩ => ⟨rfl, rfl, he.alike⟩
  | .assign _ none _, ⟨_, he⟩ => ⟨rfl, rfl, he.alike⟩
  | .input .., _ => ⟨rfl, rfl, rfl⟩
  | .output _, _ => rfl
  | .conditional _, ⟨_, h⟩ => alike_tidyArms h
  | .loop _ _, ⟨hc, h⟩ => ⟨hc.alike, alike_tidyBody h⟩
  | .stop, _ => trivial

/-- A body that is read again is alike. -/
theorem alike_tidyBody : ∀ {body : List Statement}, ReadableBody body →
    AlikeBody body (tidyBody body)
  | [], _ => trivial
  | _ :: _, ⟨hs, hrest⟩ => ⟨alike_tidy hs, alike_tidyBody hrest⟩

/-- Arms that are read again are alike. -/
theorem alike_tidyArms : ∀ {arms : List (Branch Statement)}, ReadableArms arms →
    AlikeArms arms (tidyArms arms)
  | [], _ => trivial
  | ⟨none, _⟩ :: _, ⟨_, _, hbody, _, hrest⟩ => ⟨alike_tidyBody hbody, alike_tidyArms hrest⟩
  | ⟨some c, _⟩ :: _, ⟨hc, _, hbody, _, hrest⟩ =>
    ⟨(hc c rfl).alike, alike_tidyBody hbody, alike_tidyArms hrest⟩

end

/-- The statement has statements inside. -/
def hasBody : Statement → Bool
  | .conditional _ => true
  | .loop .. => true
  | _ => false

/-! ## Loops that end where they are written to end -/

/-- The lines begin with a boundary, or have nothing but bars. `bodyLoopsDelimited_iff` says what
this comes to in the tokens of a written program. -/
def Delimited (lines : List String) : Prop :=
  (Token.scan (linesText lines)).head?.any (Clause.isBoundary ·.text) = true ∨
    ∀ t ∈ Token.scan (linesText lines), t.text = "|"

mutual

/-- Behind the closing bar of every loop in the statement, which `after` follows, the text is
delimited. -/
def LoopsDelimited (depth : Nat) : Statement → List String → Prop
  | .conditional branches, after => ArmLoopsDelimited depth branches after
  | .loop _ body, after =>
    Delimited after ∧ BodyLoopsDelimited (depth + 1) body (indented depth "|" :: after)
  | _, _ => True

/-- The same for the loops in a body. -/
def BodyLoopsDelimited (depth : Nat) : List Statement → List String → Prop
  | [], _ => True
  | s :: rest, after =>
    s.LoopsDelimited depth (bodyLines depth rest ++ after) ∧ BodyLoopsDelimited depth rest after

/-- The same for the loops in the arms of a conditional. -/
def ArmLoopsDelimited (depth : Nat) : List (Branch Statement) → List String → Prop
  | [], _ => True
  | ⟨_, body⟩ :: rest, after =>
    BodyLoopsDelimited (depth + 1) body
        (indented depth "|" :: (branchLines depth "elseif" rest ++ after)) ∧
      ArmLoopsDelimited depth rest after

end

/-- Places do not matter here. -/
theorem delimited_iff {after : List String} :
    Delimited after ↔ (lineTokens after).head?.any (Clause.isBoundary ·.text) = true ∨
      ∀ t ∈ lineTokens after, t.text = "|" := by
  rw [Delimited, lineTokens, List.head?_map, Option.any_map, List.forall_mem_map]
  rfl

/-- What is delimited begins with a boundary or has nothing but bars. -/
theorem Delimited.lineTokens {after : List String} (h : Delimited after) :
    (∃ t rest, lineTokens after = t :: rest ∧ Clause.isBoundary t.text = true) ∨
      ∀ t ∈ lineTokens after, t.text = "|" := by
  refine (delimited_iff.mp h).imp_left ?_
  intro hhead
  cases htokens : Statement.lineTokens after with
  | nil =>
      rw [htokens] at hhead
      cases hhead
  | cons t rest =>
      rw [htokens] at hhead
      exact ⟨t, rest, rfl, hhead⟩

mutual

/-- The lines behind the closing bar of every loop in the statement, which `after` follows. -/
def loopTails (depth : Nat) : Statement → List String → List (List String)
  | .conditional branches, after => armLoopTails depth branches after
  | .loop _ body, after => after :: bodyLoopTails (depth + 1) body (indented depth "|" :: after)
  | _, _ => []

/-- The same for the loops in a body. -/
def bodyLoopTails (depth : Nat) : List Statement → List String → List (List String)
  | [], _ => []
  | s :: rest, after =>
    s.loopTails depth (bodyLines depth rest ++ after) ++ bodyLoopTails depth rest after

/-- The same for the loops in the arms of a conditional. -/
def armLoopTails (depth : Nat) : List (Branch Statement) → List String → List (List String)
  | [], _ => []
  | ⟨_, body⟩ :: rest, after =>
    bodyLoopTails (depth + 1) body
        (indented depth "|" :: (branchLines depth "elseif" rest ++ after)) ++
      armLoopTails depth rest after

end

mutual

/-- The loops of a statement are delimited exactly if every text behind one of them is. -/
theorem loopsDelimited_iff : ∀ (depth : Nat) (s : Statement) (after : List String),
    s.LoopsDelimited depth after ↔ ∀ tail ∈ s.loopTails depth after, Delimited tail
  | depth, .conditional branches, after => armLoopsDelimited_iff_tails depth branches after
  | depth, .loop _ body, after => by
      rw [LoopsDelimited, loopTails, List.forall_mem_cons, bodyLoopsDelimited_iff_tails]
  | _, .assign .., _ => iff_of_true trivial nofun
  | _, .input .., _ => iff_of_true trivial nofun
  | _, .output _, _ => iff_of_true trivial nofun
  | _, .stop, _ => iff_of_true trivial nofun

/-- The loops of a body are delimited exactly if every text behind one of them is. -/
theorem bodyLoopsDelimited_iff_tails : ∀ (depth : Nat) (body : List Statement)
    (after : List String),
    BodyLoopsDelimited depth body after ↔ ∀ tail ∈ bodyLoopTails depth body after, Delimited tail
  | _, [], _ => iff_of_true trivial nofun
  | depth, s :: rest, after => by
      rw [BodyLoopsDelimited, bodyLoopTails, List.forall_mem_append, loopsDelimited_iff,
        bodyLoopsDelimited_iff_tails]

/-- The loops of arms are delimited exactly if every text behind one of them is. -/
theorem armLoopsDelimited_iff_tails : ∀ (depth : Nat) (arms : List (Branch Statement))
    (after : List String),
    ArmLoopsDelimited depth arms after ↔ ∀ tail ∈ armLoopTails depth arms after, Delimited tail
  | _, [], _ => iff_of_true trivial nofun
  | depth, ⟨_, body⟩ :: rest, after => by
      rw [ArmLoopsDelimited, armLoopTails, List.forall_mem_append, bodyLoopsDelimited_iff_tails,
        armLoopsDelimited_iff_tails]

end

/-- An arm is written as a header, its body, a bar and the arms behind it. -/
theorem exists_header (depth : Nat) (keyword : String) (condition : Option Expression)
    (body : List Statement) (rest : List (Branch Statement)) :
    ∃ header, branchLines depth keyword (⟨condition, body⟩ :: rest) =
      header :: (bodyLines (depth + 1) body ++
        indented depth "|" :: branchLines depth "elseif" rest) := by
  cases condition with
  | none => exact ⟨_, rfl⟩
  | some c => exact ⟨_, rfl⟩

mutual

/-- A loop is written as some lines, its closing bar, and what stands behind the bar. -/
theorem exists_lines_eq : ∀ (depth : Nat) (s : Statement) (after : List String),
    ∀ tail ∈ s.loopTails depth after,
      ∃ before depth', lines depth s ++ after = before ++ indented depth' "|" :: tail
  | depth, .conditional branches, after => exists_branchLines_eq depth branches after "if"
  | depth, .loop condition body, after => by
      intro tail htail
      rw [lines, List.cons_append, List.append_assoc, List.singleton_append]
      rcases List.mem_cons.mp htail with rfl | htail
      · exact ⟨_ :: bodyLines (depth + 1) body, depth, rfl⟩
      · obtain ⟨before, depth', hlines⟩ := exists_bodyLines_eq (depth + 1) body _ tail htail
        exact ⟨_ :: before, depth', congrArg (List.cons _) hlines⟩
  | _, .assign .., _ => nofun
  | _, .input .., _ => nofun
  | _, .output _, _ => nofun
  | _, .stop, _ => nofun

/-- A loop in a body is written as some lines, its closing bar, and what stands behind the bar. -/
theorem exists_bodyLines_eq : ∀ (depth : Nat) (body : List Statement) (after : List String),
    ∀ tail ∈ bodyLoopTails depth body after,
      ∃ before depth', bodyLines depth body ++ after = before ++ indented depth' "|" :: tail
  | _, [], _ => nofun
  | depth, s :: rest, after => by
      intro tail htail
      rw [bodyLines, List.append_assoc]
      rcases List.mem_append.mp htail with htail | htail
      · exact exists_lines_eq depth s _ tail htail
      · obtain ⟨before, depth', hlines⟩ := exists_bodyLines_eq depth rest after tail htail
        refine ⟨lines depth s ++ before, depth', ?_⟩
        rw [hlines, List.append_assoc]

/-- A loop in an arm is written in this way too, whatever keyword introduces the first arm. -/
theorem exists_branchLines_eq : ∀ (depth : Nat) (arms : List (Branch Statement))
    (after : List String) (keyword : String), ∀ tail ∈ armLoopTails depth arms after,
      ∃ before depth', branchLines depth keyword arms ++ after =
        before ++ indented depth' "|" :: tail
  | _, [], _, _ => nofun
  | depth, ⟨condition, body⟩ :: rest, after, keyword => by
      intro tail htail
      obtain ⟨header, harms⟩ := exists_header depth keyword condition body rest
      rw [harms, List.cons_append, List.append_assoc, List.cons_append]
      rcases List.mem_append.mp htail with htail | htail
      · obtain ⟨before, depth', hlines⟩ := exists_bodyLines_eq (depth + 1) body _ tail htail
        exact ⟨header :: before, depth', congrArg (List.cons header) hlines⟩
      · obtain ⟨before, depth', hlines⟩ :=
          exists_branchLines_eq depth rest after "elseif" tail htail
        refine ⟨header :: (bodyLines (depth + 1) body ++ indented depth "|" :: before), depth', ?_⟩
        rw [hlines, List.cons_append, List.append_assoc, List.cons_append]

end

/-- The loops of a program are delimited exactly if the tokens of the written program go on with a
boundary, or have nothing but bars left, behind the closing bar of every loop. -/
theorem bodyLoopsDelimited_iff {program : List Statement} (h : ReadableBody program) :
    BodyLoopsDelimited 0 program [] ↔ ∀ tail ∈ bodyLoopTails 0 program [], ∃ before behind,
      (Token.scan (renderProgram program)).map unplaced = before ++ sign '|' :: behind ∧
      behind = lineTokens tail ∧
      (behind.head?.any (Clause.isBoundary ·.text) = true ∨ ∀ t ∈ behind, t.text = "|") := by
  rw [bodyLoopsDelimited_iff_tails]
  refine forall₂_congr fun tail htail => ?_
  rw [delimited_iff]
  constructor
  · intro hdelimited
    obtain ⟨before, depth, hlines⟩ := exists_bodyLines_eq 0 program [] tail htail
    rw [List.append_nil] at hlines
    refine ⟨lineTokens before, lineTokens tail, ?_, rfl, hdelimited⟩
    rw [← lineTokens_bar depth, ← lineTokens_cut h hlines]
    rfl
  · rintro ⟨before, _, -, rfl, hdelimited⟩
    exact hdelimited

/-- No arm of a conditional begins here. -/
def Follows (after : List String) : Prop :=
  ∀ t ∈ (lineTokens after).head?, t.text ≠ "elseif" ∧ t.text ≠ "else"

/-- The first token says whether an arm begins. -/
theorem follows_of_eq {after : List String} {t : Token} {rest : List Token}
    (h : lineTokens after = t :: rest) (hne : t.text ≠ "elseif" ∧ t.text ≠ "else") :
    Follows after := by
  intro u hu
  rw [h] at hu
  obtain rfl := Option.some.inj hu
  exact hne

/-- No statement begins like an arm. -/
theorem follows_lines {s : Statement} (hs : s.Readable) (depth : Nat) (after : List String) :
    Follows (lines depth s ++ after) := by
  match s, hs with
  | .assign name (some tag) e, ⟨hname, he⟩ =>
      obtain ⟨n, -, htokens⟩ := lineTokens_declared tag hname he.composed depth
      refine follows_of_eq (htokens after) ?_
      cases tag <;> decide
  | .assign name none e, ⟨hname, he⟩ =>
      have hreserved := not_reserved_of_identifier hname
      refine follows_of_eq (lineTokens_assign hname he.composed depth after) ⟨?_, ?_⟩
      · exact hreserved "elseif" (by decide)
      · exact hreserved "else" (by decide)
  | .input name tag prompt, ⟨hname, hprompt⟩ =>
      obtain ⟨n, -, htokens⟩ := lineTokens_input tag hname hprompt.composed depth
      refine follows_of_eq (htokens after) ?_
      cases tag <;> decide
  | .output args, hargs =>
      obtain ⟨tokens, -, -, htokens⟩ := lineTokens_output hargs depth
      exact follows_of_eq (htokens after) (by decide)
  | .conditional (⟨some c, body⟩ :: rest), ⟨_, hc, _⟩ =>
      have hif : "if" ∈ keywords := by decide
      rw [lines, branchLines, List.cons_append]
      exact follows_of_eq (lineTokens_header hif (hc c rfl).composed depth _) (by decide)
  | .conditional (⟨none, body⟩ :: rest), ⟨⟨c, body', rest', heq⟩, _⟩ => cases heq
  | .conditional [], ⟨⟨c, body', rest', heq⟩, _⟩ => cases heq
  | .loop c body, ⟨hc, _⟩ =>
      have hloop : "loop" ∈ keywords := by decide
      rw [lines, List.cons_append]
      exact follows_of_eq (lineTokens_header hloop hc.composed depth _) (by decide)
  | .stop, _ =>
      have hline : "stop |".toList = "stop".toList ++ [' ', '|'] := rfl
      exact follows_of_eq (lineTokens_keyword hline (by decide) rfl depth after) (by decide)

/-- Statements in between do not begin like an arm either. -/
theorem follows_bodyLines {body : List Statement} (hbody : ReadableBody body) (depth : Nat)
    {after : List String} (h : Follows after) : Follows (bodyLines depth body ++ after) := by
  cases body with
  | nil => exact h
  | cons s rest =>
      rw [bodyLines, List.append_assoc]
      exact follows_lines hbody.1 depth _

end Statement

namespace Reader

open Statement

/-- Adds statements one after the other. -/
def addAll (r : Reader) (body : List Statement) : Reader :=
  body.foldl add r

/-- Adding a statement opens and closes no arm. -/
theorem inBranch_add (r : Reader) (s : Statement) : (r.add s).inBranch = r.inBranch := by
  obtain ⟨program, blocks, skipped⟩ := r
  cases blocks with
  | nil => rfl
  | cons b outer => cases b <;> rfl

/-- Statements are added to the list that each of them is added to. -/
theorem addAll_of_add {f : List Statement → Reader}
    (h : ∀ done s, (f done).add s = f (s :: done)) (done body : List Statement) :
    (f done).addAll body = f (body.reverse ++ done) := by
  induction body generalizing done with
  | nil => rfl
  | cons s body ih =>
      rw [addAll, List.foldl_cons, h, ← addAll, ih, List.reverse_cons, List.append_assoc]
      rfl

/-- Outside of blocks statements are added to the program. -/
theorem addAll_program (program skipped body) :
    addAll ⟨program, [], skipped⟩ body = ⟨body.reverse ++ program, [], skipped⟩ :=
  addAll_of_add (f := fun done => ⟨done, [], skipped⟩) (fun _ _ => rfl) program body

/-- In an arm they are added to its body. -/
theorem addAll_branch (program outer skipped earlier condition done body) :
    addAll ⟨program, .branch earlier condition done :: outer, skipped⟩ body =
      ⟨program, .branch earlier condition (body.reverse ++ done) :: outer, skipped⟩ :=
  addAll_of_add (f := fun done => ⟨program, .branch earlier condition done :: outer, skipped⟩)
    (fun _ _ => rfl) done body

/-- In a loop they are added to its body. -/
theorem addAll_loop (program outer skipped condition done body) :
    addAll ⟨program, .loop condition done :: outer, skipped⟩ body =
      ⟨program, .loop condition (body.reverse ++ done) :: outer, skipped⟩ :=
  addAll_of_add (f := fun done => ⟨program, .loop condition done :: outer, skipped⟩)
    (fun _ _ => rfl) done body

/-- The bar of a loop closes it where the text behind it is delimited. -/
theorem outcome_bar_loop {after : List String} (h : Delimited after) (program outer skipped)
    (condition : Expression) (body : List Statement) :
    outcome ⟨program, .loop condition body :: outer, skipped⟩
        (sign '|' :: lineTokens after) =
      (add ⟨program, outer, skipped⟩ (.loop condition body.reverse)).outcome
        (lineTokens after) := by
  rcases h.lineTokens with ⟨t, rest, heq, hboundary⟩ | hbars
  · rw [heq]
    apply outcome_of_step
    have hbar : (sign '|').text = "|" := by decide
    simp only [step, if_pos hbar, if_pos hboundary]
    rfl
  · have hall : ∀ t ∈ sign '|' :: lineTokens after, t.text = "|" :=
      List.forall_mem_cons.mpr ⟨by decide, hbars⟩
    rw [outcome_bars hall, outcome_bars hbars, ← closeAll_close]
    rfl

/-- The bar of an arm is passed over. -/
theorem step_bar_branch (program outer skipped) (earlier : List (Branch Statement))
    (condition : Option Expression) (body : List Statement) (tokens : List Token) :
    step ⟨program, .branch earlier condition body :: outer, skipped⟩ (sign '|') tokens =
      nextBranch ⟨program, .branch earlier condition body :: outer, skipped⟩ tokens := by
  have hends : endsBranch (sign '|').text = true := by decide
  have hskip : Clause.skipBar (sign '|' :: tokens) = tokens := by
    rw [Clause.skipBar, if_pos (by decide)]
  simp only [step, if_pos hends, hskip]

/-- The bar of the last arm closes the conditional where no other arm follows. -/
theorem outcome_bar_last {after : List String} (h : Follows after) (program outer skipped)
    (earlier : List (Branch Statement)) (condition : Option Expression) (body : List Statement) :
    outcome ⟨program, .branch earlier condition body :: outer, skipped⟩
        (sign '|' :: lineTokens after) =
      (add ⟨program, outer, skipped⟩
        (.conditional (⟨condition, body.reverse⟩ :: earlier).reverse)).outcome
          (lineTokens after) := by
  apply outcome_of_step
  rw [step_bar_branch]
  cases condition with
  | none => rfl
  | some c =>
      cases htokens : lineTokens after with
      | nil => rfl
      | cons t rest =>
          have hhead : t ∈ (lineTokens after).head? := by
            rw [htokens]
            rfl
          obtain ⟨helseif, helse⟩ := h t hhead
          simp only [nextBranch, if_neg helseif, if_neg helse]
          rfl

/-- The bar of an arm and the header of the next one lead from one body to the other. -/
theorem outcome_bar_elseif {c : Expression} (hc : c.Guarding) (program outer skipped)
    (earlier : List (Branch Statement)) (condition : Expression) (body : List Statement)
    (depth : Nat) (after : List String) :
    outcome ⟨program, .branch earlier (some condition) body :: outer, skipped⟩ (sign '|' ::
        lineTokens (indented depth ("elseif" ++ " (" ++ c.source ++ ") :") :: after)) =
      outcome ⟨program,
        .branch (⟨some condition, body.reverse⟩ :: earlier) (some c.tidy) [] :: outer, skipped⟩
          (lineTokens after) := by
  have hword : "elseif" ∈ keywords := by decide
  have htext : (reserved "elseif").text = "elseif" := text_reserved _
  apply outcome_of_step
  rw [lineTokens_header hword hc.composed, step_bar_branch]
  simp only [nextBranch, if_pos htext, Clause.takeCondition_header hc.balanced]
  rfl

/-- The bar of an arm leads to the arm without a condition. -/
theorem outcome_bar_else (program outer skipped) (earlier : List (Branch Statement))
    (condition : Expression) (body : List Statement) (depth : Nat) (after : List String) :
    outcome ⟨program, .branch earlier (some condition) body :: outer, skipped⟩
        (sign '|' :: lineTokens (indented depth "else :" :: after)) =
      outcome ⟨program, .branch (⟨some condition, body.reverse⟩ :: earlier) none [] :: outer,
        skipped⟩ (lineTokens after) := by
  have htext : (reserved "else").text = "else" := text_reserved _
  have hne : ¬ (reserved "else").text = "elseif" := by decide
  have hline : "else :".toList = "else".toList ++ [' ', ':'] := rfl
  apply outcome_of_step
  rw [lineTokens_keyword hline (by decide) rfl, step_bar_branch]
  simp only [nextBranch, if_neg hne, if_pos htext]
  rfl

/-- Reading the line of a statement without a body adds the statement. -/
theorem outcome_line {s : Statement} (hs : s.Readable) (hline : s.hasBody = false) (r : Reader)
    (depth : Nat) (after : List String) :
    r.outcome (lineTokens (s.lines depth ++ after)) =
      (r.add s.tidy).outcome (lineTokens after) := by
  match s, hs with
  | .assign name (some tag) e, ⟨hname, he⟩ =>
      obtain ⟨n, rfl, htokens⟩ := lineTokens_declared tag hname he.composed depth
      have hsource := Clause.takeSource_bar he.continues (lineTokens after)
      have hroi := Clause.head_ne_roi he.continues (lineTokens after)
      rw [lines, List.singleton_append, htokens]
      exact outcome_simple (Clause.read_declared tag n hroi hsource) (endsBranch_keyword tag)
  | .assign name none e, ⟨hname, he⟩ =>
      have hends : endsBranch (String.ofList name.toList) = false :=
        contains_eq_false_of_identifier (by decide) hname
      have hread := Clause.read_assign (n := bare .identifier name.toList) rfl he.continues
        (lineTokens after)
      rw [text_bare, String.ofList_toList] at hread
      rw [lines, List.singleton_append, lineTokens_assign hname he.composed]
      exact outcome_simple hread hends
  | .input name tag prompt, ⟨hname, hprompt⟩ =>
      obtain ⟨n, rfl, htokens⟩ := lineTokens_input tag hname hprompt.composed depth
      have hclosing : ∀ t ∈ spelled prompt.toList, (t.text != ")") = true :=
        fun t ht => bne_iff_ne.mpr (hprompt.ne_closing t ht)
      have hread := Clause.read_input tag n hclosing (sign '|' :: lineTokens after)
      rw [hprompt.join_eq, Clause.skipBar_bar] at hread
      rw [lines, List.singleton_append, htokens]
      exact outcome_simple hread (endsBranch_keyword tag)
  | .output args, hargs =>
      obtain ⟨tokens, rfl, hclosing, htokens⟩ := lineTokens_output hargs depth
      have hread := Clause.read_output hclosing (sign '|' :: lineTokens after)
      rw [Clause.skipBar_bar] at hread
      rw [lines, List.singleton_append, htokens]
      exact outcome_simple hread (by decide)
  | .conditional branches, _ => cases hline
  | .loop c body, _ => cases hline
  | .stop, _ =>
      have hline : "stop |".toList = "stop".toList ++ [' ', '|'] := rfl
      rw [lines, List.singleton_append, lineTokens_keyword hline (by decide) rfl]
      exact outcome_simple (Clause.read_stop _) (by decide)

mutual

/-- Reading the lines of a statement adds the statement. -/
theorem outcome_lines : ∀ {s : Statement}, s.Readable → ∀ (r : Reader) (depth : Nat)
    (after : List String), (s.isConditional = true → r.inBranch = false ∧ Follows after) →
    s.LoopsDelimited depth after →
    r.outcome (lineTokens (s.lines depth ++ after)) =
      (r.add s.tidy).outcome (lineTokens after)
  | .assign .., hs, r, depth, after, _, _ => outcome_line hs rfl r depth after
  | .input .., hs, r, depth, after, _, _ => outcome_line hs rfl r depth after
  | .output .., hs, r, depth, after, _, _ => outcome_line hs rfl r depth after
  | .stop, hs, r, depth, after, _, _ => outcome_line hs rfl r depth after
  | .conditional (⟨some c, body⟩ :: rest), ⟨_, hc, _, hbody, hplain, hrest⟩, r, depth, after,
      hplace, ⟨hloops, hloops'⟩ => by
      obtain ⟨hr, hafter⟩ := hplace rfl
      obtain ⟨program, outer, skipped⟩ := r
      have hif : "if" ∈ keywords := by decide
      have hguard := hc c rfl
      have hread := Clause.read_header "if" .conditional rfl (fun _ => rfl) hguard.balanced
      -- The header opens the first arm, its body is read inside, and its bar leads to the others.
      have hbody' := outcome_bodyLines hbody
        ⟨program, .branch [] (some c.tidy) [] :: outer, skipped⟩ (depth + 1) _
        (fun s hs hs' => absurd hs' (by simp [hplain s hs])) hloops
      have harms := outcome_branchLines hrest program outer skipped [] (some c.tidy)
        (tidyBody body).reverse depth after nofun hafter hloops'
      rw [addAll_branch, List.append_nil, lineTokens_bar, harms, List.reverse_reverse] at hbody'
      rw [lines, branchLines, List.cons_append, List.append_assoc, List.cons_append,
        lineTokens_header hif hguard.composed, outcome_clause (hread _) (by decide) (by simp [hr])]
      exact hbody'
  | .conditional (⟨none, body⟩ :: rest), ⟨⟨c, body', rest', heq⟩, _⟩, _, _, _, _, _ => by cases heq
  | .conditional [], ⟨⟨c, body', rest', heq⟩, _⟩, _, _, _, _, _ => by cases heq
  | .loop c body, ⟨hc, hbody⟩, r, depth, after, _, ⟨hafter, hloops⟩ => by
      obtain ⟨program, outer, skipped⟩ := r
      have hloop : "loop" ∈ keywords := by decide
      have hbar : Follows (indented depth "|" :: after) :=
        follows_of_eq (lineTokens_bar depth after) (by decide)
      have hbody' := outcome_bodyLines hbody ⟨program, .loop c.tidy [] :: outer, skipped⟩
        (depth + 1) _ (fun _ _ _ => ⟨rfl, hbar⟩) hloops
      rw [addAll_loop, List.append_nil, lineTokens_bar, outcome_bar_loop hafter,
        List.reverse_reverse] at hbody'
      have hread := Clause.read_header "loop" .loop rfl (fun _ => rfl) hc.balanced
      have hopening : "loop (" = "loop" ++ " (" := rfl
      rw [lines, List.cons_append, List.append_assoc, List.singleton_append, hopening,
        lineTokens_header hloop hc.composed,
        outcome_clause (hread _) (by decide) (fun _ => by decide)]
      exact hbody'

/-- Reading the lines of a body adds its statements. -/
theorem outcome_bodyLines : ∀ {body : List Statement}, ReadableBody body →
    ∀ (r : Reader) (depth : Nat) (after : List String),
    (∀ s ∈ body, s.isConditional = true → r.inBranch = false ∧ Follows after) →
    BodyLoopsDelimited depth body after →
    r.outcome (lineTokens (bodyLines depth body ++ after)) =
      (r.addAll (tidyBody body)).outcome (lineTokens after)
  | [], _, _, _, _, _, _ => rfl
  | s :: rest, ⟨hs, hrest⟩, r, depth, after, hplace, ⟨hloops, hloops'⟩ => by
      have hs' : s.isConditional = true → r.inBranch = false ∧
          Follows (bodyLines depth rest ++ after) := by
        intro hc
        obtain ⟨hr, hafter⟩ := hplace s List.mem_cons_self hc
        exact ⟨hr, follows_bodyLines hrest depth hafter⟩
      have hrest' : ∀ s' ∈ rest, s'.isConditional = true →
          (r.add s.tidy).inBranch = false ∧ Follows after := by
        intro s' hs' hc
        rw [inBranch_add]
        exact hplace s' (List.mem_cons_of_mem s hs') hc
      rw [bodyLines, List.append_assoc, outcome_lines hs r depth _ hs' hloops,
        outcome_bodyLines hrest _ depth after hrest' hloops']
      rfl

/-- Reading the bar of an arm and the arms behind it adds the whole conditional. -/
theorem outcome_branchLines : ∀ {arms : List (Branch Statement)}, ReadableArms arms →
    ∀ (program outer skipped) (earlier : List (Branch Statement)) (condition : Option Expression)
    (body : List Statement) (depth : Nat) (after : List String),
    (condition = none → arms = []) → Follows after →
    ArmLoopsDelimited depth arms after →
    outcome ⟨program, .branch earlier condition body :: outer, skipped⟩
        (sign '|' :: lineTokens (branchLines depth "elseif" arms ++ after)) =
      (add ⟨program, outer, skipped⟩ (.conditional
        ((⟨condition, body.reverse⟩ :: earlier).reverse ++ tidyArms arms))).outcome
          (lineTokens after)
  | [], _, program, outer, skipped, earlier, condition, body, depth, after, _, hafter, _ => by
      rw [tidyArms, List.append_nil]
      exact outcome_bar_last hafter program outer skipped earlier condition body
  | ⟨next, inner⟩ :: rest, ⟨hguard, hlast, hinner, hplain, hrest⟩, program, outer, skipped, earlier,
      condition, body, depth, after, hcondition, hafter, ⟨hloops, hloops'⟩ => by
      cases condition with
      | none => cases hcondition rfl
      | some c =>
          have hlast' : next.map Expression.tidy = none → rest = [] :=
            fun h => hlast (Option.map_eq_none_iff.mp h)
          have hbody' := outcome_bodyLines hinner
            ⟨program, .branch (⟨some c, body.reverse⟩ :: earlier) (next.map Expression.tidy) [] ::
              outer, skipped⟩ (depth + 1) _
            (fun s hs hs' => absurd hs' (by simp [hplain s hs])) hloops
          have harms := outcome_branchLines hrest program outer skipped
            (⟨some c, body.reverse⟩ :: earlier) (next.map Expression.tidy)
            (tidyBody inner).reverse depth after hlast' hafter hloops'
          rw [addAll_branch, List.append_nil, lineTokens_bar, harms, List.reverse_reverse,
            List.reverse_cons, List.append_assoc, List.singleton_append] at hbody'
          cases next with
          | none =>
              rw [branchLines, List.cons_append, List.append_assoc, List.cons_append,
                outcome_bar_else]
              exact hbody'
          | some c' =>
              rw [branchLines, List.cons_append, List.append_assoc, List.cons_append,
                outcome_bar_elseif (hguard c' rfl)]
              exact hbody'

end

end Reader

namespace Statement

/-- Statements that are added to nothing are the program. -/
theorem reverse_program_addAll (body : List Statement) :
    (Reader.start.addAll body).closeAll.program.reverse = body := by
  rw [Reader.start, Reader.addAll_program]
  change (body.reverse ++ []).reverse = body
  rw [List.append_nil, List.reverse_reverse]

/-- A program that was read from a source and has only delimited loops when it is written is read
again from what was written, and it is the same program. -/
theorem read_renderProgram {source : String} {program : List Statement}
    (h : read (Token.scan source) = .ok program) (hloops : BodyLoopsDelimited 0 program []) :
    ∃ program', read (Token.scan (renderProgram program)) = .ok program' ∧
      AlikeBody program program' := by
  have hreadable := readable_of_read h
  refine ⟨tidyBody program, ?_, alike_tidyBody hreadable⟩
  have hfollows : Follows [] := by
    rw [Follows, lineTokens_nil]
    exact nofun
  have houtcome := Reader.outcome_bodyLines hreadable .start 0 []
    (fun _ _ _ => ⟨rfl, hfollows⟩) hloops
  rw [List.append_nil, lineTokens_nil, Reader.outcome_nil] at houtcome
  obtain ⟨hprogram, hmismatch⟩ := Prod.mk.inj houtcome
  rw [← read_eq_ok_unplaced, read_eq_ok_iff]
  refine ⟨hmismatch, ?_⟩
  change (Reader.start.run (lineTokens (bodyLines 0 program))).1.program.reverse = _
  rw [hprogram, reverse_program_addAll]

/-- A conditional in a loop with a statement behind it, and a combined assignment of nothing. -/
def nestedProgram : List Statement :=
  [.assign "x" (some .boolean) (.compile "true"),
    .loop (.compile "x")
      [.assign "y" none (.compile "y + (  )"),
        .conditional [⟨some (.compile "! x"), [.output ["y", "'two'"]]⟩]],
    .output ["'end'"]]

theorem read_renderProgram_nested :
    read (Token.scan
        "bln(x) = true | loop (x) : y += | if (!x) : show(y, 'two') | | | show('end') |") =
      .ok nestedProgram ∧ BodyLoopsDelimited 0 nestedProgram [] ∧
        ∃ program', read (Token.scan (renderProgram nestedProgram)) = .ok program' ∧
          AlikeBody nestedProgram program' := by
  have hread : read (Token.scan
      "bln(x) = true | loop (x) : y += | if (!x) : show(y, 'two') | | | show('end') |") =
        .ok nestedProgram := by
    decide +kernel
  have hafter : Delimited (bodyLines 0 [.output ["'end'"]] ++ []) := .inl (by decide +kernel)
  have hloops : BodyLoopsDelimited 0 nestedProgram [] :=
    ⟨trivial, ⟨hafter, trivial, ⟨⟨trivial, trivial⟩, trivial⟩, trivial⟩, trivial, trivial⟩
  exact ⟨hread, hloops, read_renderProgram hread hloops⟩

end Statement

end Sting
