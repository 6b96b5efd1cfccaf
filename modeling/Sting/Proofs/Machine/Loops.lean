import Sting.Proofs.Machine.Execution
import Sting.Proofs.Machine.Laziness

/-!
# The end of a loop

A loop that does not fail hands over to what follows it: a `stop` in its body never reaches a loop
around it. Unless its body has a `stop` of its own, the loop ends only because its condition does
not hold any more. And a `stop` cuts short the body in which it stands together with the loop, so
that a loop with one among its statements runs at most once.
-/

namespace Sting

/-- The statement is a `stop` or has one in an arm. One in a loop inside the statement does not
count: that loop is its own. -/
inductive Statement.Stops : Statement → Prop
  | stop : Stops .stop
  | arm {branches : List (Branch Statement)} {branch : Branch Statement} {s : Statement}
      (hbranch : branch ∈ branches) (hs : s ∈ branch.body) (h : Stops s) :
      Stops (.conditional branches)

/-- The body that is chosen is that of an arm. -/
theorem Session.exists_of_choose {session : Session} {branches : List (Branch Statement)}
    {body : List Statement} (h : (session.choose branches).1 = some body) :
    ∃ branch ∈ branches, branch.body = body := by
  induction branches generalizing session with
  | nil => cases h
  | cons branch branches ih =>
      obtain ⟨condition, arm⟩ := branch
      cases condition with
      | none =>
          cases h
          exact ⟨_, List.mem_cons_self, rfl⟩
      | some condition =>
          rw [choose] at h
          split at h
          · cases h
            exact ⟨_, List.mem_cons_self, rfl⟩
          · obtain ⟨branch, hbranch, rfl⟩ := ih h
            exact ⟨branch, List.mem_cons_of_mem _ hbranch, rfl⟩

namespace Machine

variable {work : List Frame → Machine} {session session' : Session} {condition : Expression}
  {body : List Statement} {env env' : Environment} {console console' : Console}

/-! ## Where a `stop` leads -/

/-- A loop that does not fail goes on. It ends at its condition, or because its body is left. -/
theorem Ends.cycle_proceeds {n : Nat} {flow : Flow}
    (h : Ends n (cycle session condition body) session' (.ok flow)) :
    flow = .proceed ∧ (condition.holds session'.environment = false ∨
      ∃ k session₁ session₂, Ends k (block session₁ body) session₂ (.ok .leave)) := by
  induction n using Nat.strongRecOn generalizing session with
  | _ n ih =>
    rcases h.of_cycle with
      ⟨hholds, rfl, hresult⟩ | ⟨-, k, l, session₁, result₁, rfl, hbody, hloop⟩
    · cases hresult
      refine ⟨rfl, .inl ?_⟩
      rw [Session.environment_test, hholds]
    · match result₁ with
      | .ok .proceed => exact ih l (by omega) hloop
      | .ok .leave =>
          have hleft : Ends l (fun frames =>
              resume (session₁.note (.leftLoop condition.source)) frames (.ok .proceed))
              session' (.ok flow) := hloop
          obtain ⟨-, hresult⟩ := eq_of_ends_resume hleft
          cases hresult
          exact ⟨rfl, .inr ⟨k, _, session₁, hbody⟩⟩
      | .error failure =>
          have hfailed : Ends l (fun frames => resume session₁ frames (.error failure))
              session' (.ok flow) := hloop
          cases (eq_of_ends_resume hfailed).2

/-- Plain work leaves no loop. -/
theorem IsPlain.not_leaves (h : IsPlain work) (n : Nat) (session : Session) :
    ¬ Ends n work session (.ok .leave) := by
  intro hends
  obtain ⟨session₁, result₁, hne, hwork⟩ := h
  obtain rfl : work = fun frames => resume session₁ frames result₁ := funext hwork
  exact hne (eq_of_ends_resume hends).2.symm

/-- Two plain steps in a row do not leave a loop either. -/
theorem IsPlain.not_leaves_before (h : IsPlain work) (frame : Frame)
    (hframe : ∀ session, IsPlain fun frames => step (.running session (frame :: frames)))
    (n : Nat) (session : Session) :
    ¬ Ends n (fun frames => work (frame :: frames)) session (.ok .leave) := by
  intro hends
  obtain ⟨session₁, result₁, hne, hwork⟩ := h
  simp only [hwork] at hends
  match result₁ with
  | .ok .leave => exact hne rfl
  | .ok .proceed =>
      obtain ⟨m, -, hstep⟩ := hends.of_running rfl
      exact (hframe session₁).not_leaves m session hstep
  | .error failure =>
      have hfailed : Ends n (fun frames => resume session₁ frames (.error failure)) session
          (.ok .leave) := hends
      cases (eq_of_ends_resume hfailed).2

/-- Statements that leave the loop around them have a `stop` that is not in a loop among them. -/
theorem Ends.exists_stops {n : Nat} {statements : List Statement}
    (h : Ends n (block session statements) session' (.ok .leave)) : ∃ s ∈ statements, s.Stops := by
  induction n using Nat.strongRecOn generalizing session session' statements with
  | _ n ih =>
    cases statements with
    | nil => cases ((ends_block_nil session).unique h).2
    | cons s rest =>
        obtain ⟨k, l, session₁, result₁, rfl, hfirst, hrest⟩ := h.of_cons
        match result₁ with
        | .ok .proceed =>
            obtain ⟨s', hs', hstops⟩ := ih l (by omega) hrest
            exact ⟨s', List.mem_cons_of_mem s hs', hstops⟩
        | .error failure =>
            have hfailed : Ends l (fun frames => resume session₁ frames (.error failure)) session'
                (.ok .leave) := hrest
            cases (eq_of_ends_resume hfailed).2
        | .ok .leave =>
            refine ⟨s, List.mem_cons_self, ?_⟩
            cases s with
            | stop => exact .stop
            | assign name declared e =>
                exact absurd hfirst ((isPlain_assign _ name declared e).not_leaves k session₁)
            | input name declared prompt =>
                exact absurd hfirst ((isPlain_write _ (promptText prompt)).not_leaves_before
                  (.answer name declared) (isPlain_answer · name declared) k session₁)
            | output args =>
                exact absurd hfirst ((isPlain_write _ _).not_leaves_before .newline
                  (isPlain_write · "\n") k session₁)
            | loop condition body => cases hfirst.cycle_proceeds.1
            | conditional branches =>
                simp only [begin_conditional] at hfirst
                cases hchosen : (Session.choose _ branches).1 with
                | none =>
                    rw [hchosen] at hfirst
                    have hover : Ends k (fun frames => resume _ frames (.ok .proceed)) session₁
                        (.ok .leave) := hfirst
                    cases (eq_of_ends_resume hover).2
                | some body =>
                    rw [hchosen] at hfirst
                    obtain ⟨branch, hbranch, rfl⟩ := Session.exists_of_choose hchosen
                    obtain ⟨s', hs', hstops⟩ := ih k (by omega) hfirst
                    exact .arm hbranch hs' hstops

/-- A loop that ends without a failure hands over to what follows it, so that no `stop` leaves more
than one loop. Without a `stop` of its own it ends only where its condition does not hold. -/
theorem loop_ends_at_condition {flow : Flow}
    (h : Executes [.loop condition body] env console env' console' (.ok flow)) :
    flow = .proceed ∧ ((∀ s ∈ body, ¬ s.Stops) → condition.holds env' = false) := by
  obtain ⟨n, journal, hends⟩ := (executes_loop_iff_ends (.start env console)).mp h
  obtain ⟨hflow, hexit | ⟨k, session₁, session₂, hleave⟩⟩ := hends.cycle_proceeds
  · exact ⟨hflow, fun _ => hexit⟩
  · refine ⟨hflow, ?_⟩
    intro hbody
    obtain ⟨s, hs, hstops⟩ := hleave.exists_stops
    exact absurd hstops (hbody s hs)

/-- A loop with a loop that is left inside it, and an arm that is never chosen. -/
theorem loop_ends_at_condition_nested :
    let condition := Expression.compile "x < 2"
    let body : List Statement :=
      [.assign "x" none (.compile "x + 1"), .loop (.compile "true") [.output ["x"], .stop],
        .conditional [⟨some (.compile "x == 7"), [.output ["'seven'"]]⟩]]
    let env := Environment.ofList [("x", .number 0)]
    (∀ s ∈ body, ¬ s.Stops) ∧ ∃ env' console' flow,
      Executes [.loop condition body] env (.ofLines []) env' console' (.ok flow) ∧
        console'.output = "1\n2\n" ∧ flow = .proceed ∧ condition.holds env' = false := by
  intro condition body env
  have hbody : ∀ s ∈ body, ¬ s.Stops := by
    intro s hs hstops
    cases hstops with
    | stop => simp [body] at hs
    | arm hbranch hinside h =>
        simp only [body, List.mem_cons, reduceCtorEq, Statement.conditional.injEq, List.not_mem_nil,
          false_or, or_false] at hs
        subst hs
        obtain rfl := List.mem_singleton.mp hbranch
        obtain rfl := List.mem_singleton.mp hinside
        cases h
  refine ⟨hbody, ?_⟩
  have hrun : (run 40 (ofProgram (.start env (.ofLines [])) [.loop condition body])).isHalted =
        true ∧
      (run 40 (ofProgram (.start env (.ofLines [])) [.loop condition body])).failure? = none ∧
      (run 40 (ofProgram (.start env (.ofLines [])) [.loop condition body])).console.output =
        "1\n2\n" := by
    decide +kernel
  obtain ⟨hhalted, hfailure, houtput⟩ := hrun
  have hends := eq_halted_of_isHalted hhalted
  rw [hfailure] at hends
  obtain ⟨result, hexecutes, hresult⟩ := endsWith_ofProgram_iff.mp ⟨_, 40, hends⟩
  cases result with
  | error failure => cases hresult
  | ok flow =>
      obtain ⟨hflow, hexit⟩ := loop_ends_at_condition hexecutes
      exact ⟨_, _, flow, hexecutes, houtput, hflow, hexit hbody⟩

/-! ## A loop with a `stop` -/

/-- Behind a `stop` nothing is executed, and what goes on without it leaves the loop around it. -/
theorem executes_append_stop (first rest : List Statement) {result : Except Failure Flow} :
    Executes (first ++ .stop :: rest) env console env' console' result ↔
      ∃ result₁, Executes first env console env' console' result₁ ∧
        result = result₁.map fun _ => .leave := by
  rw [executes_append]
  constructor
  · rintro (⟨env₁, console₁, hfirst, hstop⟩ | ⟨hproceed, hfirst⟩)
    · obtain ⟨rfl, rfl, rfl⟩ := executes_stop.mp hstop
      exact ⟨.ok .proceed, hfirst, rfl⟩
    · refine ⟨result, hfirst, ?_⟩
      match result with
      | .ok .proceed => exact absurd rfl hproceed
      | .ok .leave => rfl
      | .error failure => rfl
  · rintro ⟨result₁, hfirst, rfl⟩
    match result₁ with
    | .ok .proceed => exact .inl ⟨env', console', hfirst, executes_stop.mpr ⟨rfl, rfl, rfl⟩⟩
    | .ok .leave => exact .inr ⟨nofun, hfirst⟩
    | .error failure => exact .inr ⟨nofun, hfirst⟩

/-- A loop with a `stop` among its statements is executed as a conditional with the statements
before it, after which the loop is over. -/
theorem executes_loop_stop (first rest : List Statement) {result : Except Failure Flow} :
    Executes [.loop condition (first ++ .stop :: rest)] env console env' console' result ↔
      ∃ result₁, Executes [.conditional [⟨some condition, first⟩]] env console env' console'
          result₁ ∧ result = result₁.map fun _ => .proceed := by
  simp only [executes_conditional]
  rw [executes_loop]
  constructor
  · rintro (⟨hholds, rfl, rfl, rfl⟩ | ⟨hholds, env₁, console₁, result₁, hbody, hthen⟩)
    · exact ⟨.ok .proceed, .inr ⟨hholds, rfl, rfl, rfl⟩, rfl⟩
    · obtain ⟨result₂, hfirst, rfl⟩ := (executes_append_stop first rest).mp hbody
      rcases hthen with ⟨hproceed, -⟩ | ⟨-, rfl, rfl, rfl⟩
      · cases result₂ <;> cases hproceed
      · refine ⟨result₂, .inl ⟨hholds, hfirst⟩, ?_⟩
        cases result₂ <;> rfl
  · rintro ⟨result₁, ⟨hholds, hfirst⟩ | ⟨hholds, rfl, rfl, rfl⟩, rfl⟩
    · refine .inr ⟨hholds, env', console', result₁.map fun _ => .leave,
        (executes_append_stop first rest).mpr ⟨result₁, hfirst, rfl⟩, .inr ⟨?_, rfl, rfl, ?_⟩⟩
      · cases result₁ <;> nofun
      · cases result₁ <;> rfl
    · exact .inl ⟨hholds, rfl, rfl, rfl⟩

/-- A `stop` cuts the rest of a body and the loop. A loop with a `stop` among its statements does
what a conditional with the statements before it does, except that leaving the loop is going on
behind it; and outside of loops a program ends at a `stop` as if nothing followed. Both hold of
every console, also of one that fails. -/
theorem stop_cuts_body_and_loop (first rest : List Statement) (condition : Expression)
    (env : Environment) (console : Console) (env' : Environment) (console' : Console) :
    (∀ result,
      Executes [.loop condition (first ++ .stop :: rest)] env console env' console' result ↔
        ∃ result₁, Executes [.conditional [⟨some condition, first⟩]] env console env' console'
            result₁ ∧ result = result₁.map fun _ => .proceed) ∧
    ∀ failure,
      (∃ journal, (ofProgram (.start env console) (first ++ .stop :: rest)).EndsWith
          ⟨env', console', journal⟩ failure) ↔
        ∃ journal, (ofProgram (.start env console) first).EndsWith
          ⟨env', console', journal⟩ failure := by
  refine ⟨fun _ => executes_loop_stop first rest, ?_⟩
  intro failure
  rw [endsWith_ofProgram_iff, endsWith_ofProgram_iff]
  have hfailure (result : Except Failure Flow) :
      failureOf (result.map fun _ => .leave) = failureOf result := by
    cases result <;> rfl
  constructor
  · rintro ⟨result, hexecutes, rfl⟩
    obtain ⟨result₁, hfirst, rfl⟩ := (executes_append_stop first rest).mp hexecutes
    exact ⟨result₁, hfirst, (hfailure result₁).symm⟩
  · rintro ⟨result, hfirst, rfl⟩
    exact ⟨_, (executes_append_stop first rest).mpr ⟨result, hfirst, rfl⟩, hfailure result⟩

end Machine

end Sting
