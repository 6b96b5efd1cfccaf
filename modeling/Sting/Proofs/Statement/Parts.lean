import Sting.Proofs.Statement.Blocks

/-!
# Parts of programs

All the statements of a program, at whatever depth they stand, and the clauses that they begin with.
The reader makes nothing up: every clause of a program that was read is one that was read from its
tokens. So what is known of clauses is known of programs.
-/

namespace Sting

open Token

namespace Statement

mutual

/-- The statement and all the statements inside it. -/
def parts : Statement → List Statement
  | .assign name declared e => [.assign name declared e]
  | .input name declared prompt => [.input name declared prompt]
  | .output args => [.output args]
  | .conditional branches => .conditional branches :: armParts branches
  | .loop condition body => .loop condition body :: bodyParts body
  | .stop => [.stop]

/-- The statements of a body and all the statements inside them. -/
def bodyParts : List Statement → List Statement
  | [] => []
  | s :: rest => parts s ++ bodyParts rest

/-- All the statements inside the arms of a conditional. -/
def armParts : List (Branch Statement) → List Statement
  | [] => []
  | ⟨_, body⟩ :: rest => bodyParts body ++ armParts rest

end

/-- The parts of a body are those of its statements. -/
theorem bodyParts_eq (body : List Statement) : bodyParts body = body.flatMap parts := by
  induction body with
  | nil => rfl
  | cons s body ih => rw [bodyParts, ih, List.flatMap_cons]

/-- The parts of arms are those of their bodies. -/
theorem armParts_eq (arms : List (Branch Statement)) :
    armParts arms = arms.flatMap fun arm => bodyParts arm.body := by
  induction arms with
  | nil => rfl
  | cons arm arms ih => rw [armParts, ih, List.flatMap_cons]

/-- A part of a body belongs to one of its statements. -/
theorem mem_bodyParts {s : Statement} {body : List Statement} :
    s ∈ bodyParts body ↔ ∃ outer ∈ body, s ∈ outer.parts := by
  rw [bodyParts_eq, List.mem_flatMap]

/-- A part of arms belongs to a statement in one of them. -/
theorem mem_armParts {s : Statement} {arms : List (Branch Statement)} :
    s ∈ armParts arms ↔ ∃ arm ∈ arms, ∃ outer ∈ arm.body, s ∈ outer.parts := by
  simp only [armParts_eq, List.mem_flatMap, mem_bodyParts]

/-- The clauses that a statement itself begins with: the headers of a conditional or a loop, or the
whole statement. -/
def clauses : Statement → List Clause
  | .assign name declared e => [.simple (.assign name declared e)]
  | .input name declared prompt => [.simple (.input name declared prompt)]
  | .output args => [.simple (.output args)]
  | .conditional branches => (branches.filterMap Branch.condition).map .conditional
  | .loop condition _ => [.loop condition]
  | .stop => [.simple .stop]

end Statement

namespace Clause

/-! ## What clauses are put together from -/

/-- The forms of a clause that begins with a given token. Every expression is put together from some
of the tokens behind it. -/
inductive Assembled (t : Token) (tokens : List Token) : Clause → Prop
  | declaration {name : String} {tag : TypeTag} {inner : List Token} (hinner : inner ⊆ tokens) :
      Assembled t tokens (.simple (.assign name (some tag) (.compile (join inner))))
  | input {name : String} {tag : TypeTag} {prompt : String} :
      Assembled t tokens (.simple (.input name tag prompt))
  | assignment {inner : List Token} (hinner : inner ⊆ tokens) :
      Assembled t tokens (.simple (.assign t.text none (.compile (join inner))))
  | accumulation {symbol : String} {inner : List Token} (hsymbol : symbol ∈ combining)
      (hinner : inner ⊆ tokens) :
      Assembled t tokens
        (.simple (.assign t.text none (.compile (combined t.text symbol (join inner)))))
  | output {args : List String} : Assembled t tokens (.simple (.output args))
  | stop : Assembled t tokens (.simple .stop)
  | conditional {inner : List Token} (hinner : inner ⊆ tokens) :
      Assembled t tokens (.conditional (.compile (join inner)))
  | loop {inner : List Token} (hinner : inner ⊆ tokens) :
      Assembled t tokens (.loop (.compile (join inner)))
  | stray : Assembled t tokens .stray

variable {t : Token} {tokens rest : List Token}

/-- A condition is joined from some of the tokens. -/
theorem exists_of_takeCondition {condition : Expression}
    (h : takeCondition tokens = .ok (condition, rest)) :
    ∃ inner, inner ⊆ tokens ∧ condition = .compile (join inner) := by
  obtain ⟨behind, hopen, h⟩ := exists_of_bind h
  obtain ⟨rest', hcolon, h⟩ := exists_of_bind h
  cases h
  obtain ⟨opening, -, rfl⟩ := suffix_of_expect hopen
  obtain ⟨colon, -, hrest⟩ := suffix_of_expect hcolon
  obtain ⟨hsub, -, -⟩ := balanced_of_takeMatching (Prod.ext rfl hrest)
  exact ⟨_, List.Subset.trans hsub (List.subset_cons_self _ _), rfl⟩

/-- A declaration is put together of its tokens. -/
theorem assembled_of_takeDeclaration {tag : TypeTag} {s : Statement}
    (h : takeDeclaration tag tokens = .ok (s, rest)) : Assembled t tokens (.simple s) := by
  obtain ⟨t₁, hopen, h₁⟩ := exists_of_bind h
  obtain ⟨⟨name, t₂⟩, hname, h₂⟩ := exists_of_bind h₁
  obtain ⟨t₃, hclose, h₃⟩ := exists_of_bind h₂
  obtain ⟨t₄, hequals, h₄⟩ := exists_of_bind h₃
  obtain ⟨opening, -, rfl⟩ := suffix_of_expect hopen
  cases t₁ with
  | nil => cases hname
  | cons n t₁ =>
      cases hname
      obtain ⟨closing, -, rfl⟩ := suffix_of_expect hclose
      obtain ⟨equals, -, rfl⟩ := suffix_of_expect hequals
      have hsub : t₄ ⊆ opening :: n :: closing :: equals :: t₄ :=
        (List.suffix_append [opening, n, closing, equals] t₄).subset
      cases t₄ with
      | nil =>
          cases h₄
          have hnone : [] ⊆ [opening, n, closing, equals] := List.nil_subset _
          exact .declaration hnone
      | cons u tail =>
          dsimp only at h₄
          split at h₄
          · obtain ⟨t₅, -, h₅⟩ := exists_of_bind h₄
            obtain ⟨_, -, h₆⟩ := exists_of_bind h₅
            cases h₆
            exact .input
          · cases h₄
            exact .declaration (List.Subset.trans (List.takeWhile_subset _) hsub)

/-- A clause that is read has one of the forms. -/
theorem assembled_of_read {clause : Clause} (h : read t tokens = .ok (clause, rest)) :
    Assembled t tokens clause := by
  unfold read at h
  split at h
  · obtain ⟨⟨s, after⟩, hs, h⟩ := exists_of_bind h
    cases h
    exact assembled_of_takeDeclaration hs
  · split at h
    · rename_i symbol tail hassign
      obtain ⟨-, op, hop, rfl⟩ := exists_of_assigns? hassign
      cases h
      have hsub : tail.takeWhile continuesExpression ⊆ op :: tail :=
        List.Subset.trans (List.takeWhile_subset _) (List.subset_cons_self _ _)
      rcases eq_of_accumulator? hop with rfl | hsymbol
      · exact .assignment hsub
      · have hne : symbol ≠ "" := by
          rintro rfl
          exact absurd hsymbol (by decide)
        rw [if_neg hne]
        exact .accumulation hsymbol hsub
    · split at h
      · obtain ⟨⟨c, after⟩, hc, h⟩ := exists_of_bind h
        cases h
        obtain ⟨inner, hsub, rfl⟩ := exists_of_takeCondition hc
        exact .conditional hsub
      · obtain ⟨⟨c, after⟩, hc, h⟩ := exists_of_bind h
        cases h
        obtain ⟨inner, hsub, rfl⟩ := exists_of_takeCondition hc
        exact .loop hsub
      · obtain ⟨⟨s, after⟩, hs, h⟩ := exists_of_bind h
        cases h
        obtain ⟨_, -, hs⟩ := exists_of_bind hs
        obtain ⟨_, -, hs⟩ := exists_of_bind hs
        cases hs
        exact .output
      · cases h
        exact .stop
      · cases h
        exact .stray

/-- A statement that is a clause has no other clauses inside. -/
theorem Assembled.clauses_eq {s : Statement} (h : Assembled t tokens (.simple s)) :
    s.parts = [s] ∧ s.clauses = [.simple s] := by
  cases h <;> exact ⟨rfl, rfl⟩

end Clause

/-! ## What programs are put together from -/

/-- A clause that can be read somewhere among the tokens. -/
inductive Clause.ReadFrom (tokens : List Token) : Clause → Prop
  | statement {t : Token} {rest after : List Token} {clause : Clause}
      (hsuffix : t :: rest <:+ tokens) (h : Clause.read t rest = .ok (clause, after)) :
      ReadFrom tokens clause
  | arm {rest after : List Token} {condition : Expression} (hsuffix : rest <:+ tokens)
      (h : Clause.takeCondition rest = .ok (condition, after)) :
      ReadFrom tokens (.conditional condition)

section ReadFrom

variable {tokens : List Token}

/-- Every clause of the statement can be read among the tokens, at whatever depth it stands. -/
def Statement.ReadFrom (tokens : List Token) (s : Statement) : Prop :=
  ∀ part ∈ s.parts, ∀ clause ∈ part.clauses, clause.ReadFrom tokens

/-- The same for an arm. -/
def Branch.ReadFrom (tokens : List Token) (arm : Branch Statement) : Prop :=
  (∀ c ∈ arm.condition, (Clause.conditional c).ReadFrom tokens) ∧
    ∀ s ∈ arm.body, s.ReadFrom tokens

/-- The same for a block that is open. -/
def Block.ReadFrom (tokens : List Token) : Block → Prop
  | .branch earlier condition body =>
    Branch.ReadFrom tokens ⟨condition, body⟩ ∧ ∀ arm ∈ earlier, arm.ReadFrom tokens
  | .loop condition body =>
    (Clause.loop condition).ReadFrom tokens ∧ ∀ s ∈ body, s.ReadFrom tokens

/-- A conditional is read among tokens if its arms are. -/
theorem Statement.readFrom_conditional {arms : List (Branch Statement)}
    (h : ∀ arm ∈ arms, arm.ReadFrom tokens) : (Statement.conditional arms).ReadFrom tokens := by
  intro part hpart clause hclause
  rcases List.mem_cons.mp hpart with rfl | hinner
  · obtain ⟨c, hc, rfl⟩ := List.mem_map.mp hclause
    obtain ⟨arm, harm, hcondition⟩ := List.mem_filterMap.mp hc
    exact (h arm harm).1 c hcondition
  · obtain ⟨arm, harm, s, hs, hmem⟩ := mem_armParts.mp hinner
    exact (h arm harm).2 s hs part hmem clause hclause

/-- A loop is read among tokens if its header and its body are. -/
theorem Statement.readFrom_loop {condition : Expression} {body : List Statement}
    (hc : (Clause.loop condition).ReadFrom tokens) (h : ∀ s ∈ body, s.ReadFrom tokens) :
    (Statement.loop condition body).ReadFrom tokens := by
  intro part hpart clause hclause
  rcases List.mem_cons.mp hpart with rfl | hinner
  · obtain rfl := List.mem_singleton.mp hclause
    exact hc
  · obtain ⟨s, hs, hmem⟩ := mem_bodyParts.mp hinner
    exact h s hs part hmem clause hclause

/-- A statement without a body is read as its clause. -/
theorem Statement.readFrom_simple {t : Token} {rest after : List Token} {s : Statement}
    (hsuffix : t :: rest <:+ tokens) (h : Clause.read t rest = .ok (.simple s, after)) :
    s.ReadFrom tokens := by
  obtain ⟨hparts, hclauses⟩ := (Clause.assembled_of_read h).clauses_eq
  intro part hpart clause hclause
  rw [hparts, List.mem_singleton] at hpart
  subst hpart
  rw [hclauses, List.mem_singleton] at hclause
  subst hclause
  exact .statement hsuffix h

namespace Reader

/-- Every clause that the reader holds can be read among the tokens. -/
structure ReadFrom (tokens : List Token) (r : Reader) : Prop where
  program : ∀ s ∈ r.program, s.ReadFrom tokens
  blocks : ∀ b ∈ r.blocks, b.ReadFrom tokens

/-- A statement that was read among the tokens may be added. -/
theorem ReadFrom.add {r : Reader} {s : Statement} (h : r.ReadFrom tokens)
    (hs : s.ReadFrom tokens) : (r.add s).ReadFrom tokens := by
  obtain ⟨program, blocks, skipped⟩ := r
  obtain ⟨hprogram, hblocks⟩ := h
  cases blocks with
  | nil => exact ⟨List.forall_mem_cons.mpr ⟨hs, hprogram⟩, hblocks⟩
  | cons b outer =>
      obtain ⟨hb, houter⟩ := List.forall_mem_cons.mp hblocks
      cases b with
      | branch earlier condition body =>
          obtain ⟨⟨hcondition, hbody⟩, hearlier⟩ := hb
          have hbody' := List.forall_mem_cons.mpr ⟨hs, hbody⟩
          exact ⟨hprogram, List.forall_mem_cons.mpr ⟨⟨⟨hcondition, hbody'⟩, hearlier⟩, houter⟩⟩
      | loop condition body =>
          obtain ⟨hcondition, hbody⟩ := hb
          have hbody' := List.forall_mem_cons.mpr ⟨hs, hbody⟩
          exact ⟨hprogram, List.forall_mem_cons.mpr ⟨⟨hcondition, hbody'⟩, houter⟩⟩

/-- A block whose header was read among the tokens may be opened. -/
theorem ReadFrom.enter {r : Reader} {b : Block} (h : r.ReadFrom tokens)
    (hb : b.ReadFrom tokens) : (r.enter b).ReadFrom tokens :=
  ⟨h.program, List.forall_mem_cons.mpr ⟨hb, h.blocks⟩⟩

/-- An arm that ends holds what it held when it was open. -/
theorem readFrom_arm {condition : Option Expression} {body : List Statement}
    (h : Branch.ReadFrom tokens ⟨condition, body⟩) :
    Branch.ReadFrom tokens ⟨condition, body.reverse⟩ :=
  ⟨h.1, fun s hs => h.2 s (List.mem_reverse.mp hs)⟩

/-- A block that is closed was read among the tokens. -/
theorem ReadFrom.close {r : Reader} (h : r.ReadFrom tokens) : r.close.ReadFrom tokens := by
  obtain ⟨program, blocks, skipped⟩ := r
  obtain ⟨hprogram, hblocks⟩ := h
  cases blocks with
  | nil => exact ⟨hprogram, hblocks⟩
  | cons b outer =>
      obtain ⟨hb, houter⟩ := List.forall_mem_cons.mp hblocks
      have hleft : (⟨program, outer, skipped⟩ : Reader).ReadFrom tokens := ⟨hprogram, houter⟩
      cases b with
      | branch earlier condition body =>
          have harms := List.forall_mem_cons.mpr ⟨readFrom_arm hb.1, hb.2⟩
          refine hleft.add (Statement.readFrom_conditional ?_)
          exact fun arm harm => harms arm (List.mem_reverse.mp harm)
      | loop condition body =>
          refine hleft.add (Statement.readFrom_loop hb.1 ?_)
          exact fun s hs => hb.2 s (List.mem_reverse.mp hs)

/-- Passing over a token adds no statement of its own. -/
theorem ReadFrom.skip {r : Reader} (h : r.ReadFrom tokens) (t : Token) :
    (r.skip t).ReadFrom tokens := by
  have hpassed : ({ r with skipped := t :: r.skipped } : Reader).ReadFrom tokens :=
    ⟨h.program, h.blocks⟩
  unfold Reader.skip
  split
  · exact hpassed.close
  · exact hpassed

variable {r r' : Reader} {rest after : List Token}

/-- A clause is read among the tokens that it begins. -/
theorem ReadFrom.takeClause {t : Token} (h : r.ReadFrom tokens) (hsuffix : t :: rest <:+ tokens)
    (hr : r.takeClause t rest = .ok (r', after)) : r'.ReadFrom tokens := by
  obtain ⟨⟨clause, tail⟩, hread, hr⟩ := Clause.exists_of_bind hr
  have hclause : clause.ReadFrom tokens := .statement hsuffix hread
  cases clause with
  | simple s =>
      cases hr
      exact h.add (Statement.readFrom_simple hsuffix hread)
  | conditional condition =>
      cases hr
      refine h.enter ⟨⟨?_, nofun⟩, nofun⟩
      rintro c ⟨rfl⟩
      exact hclause
  | loop condition =>
      cases hr
      exact h.enter ⟨hclause, nofun⟩
  | stray =>
      cases hr
      exact h.skip t

/-- The header of another arm is read among the tokens. -/
theorem ReadFrom.nextBranch (h : r.ReadFrom tokens) (hsuffix : rest <:+ tokens)
    (hr : r.nextBranch rest = .ok (r', after)) : r'.ReadFrom tokens := by
  unfold Reader.nextBranch at hr
  split at hr
  · rename_i earlier condition body outer t tail hblocks
    have hopen := h.blocks
    rw [hblocks] at hopen
    obtain ⟨⟨harm, hearlier⟩, houter⟩ := List.forall_mem_cons.mp hopen
    have harms := List.forall_mem_cons.mpr ⟨readFrom_arm harm, hearlier⟩
    dsimp only at hr
    split at hr
    · obtain ⟨⟨c, rest'⟩, hc, hr⟩ := Clause.exists_of_bind hr
      cases hr
      refine ⟨h.program, List.forall_mem_cons.mpr ⟨⟨⟨?_, nofun⟩, harms⟩, houter⟩⟩
      rintro c' ⟨rfl⟩
      exact .arm ((List.suffix_cons t tail).trans hsuffix) hc
    · split at hr
      · obtain ⟨rest', -, hr⟩ := Clause.exists_of_bind hr
        cases hr
        exact ⟨h.program, List.forall_mem_cons.mpr ⟨⟨⟨nofun, nofun⟩, harms⟩, houter⟩⟩
      · cases hr
        exact h.close
  · cases hr
    exact h.close

/-- A step takes its clauses from the tokens. -/
theorem ReadFrom.step {t : Token} (h : r.ReadFrom tokens) (hsuffix : t :: rest <:+ tokens)
    (hr : r.step t rest = .ok (r', after)) : r'.ReadFrom tokens := by
  unfold Reader.step at hr
  split at hr
  · split at hr
    · cases hr
      exact h
    · exact h.takeClause hsuffix hr
  · split at hr
    · exact h.nextBranch ((Clause.suffix_skipBar _).trans hsuffix) hr
    · exact h.takeClause hsuffix hr
  · split at hr
    · split at hr
      · cases hr
        exact h.close
      · rename_i u tail
        split at hr
        · cases hr
          exact h.close
        · exact h.takeClause ((List.suffix_cons t _).trans hsuffix) hr
    · exact h.takeClause hsuffix hr

/-- The blocks that are open at the end were read among the tokens. -/
theorem ReadFrom.closeAll (h : r.ReadFrom tokens) : r.closeAll.ReadFrom tokens := by
  rw [closeAll_eq_iterate]
  generalize r.blocks.length = n
  induction n generalizing r with
  | zero => exact h
  | succ n ih => exact ih h.close

/-- A whole run takes its clauses from the tokens. -/
theorem ReadFrom.run {r : Reader} {rest : List Token} (h : r.ReadFrom tokens) (hsound : r.Sound)
    (hgenuine : ∀ u ∈ rest, u.Genuine) (hsuffix : rest <:+ tokens) :
    (r.run rest).1.ReadFrom tokens := by
  fun_induction Reader.run r rest with
  | case1 r => exact h.closeAll
  | case2 r t rest m hstep => exact h
  | case3 r t rest r' after hstep hsize ih =>
      obtain ⟨hsound', hafter⟩ := hsound.step hgenuine hstep
      exact ih (h.step hsuffix hstep) hsound' (fun u hu => hgenuine u (hafter.subset hu))
        (hafter.trans hsuffix)

end Reader

end ReadFrom

/-- Every clause of a program that was read from a source can be read among its tokens. -/
theorem Statement.readFrom_of_read {source : String} {program : List Statement}
    (h : Statement.read (Token.scan source) = .ok program) :
    ∀ s ∈ bodyParts program, ∀ clause ∈ s.clauses, clause.ReadFrom (Token.scan source) := by
  obtain ⟨-, rfl⟩ := read_eq_ok_iff.mp h
  have hstart : Reader.start.ReadFrom (Token.scan source) := ⟨nofun, nofun⟩
  have hrun := hstart.run Reader.sound_start (fun t ht => genuine_of_mem_scan ht) List.suffix_rfl
  intro s hs clause hclause
  obtain ⟨outer, houter, hmem⟩ := mem_bodyParts.mp hs
  exact hrun.program outer (List.mem_reverse.mp houter) s hmem clause hclause

end Sting
