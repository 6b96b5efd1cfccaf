import Sting.Proofs.Expression.OneLine
import Sting.Proofs.Statement.Nesting
import Sting.Proofs.Statement.Parts

/-!
# Programs on one line

What the reader takes over from the tokens are their texts: as names, joined to the source of an
expression, or quoted in a mismatch. Where every token is on one line, so are the names and sources
of the program, and so is what a mismatch quotes.
-/

namespace Sting

open Text

/-- All tokens are on one line. -/
def Token.OneLines (tokens : List Token) : Prop :=
  ∀ t ∈ tokens, Text.OneLine t.text

open Token (OneLines)

/-- What is needed and what is found are on one line. -/
def Mismatch.OneLine (m : Mismatch) : Prop :=
  Text.OneLine m.expected.render ∧ ∀ t ∈ m.found, Text.OneLine t.text

namespace Statement

/-- The texts of a statement that a failure in it can quote. -/
def quotes : Statement → List String
  | .assign name _ e => [name, e.source]
  | .input name _ _ => [name]
  | .output _ | .conditional _ | .loop .. | .stop => []

/-- These texts are on one line. -/
def OneLine (s : Statement) : Prop :=
  ∀ text ∈ s.quotes, Text.OneLine text

/-- An assignment quotes its name and its source at most. -/
theorem oneLine_assign {name : String} {declared : Option TypeTag} {e : Expression}
    (hname : Text.OneLine name) (he : Text.OneLine e.source) : (assign name declared e).OneLine :=
  List.forall_mem_cons.mpr ⟨hname, List.forall_mem_singleton.mpr he⟩

end Statement

namespace Clause

/-- The statement that the clause is, if it is one, is on one line. -/
def OneLine : Clause → Prop
  | .simple s => s.OneLine
  | .conditional _ | .loop _ | .stray => True

variable {tokens : List Token} (h : OneLines tokens)
include h

/-- Joining tokens puts blanks between them and no newline. -/
theorem oneLine_join : Text.OneLine (join tokens) := by
  refine oneLine_intercalate (by decide) ?_
  rwa [List.forall_mem_map]

/-- The source of an expression is on one line where its tokens are. -/
theorem oneLine_takeSource : Text.OneLine (takeSource tokens).1 :=
  oneLine_join fun t ht => h t (List.takeWhile_subset _ ht)

/-- What is needed and what is found instead are quoted. -/
theorem meets_expect {text : String} (htext : Text.OneLine (Expected.symbol text).render) :
    Meets OneLines Mismatch.OneLine (expect text tokens) := by
  cases tokens with
  | nil => exact ⟨htext, nofun⟩
  | cons t rest =>
      obtain ⟨ht, hrest⟩ := List.forall_mem_cons.mp h
      rw [expect]
      split
      · exact hrest
      · refine ⟨htext, ?_⟩
        rintro _ ⟨⟩
        exact ht

/-- A name is the text of a token. -/
theorem meets_expectName :
    Meets (fun taken => Text.OneLine taken.1 ∧ OneLines taken.2) Mismatch.OneLine
      (expectName tokens) := by
  cases tokens with
  | nil => exact ⟨by decide, nofun⟩
  | cons t rest => exact List.forall_mem_cons.mp h

omit h in
/-- Arguments that are not closed quote no token. -/
theorem meets_takeArguments (tokens : List Token) :
    Meets (fun _ => True) Mismatch.OneLine (takeArguments tokens) := by
  unfold takeArguments
  split
  · refine ⟨by decide, ?_⟩
    rintro _ ⟨⟩
  · trivial

/-- What is left behind a parenthesis are tokens of the source. -/
theorem oneLines_takeMatching (depth : Nat) : OneLines (takeMatching depth tokens).2 := by
  cases hrest : (takeMatching depth tokens).2 with
  | nil => exact nofun
  | cons u rest =>
      obtain ⟨-, hsuffix, -⟩ := balanced_of_takeMatching (Prod.ext rfl hrest)
      exact fun t ht => h t (hsuffix.subset ht)

/-- A condition fails at its parenthesis or at its colon. -/
theorem meets_takeCondition : Meets (fun _ => True) Mismatch.OneLine (takeCondition tokens) := by
  refine (meets_expect h (by decide)).bind fun behind hbehind => ?_
  exact (meets_expect (oneLines_takeMatching hbehind 0) (by decide)).bind fun _ _ => trivial

/-- A declaration takes its name and its source from the tokens. -/
theorem meets_takeDeclaration (tag : TypeTag) :
    Meets (fun taken => taken.1.OneLine) Mismatch.OneLine (takeDeclaration tag tokens) := by
  refine (meets_expect h (by decide)).bind fun _ h₁ => ?_
  refine (meets_expectName h₁).bind fun taken h₂ => ?_
  obtain ⟨name, behind⟩ := taken
  obtain ⟨hname, hbehind⟩ := h₂
  refine (meets_expect hbehind (by decide)).bind fun _ h₃ => ?_
  refine (meets_expect h₃ (by decide)).bind fun rest h₄ => ?_
  cases rest with
  | nil => exact Statement.oneLine_assign hname (by decide)
  | cons t rest =>
      dsimp only
      split
      · refine (meets_expect (List.forall_mem_cons.mp h₄).2 (by decide)).bind fun _ _ => ?_
        refine (meets_takeArguments _).bind fun _ _ => ?_
        exact List.forall_mem_singleton.mpr hname
      · exact Statement.oneLine_assign hname (oneLine_takeSource h₄)

/-- An output quotes nothing later on. -/
theorem meets_takeOutput :
    Meets (fun taken => taken.1.OneLine) Mismatch.OneLine (takeOutput tokens) := by
  refine (meets_expect h (by decide)).bind fun _ _ => ?_
  exact (meets_takeArguments _).bind fun _ _ => nofun

/-- An accumulating assignment puts signs of its own around the source, and none is a newline. -/
theorem oneLine_takeAssigned {name symbol : String} (hname : Text.OneLine name)
    (hsymbol : Text.OneLine symbol) : (takeAssigned name symbol tokens).1.OneLine := by
  have hcombined {source : String} (hsource : Text.OneLine source) :
      Text.OneLine (combined name symbol source) := by
    simp only [combined, oneLine_append, hname, hsymbol, hsource, true_and, and_true]
    decide
  refine Statement.oneLine_assign hname ?_
  rw [Expression.source_compile]
  split
  · exact oneLine_takeSource h
  · exact hcombined (oneLine_takeSource h)

/-- A clause takes its names and sources from the tokens. -/
theorem meets_read {t : Token} (ht : Text.OneLine t.text) :
    Meets (fun taken => taken.1.OneLine) Mismatch.OneLine (read t tokens) := by
  unfold read
  split
  · exact (meets_takeDeclaration h _).bind fun _ hs => hs
  · split
    · rename_i symbol rest hassign
      obtain ⟨-, op, hop, rfl⟩ := exists_of_assigns? hassign
      have hsymbol : Text.OneLine symbol := by
        have hfixed : ∀ symbol ∈ "" :: combining, Text.OneLine symbol := by decide
        exact hfixed symbol (List.mem_cons.mpr (eq_of_accumulator? hop))
      exact oneLine_takeAssigned (List.forall_mem_cons.mp h).2 ht hsymbol
    · split
      · exact (meets_takeCondition h).bind fun _ _ => trivial
      · exact (meets_takeCondition h).bind fun _ _ => trivial
      · exact (meets_takeOutput h).bind fun _ hs => hs
      · exact nofun
      · trivial

end Clause

namespace Reader

open Clause

/-- A clause that does not fit quotes tokens. -/
theorem meets_takeClause (r : Reader) {t : Token} {rest : List Token}
    (h : OneLines (t :: rest)) : Meets (fun _ => True) Mismatch.OneLine (r.takeClause t rest) := by
  obtain ⟨ht, hrest⟩ := List.forall_mem_cons.mp h
  exact (meets_read hrest ht).bind fun _ _ => trivial

/-- The header of another arm that does not fit quotes tokens. -/
theorem meets_nextBranch (r : Reader) {tokens : List Token} (h : OneLines tokens) :
    Meets (fun _ => True) Mismatch.OneLine (r.nextBranch tokens) := by
  unfold nextBranch
  split
  · have hrest := (List.forall_mem_cons.mp h).2
    dsimp only
    split
    · exact (meets_takeCondition hrest).bind fun _ _ => trivial
    · split
      · exact (meets_expect hrest (by decide)).bind fun _ _ => trivial
      · trivial
  · trivial

/-- A step of the reader that fails quotes tokens. -/
theorem meets_step (r : Reader) {t : Token} {rest : List Token} (h : OneLines (t :: rest)) :
    Meets (fun _ => True) Mismatch.OneLine (r.step t rest) := by
  unfold step
  split
  · split
    · trivial
    · exact meets_takeClause r h
  · split
    · exact meets_nextBranch r fun u hu => h u ((suffix_skipBar _).subset hu)
    · exact meets_takeClause r h
  · split
    · split
      · trivial
      · split
        · trivial
        · exact meets_takeClause r (List.forall_mem_cons.mp h).2
    · exact meets_takeClause r h

/-- Whatever mismatch a run meets, it quotes tokens. -/
theorem oneLine_of_run {r : Reader} {tokens : List Token} (h : OneLines tokens) {m : Mismatch}
    (hm : (r.run tokens).2 = some m) : m.OneLine := by
  fun_induction run r tokens with
  | case1 r => cases hm
  | case2 r t rest m' hstep =>
      have hmismatch := meets_step r h
      rw [hstep] at hmismatch
      cases hm
      exact hmismatch
  | case3 r t rest r' after hstep hsize ih =>
      exact ih (fun u hu => h u ((suffix_of_step hstep).subset hu)) hm

end Reader

section

variable {source : String} (h : OneLines (Token.scan source))
include h

/-- The names and sources of a program are on one line if the tokens of its source are. -/
theorem Statement.oneLine_of_read {program : List Statement}
    (hread : Statement.read (Token.scan source) = .ok program) :
    ∀ s ∈ bodyParts program, s.OneLine := by
  have hsimple {s : Statement} (hs : (Clause.simple s).ReadFrom (Token.scan source)) :
      s.OneLine := by
    obtain ⟨hsuffix, hclause⟩ := hs
    obtain ⟨ht, hrest⟩ := List.forall_mem_cons.mp fun u hu => h u (hsuffix.subset hu)
    have hmeets := Clause.meets_read hrest ht
    rw [hclause] at hmeets
    exact hmeets
  intro s hs
  have hclauses := readFrom_of_read hread s hs
  cases s with
  | assign name declared e => exact hsimple (hclauses _ List.mem_cons_self)
  | input name declared prompt => exact hsimple (hclauses _ List.mem_cons_self)
  | output args => exact nofun
  | conditional branches => exact nofun
  | loop condition body => exact nofun
  | stop => exact nofun

/-- A source that is no program is reported with tokens that are on one line if all of them are. -/
theorem SyntaxError.oneLine_of_read {e : SyntaxError}
    (hread : Statement.read (Token.scan source) = .error e) :
    ∀ text ∈ e.expected.render :: e.found.toList, Text.OneLine text := by
  obtain ⟨m, hm, rfl⟩ := Statement.read_eq_error_iff.mp hread
  obtain ⟨hexpected, hfound⟩ := Reader.oneLine_of_run h hm
  obtain ⟨expected, found⟩ := m
  cases found with
  | none => exact List.forall_mem_singleton.mpr hexpected
  | some t =>
      exact List.forall_mem_cons.mpr ⟨hexpected, List.forall_mem_singleton.mpr (hfound t rfl)⟩

end

end Sting
