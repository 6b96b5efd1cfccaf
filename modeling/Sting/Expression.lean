import Sting.Expression.Instruction

/-!
# Expressions

An expression is its source text together with the stack code of its lexemes, converted once.
-/

namespace Sting

/-- A compiled expression. -/
structure Expression where
  source : String
  /-- The stack code. -/
  code : List Instruction
  /-- The code is that of the source. -/
  code_eq : code = Instruction.ofLexemes (Lexeme.scan source.toList)
deriving DecidableEq

namespace Expression

/-- The expression that a text spells. Every text spells one; whether it has a value, the evaluation
tells. -/
def compile (source : String) : Expression where
  source := source
  code := Instruction.ofLexemes (Lexeme.scan source.toList)
  code_eq := rfl

/-- An expression keeps the text that it was compiled from. -/
@[simp] theorem source_compile (source : String) : (compile source).source = source := rfl

/-- An expression is determined by its source. -/
theorem compile_source (e : Expression) : compile e.source = e := by
  obtain ⟨source, code, h⟩ := e
  subst h
  rfl

/-- The code of an expression is that of its source, so the source decides the whole. -/
@[ext] theorem ext {e₁ e₂ : Expression} (h : e₁.source = e₂.source) : e₁ = e₂ := by
  rw [← compile_source e₁, ← compile_source e₂, h]

end Expression

end Sting
