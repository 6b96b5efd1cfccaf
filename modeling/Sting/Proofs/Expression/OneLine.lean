import Sting.Proofs.Expression.Conservation
import Sting.Proofs.Expression.Tree
import Sting.Proofs.Text.OneLine

/-!
# Values on one line

Evaluation makes up no newlines. The texts and words of an expression are parts of its source, a sum
of texts joins what its operands show, and an error quotes operands, a word or the source. So where
the source and the variables are free of newlines, the value and the error are.
-/

namespace Sting

open Text

/-- The result satisfies `P`, or the error that there is instead satisfies `Q`. -/
def Meets {ε α : Type} (P : α → Prop) (Q : ε → Prop) : Except ε α → Prop
  | .ok a => P a
  | .error e => Q e

/-- What the first computation guarantees is what the second one may rely on. -/
theorem Meets.bind {ε α β : Type} {P : α → Prop} {P' : β → Prop} {Q : ε → Prop}
    {x : Except ε α} {f : α → Except ε β} (h : Meets P Q x) (hf : ∀ a, P a → Meets P' Q (f a)) :
    Meets P' Q (x >>= f) := by
  cases x with
  | ok a => exact hf a h
  | error e => exact h

/-! ## Contents of an expression -/

/-- The text that an operand carries. -/
def Instruction.content : Instruction → String
  | .text content => content
  | .word name => name
  | .number _ | .apply _ | .unclosed => ""

namespace Lexeme

variable {text rest : List Char} {lexeme : Lexeme}

/-- Symbols carry no text. -/
theorem subset_of_cutSymbol? (h : cutSymbol? text = some (lexeme, rest)) :
    lexeme.operand? = none ∧ rest ⊆ text := by
  unfold cutSymbol? at h
  split at h
  case h_2 behind =>
    obtain ⟨_, hbar, heq⟩ := Option.map_eq_some_iff.mp h
    cases heq
    refine ⟨rfl, List.subset_cons_of_subset _ ?_⟩
    unfold cutSecondBar? at hbar
    split at hbar
    · rename_i hdrop
      cases hbar
      have hsub := List.dropWhile_subset isBlank (l := behind)
      rw [hdrop] at hsub
      exact List.subset_of_cons_subset hsub
    · cases hbar
  case h_18 => cases h
  all_goals
    cases h
    exact ⟨rfl, by simp⟩

/-- What a lexeme carries is cut out of the text. -/
theorem subset_of_cut? (h : cut? text = some (lexeme, rest)) :
    (∀ i ∈ lexeme.operand?, i.content.toList ⊆ text) ∧ rest ⊆ text := by
  have hparts {front back whole : List Char} (h : front ++ back = whole) :
      front ⊆ whole ∧ back ⊆ whole := by
    subst h
    exact ⟨List.subset_append_left _ _, List.subset_append_right _ _⟩
  have hword {front : List Char} (h : front ⊆ text) : (String.ofList front).toList ⊆ text := by
    rwa [String.toList_ofList]
  unfold cut? at h
  split at h
  · cases h
  · rename_i c tail
    split at h
    · obtain ⟨⟨content, behind⟩, hquoted, heq⟩ := Option.map_eq_some_iff.mp h
      cases heq
      obtain ⟨hcontent, hbehind⟩ := hparts (append_of_cutQuoted? hquoted)
      refine ⟨?_, List.subset_cons_of_subset c (List.subset_of_cons_subset hbehind)⟩
      rintro _ ⟨⟩
      exact hword (List.subset_cons_of_subset c hcontent)
    · split at h
      · obtain ⟨hdigits, hrest⟩ := hparts (append_cutNumber (c :: tail))
        cases h
        refine ⟨?_, hrest⟩
        unfold ofDigits
        split
        · rintro _ ⟨⟩
          exact List.nil_subset _
        · rintro _ ⟨⟩
          exact hword hdigits
      · split at h
        · obtain ⟨hletters, hrest⟩ := hparts (append_cutWord (c :: tail))
          cases h
          refine ⟨?_, hrest⟩
          rintro _ ⟨⟩
          exact hword hletters
        · obtain ⟨hnone, hsub⟩ := subset_of_cutSymbol? h
          refine ⟨?_, hsub⟩
          rw [hnone]
          rintro _ ⟨⟩

/-- Whatever a lexeme of a text carries is part of the text. -/
theorem subset_of_mem_scan (h : lexeme ∈ scan text) :
    ∀ i ∈ lexeme.operand?, i.content.toList ⊆ text := by
  fun_induction scan text with
  | case1 text first rest hcut _ ih =>
      obtain ⟨hfirst, hrest⟩ := subset_of_cut? hcut
      rcases List.mem_cons.mp h with rfl | h
      · exact hfirst
      · exact fun i hi => List.Subset.trans (ih h i hi) hrest
  | case2 => cases h
  | case3 c rest _ ih =>
      exact fun i hi => List.subset_cons_of_subset c (ih h i hi)

end Lexeme

/-- The code carries nothing but parts of the source. -/
theorem Expression.oneLine_content {e : Expression} (h : OneLine e.source) :
    ∀ i ∈ e.code, OneLine i.content := by
  intro i hi
  by_cases hoperand : i.isOperand = true
  · have hfilter := Instruction.filter_isOperand_convert true [] (Lexeme.scan e.source.toList)
    have hmem : i ∈ e.code.filter Instruction.isOperand := List.mem_filter.mpr ⟨hi, hoperand⟩
    rw [e.code_eq, Instruction.ofLexemes, hfilter] at hmem
    obtain ⟨lexeme, hlexeme, hsome⟩ := List.mem_filterMap.mp hmem
    exact fun hnewline => h (Lexeme.subset_of_mem_scan hlexeme i hsome hnewline)
  · have hnothing : OneLine "" := by decide
    cases i with
    | apply op => exact hnothing
    | unclosed => exact hnothing
    | _ => exact absurd rfl hoperand

/-! ## Operators -/

/-- The value is shown on one line. -/
def Value.OneLine (value : Value) : Prop :=
  Text.OneLine value.render

/-- All that the error quotes is on one line. -/
def EvalError.OneLine (e : EvalError) : Prop :=
  ∀ text ∈ e.quotes, Text.OneLine text

/-- Numbers are shown on one line. -/
theorem Value.oneLine_number (x : Float) : (number x).OneLine :=
  Number.oneLine_render x

/-- Truth values are shown on one line. -/
theorem Value.oneLine_boolean (truth : Bool) : (boolean truth).OneLine := by
  unfold Value.OneLine
  cases truth <;> decide

section

variable {value left right : Value}

/-- A value that is no number is quoted as it is shown. -/
theorem Value.meets_toNumber (h : value.OneLine) :
    Meets (fun _ => True) EvalError.OneLine value.toNumber := by
  unfold toNumber
  split
  · trivial
  · exact List.forall_mem_singleton.mpr h

/-- A value that is no truth value is quoted as it is shown. -/
theorem Value.meets_toBoolean (op : Operator) (h : value.OneLine) :
    Meets (fun _ => True) EvalError.OneLine (value.toBoolean op) := by
  unfold toBoolean
  split
  · trivial
  · exact List.forall_mem_singleton.mpr h

/-- The result of a unary operator is a number or a truth value. -/
theorem UnaryOperator.meets_apply (op : UnaryOperator) (h : value.OneLine) :
    Meets Value.OneLine EvalError.OneLine (op.apply value) := by
  cases op with
  | neg => exact (Value.meets_toNumber h).bind fun _ _ => Value.oneLine_number _
  | not => exact (Value.meets_toBoolean _ h).bind fun _ _ => Value.oneLine_boolean _

namespace BinaryOperator

variable (hleft : left.OneLine) (hright : right.OneLine)
include hleft hright

/-- Arithmetic gives numbers and quotes one of its operands at most. -/
theorem meets_arithmetic (f : Float → Float → Float) :
    Meets Value.OneLine EvalError.OneLine (arithmetic f left right) :=
  (Value.meets_toNumber hleft).bind fun _ _ =>
    (Value.meets_toNumber hright).bind fun _ _ => Value.oneLine_number _

/-- A sum is a number, or shows one operand behind the other. -/
theorem meets_sum : Meets Value.OneLine EvalError.OneLine (sum left right) := by
  unfold sum
  split
  · exact oneLine_append.mpr ⟨hleft, hright⟩
  · exact meets_arithmetic hleft hright _

/-- A division by zero quotes nothing. -/
theorem meets_quotient : Meets Value.OneLine EvalError.OneLine (quotient left right) := by
  refine (Value.meets_toNumber hleft).bind fun x _ => ?_
  refine (Value.meets_toNumber hright).bind fun y _ => ?_
  split
  · exact Value.oneLine_number _
  · exact nofun

/-- A logical operator quotes at most the operand that it checks. -/
theorem meets_logical (op : BinaryOperator) (decisive : Bool) :
    Meets Value.OneLine EvalError.OneLine (logical op decisive left right) := by
  refine (Value.meets_toBoolean _ hleft).bind fun x _ => ?_
  split
  · exact Value.oneLine_boolean _
  · exact (Value.meets_toBoolean _ hright).bind fun _ _ => Value.oneLine_boolean _

/-- A comparison that fails quotes both operands. -/
theorem meets_compare (op : BinaryOperator) :
    Meets (fun _ => True) EvalError.OneLine (compare op left right) := by
  unfold compare
  split
  · trivial
  · split
    · trivial
    · trivial
    · exact List.forall_mem_cons.mpr ⟨hleft, List.forall_mem_singleton.mpr hright⟩

/-- No binary operator makes up a newline. -/
theorem meets_apply (op : BinaryOperator) :
    Meets Value.OneLine EvalError.OneLine (op.apply left right) := by
  have hcompare (op : BinaryOperator) : Meets Value.OneLine EvalError.OneLine
      (do return .boolean (← compare op left right)) :=
    (meets_compare hleft hright op).bind fun _ _ => Value.oneLine_boolean _
  cases op with
  | or => exact meets_logical hleft hright .or true
  | and => exact meets_logical hleft hright .and false
  | add => exact meets_sum hleft hright
  | div => exact meets_quotient hleft hright
  | sub | mul | rem | pow => exact meets_arithmetic hleft hright _
  | eq | ne | lt | gt | le | ge => exact hcompare _

end BinaryOperator

end

/-! ## Evaluation -/

/-- All variables are shown on one line. -/
def Environment.OneLine (env : Environment) : Prop :=
  ∀ name value, env.get? name = some value → value.OneLine

variable {env : Environment} (henv : env.OneLine)
include henv

/-- A word is looked up as a truth value or a variable, and is quoted if it is neither. -/
theorem Environment.OneLine.meets_lookup {word : String} (h : Text.OneLine word) :
    Meets Value.OneLine EvalError.OneLine (env.lookup word) := by
  unfold lookup
  split
  · exact Value.oneLine_boolean true
  · split
    · exact Value.oneLine_boolean false
    · split
      · exact henv word _ ‹_›
      · exact List.forall_mem_singleton.mpr h

/-- An instruction puts values on the stack that are on one line, or fails with such an error. -/
theorem Instruction.meets_step {i : Instruction} (hi : Text.OneLine i.content)
    {stack : List Value} (hstack : ∀ value ∈ stack, value.OneLine) :
    Meets (fun stack => ∀ value ∈ stack, value.OneLine) EvalError.OneLine (step env stack i) := by
  have hpush {x : Except EvalError Value} {rest : List Value}
      (hx : Meets Value.OneLine EvalError.OneLine x) (hrest : ∀ value ∈ rest, value.OneLine) :
      Meets (fun stack => ∀ value ∈ stack, value.OneLine) EvalError.OneLine
        (do return (← x) :: rest) :=
    hx.bind fun _ hvalue => List.forall_mem_cons.mpr ⟨hvalue, hrest⟩
  cases i with
  | number x => exact List.forall_mem_cons.mpr ⟨Value.oneLine_number x, hstack⟩
  | text content => exact List.forall_mem_cons.mpr ⟨hi, hstack⟩
  | word name => exact hpush (henv.meets_lookup hi) hstack
  | unclosed => exact List.forall_mem_singleton.mpr (by decide)
  | apply op =>
      cases op with
      | unary op =>
          cases stack with
          | nil => exact nofun
          | cons operand rest =>
              obtain ⟨hoperand, hrest⟩ := List.forall_mem_cons.mp hstack
              exact hpush (op.meets_apply hoperand) hrest
      | binary op =>
          match stack with
          | [] => exact nofun
          | [_] => exact nofun
          | right :: left :: rest =>
              obtain ⟨hright, hstack⟩ := List.forall_mem_cons.mp hstack
              obtain ⟨hleft, hrest⟩ := List.forall_mem_cons.mp hstack
              exact hpush (BinaryOperator.meets_apply hleft hright op) hrest

/-- Code leaves values on one line, or fails with such an error; by induction on the code. -/
theorem Instruction.meets_run {code : List Instruction}
    (hcode : ∀ i ∈ code, Text.OneLine i.content) {stack : List Value}
    (hstack : ∀ value ∈ stack, value.OneLine) :
    Meets (fun stack => ∀ value ∈ stack, value.OneLine) EvalError.OneLine (run env stack code) := by
  induction code generalizing stack with
  | nil => exact hstack
  | cons i code ih =>
      obtain ⟨hi, hcode⟩ := List.forall_mem_cons.mp hcode
      rw [run_cons]
      exact (meets_step henv hi hstack).bind fun _ hstack => ih hcode hstack

/-- The value of an expression is on one line, or its error is. -/
theorem Expression.meets_evaluate {e : Expression} (h : Text.OneLine e.source) :
    Meets Value.OneLine EvalError.OneLine (e.evaluate env) := by
  have hempty : ∀ value ∈ ([] : List Value), value.OneLine := nofun
  refine (Instruction.meets_run henv (e.oneLine_content h) hempty).bind fun stack hstack => ?_
  split
  · exact hstack _ List.mem_cons_self
  · exact List.forall_mem_singleton.mpr h

end Sting
