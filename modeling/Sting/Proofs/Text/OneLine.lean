import Sting.Failure
import Sting.Proofs.Json.Reports

/-!
# Reports on one line

Numbers, places and fixed words have no newlines, and JSON escapes those of the texts in it. So the
JSON of a failure stands on one line whatever the failure quotes, and its plain report does exactly
if everything that it quotes does.
-/

namespace Sting

namespace Text

/-- The text has no newline. -/
def OneLine (text : String) : Prop :=
  '\n' ∉ text.toList

instance : DecidablePred OneLine :=
  fun text => inferInstanceAs (Decidable ('\n' ∉ text.toList))

/-- A text is on one line exactly if both of its parts are. -/
theorem oneLine_append {front back : String} :
    OneLine (front ++ back) ↔ OneLine front ∧ OneLine back := by
  simp [OneLine]

/-- Joining adds nothing but separators. -/
theorem oneLine_intercalate {separator : String} {texts : List String}
    (hseparator : OneLine separator) (h : ∀ text ∈ texts, OneLine text) :
    OneLine (separator.intercalate texts) := by
  induction texts with
  | nil => exact List.not_mem_nil
  | cons text texts ih =>
      obtain ⟨htext, htexts⟩ := List.forall_mem_cons.mp h
      cases texts with
      | nil => rwa [String.intercalate_singleton]
      | cons next texts =>
          rw [String.intercalate_cons_cons, oneLine_append, oneLine_append]
          exact ⟨⟨htext, hseparator⟩, ih htexts⟩

end Text

open Text

/-! ## Numbers and places -/

/-- A numeral is a word, and no newline belongs to a word. -/
theorem Json.oneLine_of_isNumeral {text : String} (h : isNumeral text.toList = true) :
    OneLine text := by
  intro hnewline
  exact absurd (isInWord_of_isNumeral h _ hnewline) (by decide)

/-- A number is shown on one line, be it finite or not. -/
theorem Number.oneLine_render (x : Float) : OneLine (render x) := by
  by_cases hfinite : isFinite x = true
  · exact Json.oneLine_of_isNumeral (Json.isNumeral_render hfinite)
  · have hlarge : ¬ magnitude x < Magnitude.infinity := by simpa [isFinite] using hfinite
    have hsign : OneLine (if isNegative x then "-" else "") := by
      split <;> decide
    unfold render
    simp only [if_neg hlarge]
    split
    · decide
    · split
      · rw [oneLine_append]
        exact ⟨hsign, by decide⟩
      · decide

/-- A place is shown as two counts with a colon between them. -/
theorem Position.oneLine_render (p : Position) : OneLine p.render := by
  have hcount (n : Nat) : OneLine (toString n) :=
    Json.oneLine_of_isNumeral (Json.isNumeral_toString n)
  rw [render, oneLine_append, oneLine_append]
  exact ⟨⟨hcount _, by decide⟩, hcount _⟩

/-! ## JSON -/

namespace Json

/-- A newline has an escape of its own, and no other escape contains one. -/
theorem newline_not_mem_escape (c : Char) : '\n' ∉ escape c := by
  have hdigits : ∀ n < 16, hexDigit n ≠ '\n' := by decide
  unfold escape
  split
  case h_8 =>
    split
    · have hlow := hdigits (c.toNat % 16) (Nat.mod_lt _ (by decide))
      have hhigh := hdigits (c.toNat / 16) (by omega)
      simp [hlow.symm, hhigh.symm]
    · rename_i hnewline _ _ _ _ _
      simpa using Ne.symm hnewline
  all_goals decide

/-- A quoted text is on one line whatever its content. -/
theorem oneLine_quoted (text : String) : OneLine (quoted text) := by
  have hescaped : '\n' ∉ text.toList.flatMap escape := by
    rw [List.mem_flatMap]
    rintro ⟨c, -, hc⟩
    exact newline_not_mem_escape c hc
  rw [OneLine, toList_quoted]
  simp [hescaped]

/-- What is written on one line has no newline in it. -/
theorem WellFormed.oneLine_inline {value : Json} (h : WellFormed value) (style : Style) :
    OneLine (inline style value) := by
  have hcomma : OneLine "," := by decide
  induction h with
  | null =>
      rw [inline]
      decide
  | boolean truth =>
      rw [inline]
      cases truth <;> decide
  | number h =>
      rw [inline]
      exact oneLine_of_isNumeral h
  | string content =>
      rw [inline]
      exact oneLine_quoted content
  | @array items _ ih =>
      rw [inline, inlineItems_eq_map, oneLine_append, oneLine_append]
      refine ⟨⟨by decide, oneLine_intercalate hcomma ?_⟩, by decide⟩
      simpa using ih
  | @object fields _ ih =>
      rw [inline, inlineFields_eq_map, oneLine_append, oneLine_append]
      refine ⟨⟨by decide, oneLine_intercalate hcomma ?_⟩, by decide⟩
      intro text htext
      obtain ⟨field, hfield, rfl⟩ := List.mem_map.mp htext
      have hcolon : OneLine (if style = .pretty then ": " else ":") := by
        split <;> decide
      rw [keyed, oneLine_append, oneLine_append]
      exact ⟨⟨oneLine_quoted field.1, hcolon⟩, ih field hfield⟩

/-- In the compact style a whole tree is one line. -/
theorem WellFormed.oneLine_compact {value : Json} (h : WellFormed value) :
    OneLine (value.render .compact) := by
  have hinline : value.render .compact = inline .compact value := by
    cases value <;> simp [render, inline, container]
  rw [hinline]
  exact h.oneLine_inline .compact

end Json

/-! ## Failures -/

/-- The texts that an error of an evaluation quotes. -/
def EvalError.quotes : EvalError → List String
  | .divisionByZero | .missingOperand _ => []
  | .notANumber value | .invalidOperand _ value => [value.render]
  | .incomparable left right _ => [left.render, right.render]
  | .notSingle source => [source]
  | .unexpected token => [token]

/-- The texts that a failure quotes. -/
def Failure.quotes : Failure → List String
  | .malformed error => error.expected.render :: error.found.toList
  | .valueless error => error.quotes
  | .retyped name _ | .mistyped name _ | .noInput name | .notNumeric name => [name]
  | .device reason => [reason]

/-- Symbols of operators are on one line. -/
theorem Operator.oneLine_symbol (op : Operator) : OneLine op.symbol := by
  rcases op with op | op <;> cases op <;> decide

/-- The place and the kind add no newline to a message. -/
theorem Diagnostic.oneLine_render (d : Diagnostic) : OneLine d.render ↔ OneLine d.message := by
  have hcode : OneLine d.kind.code := by cases d.kind <;> decide
  have hopen : OneLine " (" := by decide
  have hclose : OneLine ")" := by decide
  have hcolon : OneLine ": " := by decide
  have hnothing : OneLine "" := by decide
  rw [render]
  cases d.position <;>
    simp only [oneLine_append, Position.oneLine_render, hcode, hopen, hclose, hcolon, hnothing,
      true_and, and_true]

/-- Neither the place nor the words of the kind make a difference. -/
theorem Diagnostic.oneLine_about (kind : Kind) (text : String) (position : Option Position) :
    OneLine (about kind text position).render ↔ OneLine text := by
  rw [oneLine_render, about]
  unfold Kind.message
  split
  · simp [OneLine]
  · simp [OneLine]
  · rfl

/-- The words of an error are on one line, so what it quotes decides. -/
theorem EvalError.oneLine_text (e : EvalError) :
    OneLine e.text ↔ ∀ text ∈ e.quotes, OneLine text := by
  have hsymbol (op : Operator) : '\n' ∉ op.symbol.toList := op.oneLine_symbol
  unfold text quotes
  split
  all_goals simp [OneLine, hsymbol]

/-- An error of the reader quotes what it needs and what it found, and these decide. -/
theorem SyntaxError.oneLine_text (e : SyntaxError) :
    OneLine e.text ↔ ∀ text ∈ e.expected.render :: e.found.toList, OneLine text := by
  obtain ⟨expected, found, position⟩ := e
  cases found <;> simp [text, OneLine]

/-- The report of a failure is on one line exactly if all that it quotes is. -/
theorem Failure.oneLine_render (failure : Failure) :
    OneLine failure.diagnostic.render ↔ ∀ text ∈ failure.quotes, OneLine text := by
  cases failure with
  | malformed error => exact (Diagnostic.oneLine_about _ _ _).trans error.oneLine_text
  | valueless error => exact (Diagnostic.oneLine_about _ _ _).trans error.oneLine_text
  | retyped name tag =>
      rw [diagnostic, Diagnostic.oneLine_about]
      cases tag <;> simp [quotes, TypeTag.describe, OneLine]
  | mistyped name tag =>
      rw [diagnostic, Diagnostic.oneLine_about]
      cases tag <;> simp [quotes, TypeTag.keyword, OneLine]
  | noInput name =>
      rw [diagnostic, Diagnostic.oneLine_about]
      simp [quotes, OneLine]
  | notNumeric name =>
      rw [diagnostic, Diagnostic.oneLine_about]
      simp [quotes, OneLine]
  | device reason =>
      rw [diagnostic, Diagnostic.oneLine_about]
      simp [quotes]

end Sting
