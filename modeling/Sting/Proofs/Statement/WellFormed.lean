import Sting.Proofs.Expression.Conservation
import Sting.Proofs.Expression.Tokens
import Sting.Proofs.Statement.Parts

/-!
# Well-formed programs

What every statement of a program that was read looks like, at whatever depth it stands. That the
arms of conditionals are in order is a matter of the reader alone. The stack code of conditions and
of assigned expressions depends on where the reader ends them as well: a condition ends at its own
parenthesis, so no parenthesis is left open in its code, and an assigned expression ends before the
first bar, so there is no disjunction in its code.
-/

namespace Sting

open Token

namespace Token

/-- A text is a token of one kind only. -/
theorem IsSpelling.kind_eq {kind kind' : Token.Kind} {text : List Char}
    (h : IsSpelling kind text) (h' : IsSpelling kind' text) : kind = kind' := by
  have hscan := (Piece.scan_spelling h breaks_nil).symm.trans (Piece.scan_spelling h' breaks_nil)
  simpa using hscan

/-- A token of one delimiter is a symbol. -/
theorem Genuine.kind_of_isDelimiter {t : Token} {c : Char} (h : t.Genuine)
    (htext : t.text.toList = [c]) (hc : Piece.isDelimiter c = true) : t.kind = .symbol := by
  have hspelling : IsSpelling t.kind [c] := htext ▸ h
  exact hspelling.kind_eq (.delimiter hc)

end Token

namespace Lexeme

/-! ## Parentheses among tokens -/

variable {depth : Nat} {kind : Token.Kind} {text : List Char} {t : Token} {tokens : List Token}

/-- An opening parenthesis stands for one. -/
theorem ofToken_opening (h : t.Genuine) (htext : t.text = "(") :
    ofToken t.kind t.text.toList = [.opening] := by
  have hlist : t.text.toList = ['('] := by rw [htext]; rfl
  rw [h.kind_of_isDelimiter hlist rfl, hlist]
  rfl

/-- A closing parenthesis stands for one. -/
theorem ofToken_closing (h : t.Genuine) (htext : t.text = ")") :
    ofToken t.kind t.text.toList = [.closing] := by
  have hlist : t.text.toList = [')'] := by rw [htext]; rfl
  rw [h.kind_of_isDelimiter hlist rfl, hlist]
  rfl

/-- No other token than a parenthesis stands for one. -/
theorem not_mem_ofToken (hopen : text ≠ ['(']) (hclose : text ≠ [')']) :
    .opening ∉ ofToken kind text ∧ .closing ∉ ofToken kind text := by
  cases kind with
  | symbol =>
      rw [ofToken]
      rcases ofSymbol_cases text with ⟨htext, -⟩ | ⟨htext, -⟩ | hnone | ⟨op, -, hop⟩
      · exact absurd htext hopen
      · exact absurd htext hclose
      · simp [hnone]
      · simp [hop]
  | keyword | identifier | text | number | comment => simp [ofToken]

/-- Lexemes other than parentheses open and close nothing. -/
theorem unmatched_append {front : List Lexeme} (h : .opening ∉ front ∧ .closing ∉ front)
    (rest : List Lexeme) : unmatched depth (front ++ rest) = unmatched depth rest := by
  induction front with
  | nil => rfl
  | cons lexeme front ih =>
      simp only [List.mem_cons, not_or] at h
      have hrest := ih ⟨h.1.2, h.2.2⟩
      cases lexeme with
      | opening => exact absurd rfl h.1.1
      | closing => exact absurd rfl h.2.1
      | number value => exact hrest
      | text content => exact hrest
      | word name => exact hrest
      | operator op => exact hrest

/-- Tokens other than parentheses open and close nothing. -/
theorem unmatched_ofTokens_cons (hopen : t.text ≠ "(") (hclose : t.text ≠ ")") :
    unmatched depth (ofTokens (t :: tokens)) = unmatched depth (ofTokens tokens) := by
  by_cases hbar : isBar t = true
  · have hbars (n : Nat) (rest : List Lexeme) :
        unmatched depth (List.replicate n (.operator (.binary .or)) ++ rest) =
          unmatched depth rest := unmatched_append (by simp [List.mem_replicate]) rest
    obtain ⟨more, fewer, rest, hmore, hfewer⟩ := exists_ofTokens_bar hbar tokens
    rw [hmore, hfewer, hbars, hbars]
  · rw [Bool.not_eq_true] at hbar
    rw [ofTokens_cons hbar]
    refine unmatched_append (not_mem_ofToken ?_ ?_) _
    · exact fun htext => hopen (String.toList_injective htext)
    · exact fun htext => hclose (String.toList_injective htext)

/-- Tokens up to the parenthesis that closes the one before them close all that they open. -/
theorem unmatched_ofTokens (h : ∀ t ∈ tokens, t.Genuine) {close : Token} {rest : List Token}
    (hmatching : Clause.takeMatching depth (tokens ++ close :: rest) = (tokens, rest)) :
    unmatched depth (ofTokens tokens) = 0 := by
  induction tokens generalizing depth with
  | nil =>
      rw [ofTokens_nil]
      rcases Clause.takeMatching_cons depth close with ⟨rfl, -⟩ | ⟨depth', hnext⟩
      · rfl
      · rw [List.nil_append, hnext] at hmatching
        simp at hmatching
  | cons t tokens ih =>
      obtain ⟨ht, htokens⟩ := List.forall_mem_cons.mp h
      rw [List.cons_append] at hmatching
      by_cases hopen : t.text = "("
      · have hbar : isBar t = false := by rw [isBar, hopen]; rfl
        simp only [Clause.takeMatching, if_pos hopen] at hmatching
        rw [ofTokens_cons hbar, ofToken_opening ht hopen]
        exact ih htokens (by simpa [Prod.ext_iff] using hmatching)
      · by_cases hclose : t.text = ")"
        · have hbar : isBar t = false := by rw [isBar, hclose]; rfl
          simp only [Clause.takeMatching, if_neg hopen, if_pos hclose] at hmatching
          rw [ofTokens_cons hbar, ofToken_closing ht hclose]
          cases depth with
          | zero => simp at hmatching
          | succ depth => exact ih htokens (by simpa [Prod.ext_iff] using hmatching)
        · simp only [Clause.takeMatching, if_neg hopen, if_neg hclose] at hmatching
          rw [unmatched_ofTokens_cons hopen hclose]
          exact ih htokens (by simpa [Prod.ext_iff] using hmatching)

/-- Without bars there is no disjunction. -/
theorem or_not_mem_ofTokens (h : ∀ t ∈ tokens, isBar t = false) :
    .operator (.binary .or) ∉ ofTokens tokens := by
  have htoken (kind : Token.Kind) (text : List Char) :
      .operator (.binary .or) ∉ ofToken kind text := by
    cases kind with
    | symbol =>
        rw [ofToken]
        rcases ofSymbol_cases text with ⟨-, h⟩ | ⟨-, h⟩ | h | ⟨op, hne, h⟩
        · simp [h]
        · simp [h]
        · simp [h]
        · simp [h, hne.symm]
    | keyword | identifier | text | number | comment => simp [ofToken]
  induction tokens with
  | nil => simp [ofTokens_nil]
  | cons t tokens ih =>
      obtain ⟨ht, htokens⟩ := List.forall_mem_cons.mp h
      rw [ofTokens_cons ht, List.mem_append, not_or]
      exact ⟨htoken t.kind t.text.toList, ih htokens⟩

end Lexeme

namespace Expression

/-- The code of an expression that was read is that of the lexemes which its tokens stand for. -/
theorem code_eq_of_alike {e : Expression} (h : e.Alike e.tidy) :
    e.code = Instruction.ofLexemes (Lexeme.ofTokens (spelled e.source.toList)) := by
  rw [h.1, tidy, code_eq, source_compile, Lexeme.scan_join fun t ht => genuine_of_mem_spelled ht]

/-- No parenthesis is left open in the header of a block. -/
theorem Guarding.unclosed_not_mem {e : Expression} (h : e.Guarding) : .unclosed ∉ e.code := by
  have hmatching := h.balanced (bare .symbol [')']) [] rfl
  rw [code_eq_of_alike h.alike]
  apply Instruction.unclosed_not_mem_ofLexemes
  exact Lexeme.unmatched_ofTokens (fun t ht => genuine_of_mem_spelled ht) hmatching

/-- There is no disjunction behind an equals sign. -/
theorem Assignable.or_not_mem {e : Expression} (h : e.Assignable) :
    .apply (.binary .or) ∉ e.code := by
  rw [code_eq_of_alike h.alike]
  intro hmem
  obtain ⟨due, op, hop, hplaced⟩ := Instruction.exists_of_apply_mem_ofLexemes hmem
  have hor : op = .binary .or := by
    cases op with
    | unary op => cases hplaced
    | binary op => cases op <;> cases due <;> cases hplaced <;> rfl
  subst hor
  refine Lexeme.or_not_mem_ofTokens ?_ hop
  intro t ht
  have hcontinues := h.continues t ht
  simp only [Clause.continuesExpression, Bool.and_eq_true, bne_iff_ne] at hcontinues
  simp [Lexeme.isBar, hcontinues.1]

end Expression

namespace Statement

/-! ## Statements at any depth -/

/-- The arms of a conditional as they are read. -/
structure WellFormedArms (arms : List (Branch Statement)) : Prop where
  /-- There is an arm, and the first one has a condition. -/
  first : ∃ arm ∈ arms.head?, arm.condition ≠ none
  /-- Only the last arm may go without a condition. -/
  last : ∀ arm ∈ arms.dropLast, arm.condition ≠ none
  /-- No arm holds a conditional directly. -/
  plain : ∀ arm ∈ arms, ∀ s ∈ arm.body, ∀ branches, s ≠ .conditional branches
  closed : ∀ arm ∈ arms, ∀ c ∈ arm.condition, .unclosed ∉ c.code

/-- The form that the reader gives to a statement, whatever the statements inside it are. -/
def WellFormed : Statement → Prop
  | .assign _ _ e => .apply (.binary .or) ∉ e.code
  | .input .. => True
  | .output args => ")" ∉ args ∧ "," ∉ args
  | .conditional branches => WellFormedArms branches
  | .loop condition _ => .unclosed ∉ condition.code
  | .stop => True

/-- Every readable arm has a guarding condition, if any, and no conditional right inside. -/
theorem of_mem_readableArms {arms : List (Branch Statement)} (h : ReadableArms arms) :
    ∀ arm ∈ arms, (∀ c ∈ arm.condition, c.Guarding) ∧ ∀ s ∈ arm.body, s.isConditional = false := by
  induction arms with
  | nil => exact nofun
  | cons arm arms ih =>
      obtain ⟨hguard, -, -, hplain, harms⟩ := h
      exact List.forall_mem_cons.mpr ⟨⟨hguard, hplain⟩, ih harms⟩

/-- Only the last arm has no condition. -/
theorem last_of_readableArms {arms : List (Branch Statement)} (h : ReadableArms arms) :
    ∀ arm ∈ arms.dropLast, arm.condition ≠ none := by
  induction arms with
  | nil => exact nofun
  | cons arm arms ih =>
      obtain ⟨-, hlast, -, -, harms⟩ := h
      cases arms with
      | nil => exact nofun
      | cons next arms =>
          rw [List.dropLast_cons_cons, List.forall_mem_cons]
          exact ⟨fun hnone => absurd (hlast hnone) (List.cons_ne_nil _ _), ih harms⟩

/-- A readable statement is well formed. -/
theorem Readable.wellFormed : ∀ {s : Statement}, s.Readable → s.WellFormed
  | .assign _ (some _) _, ⟨_, he⟩ => he.or_not_mem
  | .assign _ none _, ⟨_, he⟩ => he.or_not_mem
  | .input .., _ => trivial
  | .output _, hargs => ⟨fun h => (hargs _ h).ne_closing rfl, fun h => (hargs _ h).ne_comma rfl⟩
  | .conditional arms, ⟨hfirst, harms⟩ =>
    { first := by
        obtain ⟨c, body, rest, rfl⟩ := hfirst
        exact ⟨_, rfl, nofun⟩
      last := last_of_readableArms harms
      plain := by
        intro arm harm s hs branches hs'
        have hplain := (of_mem_readableArms harms arm harm).2 s hs
        rw [hs'] at hplain
        cases hplain
      closed := fun arm harm c hc =>
        ((of_mem_readableArms harms arm harm).1 c hc).unclosed_not_mem }
  | .loop _ _, ⟨hc, _⟩ => hc.unclosed_not_mem
  | .stop, _ => trivial

mutual

/-- What is inside a statement that can be read can be read. -/
theorem readable_of_mem_parts : ∀ {s : Statement}, s.Readable → ∀ part ∈ s.parts, part.Readable
  | .assign .., h => List.forall_mem_singleton.mpr h
  | .input .., h => List.forall_mem_singleton.mpr h
  | .output _, h => List.forall_mem_singleton.mpr h
  | .conditional _, h => List.forall_mem_cons.mpr ⟨h, readable_of_mem_armParts h.2⟩
  | .loop _ _, h => List.forall_mem_cons.mpr ⟨h, readable_of_mem_bodyParts h.2⟩
  | .stop, h => List.forall_mem_singleton.mpr h

/-- What is inside a readable body can be read. -/
theorem readable_of_mem_bodyParts : ∀ {body : List Statement}, ReadableBody body →
    ∀ part ∈ bodyParts body, part.Readable
  | [], _ => nofun
  | _ :: _, ⟨hs, hrest⟩ =>
    List.forall_mem_append.mpr ⟨readable_of_mem_parts hs, readable_of_mem_bodyParts hrest⟩

/-- What is inside readable arms can be read. -/
theorem readable_of_mem_armParts : ∀ {arms : List (Branch Statement)}, ReadableArms arms →
    ∀ part ∈ armParts arms, part.Readable
  | [], _ => nofun
  | _ :: _, ⟨_, _, hbody, _, hrest⟩ =>
    List.forall_mem_append.mpr ⟨readable_of_mem_bodyParts hbody, readable_of_mem_armParts hrest⟩

end

/-- Every statement of a program that was read is well formed, at whatever depth it stands. -/
theorem wellFormed_of_read {source : String} {program : List Statement}
    (h : read (Token.scan source) = .ok program) : ∀ s ∈ bodyParts program, s.WellFormed := by
  intro s hs
  exact (readable_of_mem_bodyParts (readable_of_read h) s hs).wellFormed

/-- Texts with bars and parentheses, an arm that ends without a bar, and commas in an output. -/
theorem wellFormed_of_read_nested :
    let source := "loop (((x)) || '(') : y = 'a||b' + ( | if (')' == x) : show('|', y,) else : stop"
    let program : List Statement := [.loop (.compile "( ( x ) ) | | '('")
      [.assign "y" none (.compile "'a||b' + ("),
        .conditional [⟨some (.compile "')' == x"), [.output ["'|'", "y"]]⟩, ⟨none, [.stop]⟩]]]
    read (Token.scan source) = .ok program ∧ ∀ s ∈ bodyParts program, s.WellFormed := by
  intro source program
  have hread : read (Token.scan source) = .ok program := by
    decide +kernel
  exact ⟨hread, wellFormed_of_read hread⟩

end Statement

end Sting
