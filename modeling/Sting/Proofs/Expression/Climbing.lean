import Sting.Proofs.Expression.Tree

/-!
# Precedence climbing

The grammar of well-formed lexemes and the tree that precedence climbing builds from them. The
grammar is flat: it says nothing about precedence. Reading takes one operand after the other, each
with the operators that bind tighter than the one before it, and every sequence of the grammar is
read to its end.
-/

namespace Sting

/-- How tightly a binary operator binds. -/
def BinaryOperator.level : BinaryOperator → Int
  | .pow => 5
  | .mul | .div | .rem => 3
  | .add | .sub => 2
  | .eq | .ne | .lt | .gt | .le | .ge => 1
  | .and => 0
  | .or => -1

/-- How tightly both unary operators bind. -/
def UnaryOperator.level : Int :=
  4

/-- Levels are precedences counted from minus one. -/
theorem BinaryOperator.level_eq (op : BinaryOperator) : op.level = (op.precedence : Int) - 1 := by
  cases op <;> rfl

namespace Lexeme

mutual

/-- A number, a text, a word, or an expression in parentheses. -/
inductive IsAtom : List Lexeme → Prop
  | number (value : Float) : IsAtom [.number value]
  | text (content : String) : IsAtom [.text content]
  | word (name : String) : IsAtom [.word name]
  | parenthesized {inner : List Lexeme} (h : IsExpression inner) :
      IsAtom (.opening :: (inner ++ [.closing]))

/-- An atom behind any number of prefix operators. -/
inductive IsPrimary : List Lexeme → Prop
  | atom {lexemes : List Lexeme} (h : IsAtom lexemes) : IsPrimary lexemes
  | minus {lexemes : List Lexeme} (h : IsPrimary lexemes) :
      IsPrimary (.operator (.binary .sub) :: lexemes)
  | not {lexemes : List Lexeme} (h : IsPrimary lexemes) :
      IsPrimary (.operator (.unary .not) :: lexemes)

/-- Any number of binary operators, each with a primary behind it. -/
inductive IsTail : List Lexeme → Prop
  | nil : IsTail []
  | cons (op : BinaryOperator) {primary tail : List Lexeme} (hp : IsPrimary primary)
      (ht : IsTail tail) : IsTail (.operator (.binary op) :: (primary ++ tail))

/-- Primaries with binary operators between them. -/
inductive IsExpression : List Lexeme → Prop
  | mk {primary tail : List Lexeme} (hp : IsPrimary primary) (ht : IsTail tail) :
      IsExpression (primary ++ tail)

end

/-- A primary has at least one lexeme. -/
theorem IsPrimary.length_pos {lexemes : List Lexeme} (h : IsPrimary lexemes) :
    0 < lexemes.length := by
  cases h with
  | atom h => cases h <;> exact Nat.succ_pos _
  | minus h => exact Nat.succ_pos _
  | not h => exact Nat.succ_pos _

end Lexeme

namespace Tree

open Lexeme

mutual

/-- Reads an atom, or a prefix operator with its operand: a minus here is a negation. The operand
goes on with the operators that bind tighter than the prefix. -/
def primary? (lexemes : List Lexeme) :
    Option (Tree × { rest : List Lexeme // rest.length < lexemes.length }) :=
  match lexemes with
  | .number value :: rest => some (.number value, ⟨rest, Nat.lt_succ_self _⟩)
  | .text content :: rest => some (.text content, ⟨rest, Nat.lt_succ_self _⟩)
  | .word name :: rest => some (.word name, ⟨rest, Nat.lt_succ_self _⟩)
  | .operator (.binary .sub) :: rest =>
    match operand? (UnaryOperator.level + 1) rest with
    | some (operand, ⟨rest, h⟩) => some (.unary .neg operand, ⟨rest, Nat.lt_succ_of_lt h⟩)
    | none => none
  | .operator (.unary op) :: rest =>
    match operand? (UnaryOperator.level + 1) rest with
    | some (operand, ⟨rest, h⟩) => some (.unary op operand, ⟨rest, Nat.lt_succ_of_lt h⟩)
    | none => none
  | .opening :: rest =>
    match operand? BinaryOperator.or.level rest with
    | some (inner, ⟨.closing :: rest, h⟩) =>
      some (inner, ⟨rest, Nat.lt_succ_of_lt (Nat.lt_of_succ_lt h)⟩)
    | _ => none
  | _ => none
termination_by 2 * lexemes.length

/-- Reads a primary and climbs on from it. -/
def operand? (least : Int) (lexemes : List Lexeme) :
    Option (Tree × { rest : List Lexeme // rest.length < lexemes.length }) :=
  match primary? lexemes with
  | some (left, ⟨rest, h⟩) =>
    match climb? least left rest with
    | some (tree, ⟨rest', h'⟩) => some (tree, ⟨rest', Nat.lt_of_le_of_lt h' h⟩)
    | none => none
  | none => none
termination_by 2 * lexemes.length + 1

/-- Takes in turn the binary operators that bind at least as tightly as asked, each with a right
operand that binds tighter than the operator itself, so that equals associate to the left. -/
def climb? (least : Int) (left : Tree) (lexemes : List Lexeme) :
    Option (Tree × { rest : List Lexeme // rest.length ≤ lexemes.length }) :=
  match lexemes with
  | .operator (.binary op) :: rest =>
    if least ≤ op.level then
      match operand? (op.level + 1) rest with
      | some (right, ⟨rest', h⟩) =>
        match climb? least (.binary op left right) rest' with
        | some (tree, ⟨rest'', h'⟩) =>
          some (tree, ⟨rest'', Nat.le_succ_of_le (Nat.le_trans h' (Nat.le_of_lt h))⟩)
        | none => none
      | none => none
    else some (left, ⟨.operator (.binary op) :: rest, Nat.le_refl _⟩)
  | lexemes => some (left, ⟨lexemes, Nat.le_refl _⟩)
termination_by 2 * lexemes.length

end

/-- The tree of lexemes that make up one expression. -/
def parse? (lexemes : List Lexeme) : Option Tree :=
  match operand? BinaryOperator.or.level lexemes with
  | some (tree, ⟨[], _⟩) => some tree
  | _ => none

/-- No operator of the given level or above comes next. -/
def Stops (least : Int) (rest : List Lexeme) : Prop :=
  ∀ op tail, rest = .operator (.binary op) :: tail → op.level < least

/-- A climb ends only where it has to. -/
theorem stops_of_climb? {least : Int} {left t : Tree} {lexemes rest : List Lexeme}
    {h : rest.length ≤ lexemes.length} (hc : climb? least left lexemes = some (t, ⟨rest, h⟩)) :
    Stops least rest := by
  unfold climb? at hc
  split at hc
  · split at hc
    · split at hc
      · split at hc
        · rename_i hc'
          cases hc
          exact stops_of_climb? hc'
        · cases hc
      · cases hc
    · rename_i hl
      cases hc
      intro op tail he
      cases he
      exact Int.lt_of_not_ge hl
  · rename_i hne
    cases hc
    intro op tail he
    exact absurd he (hne op tail)
termination_by lexemes.length
decreasing_by
  subst_vars
  rw [List.length_cons]
  omega

/-- An operand ends only where its climb does. -/
theorem stops_of_operand? {least : Int} {lexemes rest : List Lexeme} {t : Tree}
    {h : rest.length < lexemes.length} (ho : operand? least lexemes = some (t, ⟨rest, h⟩)) :
    Stops least rest := by
  unfold operand? at ho
  split at ho
  · split at ho
    · rename_i hc
      cases ho
      exact stops_of_climb? hc
    · cases ho
  · cases ho

/-- At the lowest level nothing is left of a tail. -/
theorem tail_eq_nil_of_stops {tail rest : List Lexeme} (ht : IsTail tail)
    (hs : Stops BinaryOperator.or.level (tail ++ rest)) : tail = [] := by
  cases ht with
  | nil => rfl
  | cons op hp ht =>
      have hlt := hs op _ rfl
      rw [BinaryOperator.level_eq, BinaryOperator.level_eq] at hlt
      simp only [BinaryOperator.precedence] at hlt
      omega

/-! ## The rules of reading -/

/-- A primary is read from the head of some lexemes, and this is left. -/
def ReadsPrimary (lexemes : List Lexeme) (t : Tree) (rest : List Lexeme) : Prop :=
  ∃ h, primary? lexemes = some (t, ⟨rest, h⟩)

/-- An operand is read from the head of some lexemes, and this is left. -/
def ReadsOperand (least : Int) (lexemes : List Lexeme) (t : Tree) (rest : List Lexeme) : Prop :=
  ∃ h, operand? least lexemes = some (t, ⟨rest, h⟩)

/-- The climb from a left operand ends in a tree, and this is left. -/
def Climbs (least : Int) (left : Tree) (lexemes : List Lexeme) (t : Tree)
    (rest : List Lexeme) : Prop :=
  ∃ h, climb? least left lexemes = some (t, ⟨rest, h⟩)

/-- A number is a primary of its own. -/
theorem readsPrimary_number (value : Float) (rest : List Lexeme) :
    ReadsPrimary (.number value :: rest) (.number value) rest :=
  ⟨Nat.lt_succ_self _, by rw [primary?]⟩

/-- A text is a primary of its own. -/
theorem readsPrimary_text (content : String) (rest : List Lexeme) :
    ReadsPrimary (.text content :: rest) (.text content) rest :=
  ⟨Nat.lt_succ_self _, by rw [primary?]⟩

/-- A word is a primary of its own. -/
theorem readsPrimary_word (name : String) (rest : List Lexeme) :
    ReadsPrimary (.word name :: rest) (.word name) rest :=
  ⟨Nat.lt_succ_self _, by rw [primary?]⟩

/-- A minus where an operand is due negates what binds more tightly behind it. -/
theorem ReadsOperand.negated {lexemes rest : List Lexeme} {t : Tree}
    (h : ReadsOperand (UnaryOperator.level + 1) lexemes t rest) :
    ReadsPrimary (.operator (.binary .sub) :: lexemes) (.unary .neg t) rest := by
  obtain ⟨hlt, ho⟩ := h
  refine ⟨Nat.lt_succ_of_lt hlt, ?_⟩
  rw [primary?, ho]

/-- A unary operator applies to what binds more tightly behind it. -/
theorem ReadsOperand.unary {lexemes rest : List Lexeme} {t : Tree} (op : UnaryOperator)
    (h : ReadsOperand (UnaryOperator.level + 1) lexemes t rest) :
    ReadsPrimary (.operator (.unary op) :: lexemes) (.unary op t) rest := by
  obtain ⟨hlt, ho⟩ := h
  refine ⟨Nat.lt_succ_of_lt hlt, ?_⟩
  rw [primary?, ho]

/-- Parentheses make a primary of any expression. -/
theorem ReadsOperand.parenthesized {lexemes rest : List Lexeme} {t : Tree}
    (h : ReadsOperand BinaryOperator.or.level lexemes t (.closing :: rest)) :
    ReadsPrimary (.opening :: lexemes) t rest := by
  obtain ⟨hlt, ho⟩ := h
  refine ⟨Nat.lt_succ_of_lt (Nat.lt_of_succ_lt hlt), ?_⟩
  rw [primary?, ho]

/-- An operand is a primary and the climb behind it. -/
theorem ReadsPrimary.operand {least : Int} {lexemes middle rest : List Lexeme} {left t : Tree}
    (hp : ReadsPrimary lexemes left middle) (hc : Climbs least left middle t rest) :
    ReadsOperand least lexemes t rest := by
  obtain ⟨hlt, hp⟩ := hp
  obtain ⟨hle, hc⟩ := hc
  refine ⟨Nat.lt_of_le_of_lt hle hlt, ?_⟩
  rw [operand?, hp]
  simp only [hc]

/-- A climb takes an operator that is strong enough, its right operand, and goes on. -/
theorem ReadsOperand.climbs {least : Int} {op : BinaryOperator} {lexemes middle rest : List Lexeme}
    {left right t : Tree} (hl : least ≤ op.level)
    (ho : ReadsOperand (op.level + 1) lexemes right middle)
    (hc : Climbs least (.binary op left right) middle t rest) :
    Climbs least left (.operator (.binary op) :: lexemes) t rest := by
  obtain ⟨hlt, ho⟩ := ho
  obtain ⟨hle, hc⟩ := hc
  refine ⟨Nat.le_succ_of_le (Nat.le_trans hle (Nat.le_of_lt hlt)), ?_⟩
  rw [climb?, if_pos hl, ho]
  simp only [hc]

/-- A climb that stops leaves the tree as it is. -/
theorem Stops.climbs {least : Int} {lexemes : List Lexeme} (hs : Stops least lexemes)
    (left : Tree) : Climbs least left lexemes left lexemes := by
  refine ⟨Nat.le_refl _, ?_⟩
  unfold climb?
  split
  · rename_i op rest
    rw [if_neg (Int.not_le.mpr (hs op rest rfl))]
  · rfl

/-! ## The grammar is read to its end -/

/-- What follows an expression: no binary operator. -/
def Ends (rest : List Lexeme) : Prop :=
  ∀ op tail, rest ≠ .operator (.binary op) :: tail

/-- A climb of any level stops where the expression ends. -/
theorem Ends.stops {rest : List Lexeme} (h : Ends rest) (least : Int) : Stops least rest := by
  intro op tail he
  exact absurd he (h op tail)

/-- Operands of up to a given length are read, and a tail is left. -/
def ReadsUpTo (n : Nat) : Prop :=
  ∀ (least : Int) (primary tail rest : List Lexeme), IsPrimary primary → IsTail tail → Ends rest →
    primary.length + tail.length ≤ n →
    ∃ t tail', ReadsOperand least (primary ++ (tail ++ rest)) t (tail' ++ rest) ∧
      IsTail tail' ∧ tail'.length ≤ tail.length

/-- Where operands are read, whole expressions are. -/
theorem ReadsUpTo.expression {n : Nat} (ih : ReadsUpTo n) {lexemes rest : List Lexeme}
    (he : IsExpression lexemes) (hrest : Ends rest) (hn : lexemes.length ≤ n) :
    ∃ t, ReadsOperand BinaryOperator.or.level (lexemes ++ rest) t rest := by
  obtain ⟨hp, ht⟩ := he
  rw [List.length_append] at hn
  obtain ⟨t, tail', ⟨h, ho⟩, ht', -⟩ := ih BinaryOperator.or.level _ _ _ hp ht hrest hn
  obtain rfl := tail_eq_nil_of_stops ht' (stops_of_operand? ho)
  rw [List.append_assoc]
  exact ⟨t, h, ho⟩

/-- A primary is read if the shorter operands are. -/
theorem ReadsUpTo.primary {n : Nat} (ih : ReadsUpTo n) {primary tail rest : List Lexeme}
    (hp : IsPrimary primary) (ht : IsTail tail) (hrest : Ends rest)
    (hn : primary.length + tail.length ≤ n + 1) :
    ∃ t tail', ReadsPrimary (primary ++ (tail ++ rest)) t (tail' ++ rest) ∧
      IsTail tail' ∧ tail'.length ≤ tail.length := by
  cases hp with
  | atom ha =>
      cases ha with
      | number value => exact ⟨_, tail, readsPrimary_number value _, ht, Nat.le_refl _⟩
      | text content => exact ⟨_, tail, readsPrimary_text content _, ht, Nat.le_refl _⟩
      | word name => exact ⟨_, tail, readsPrimary_word name _, ht, Nat.le_refl _⟩
      | parenthesized he =>
          have hclosing : Ends (.closing :: (tail ++ rest)) := by
            intro op tail' h
            cases h
          simp only [List.length_cons, List.length_append, List.length_nil] at hn
          obtain ⟨t, hr⟩ := ih.expression he hclosing (by omega)
          refine ⟨t, tail, ?_, ht, Nat.le_refl _⟩
          rw [List.cons_append, List.append_assoc, List.singleton_append]
          exact hr.parenthesized
  | minus hp =>
      rw [List.length_cons] at hn
      obtain ⟨t, tail', hr, ht', hlen⟩ := ih _ _ _ _ hp ht hrest (by omega)
      exact ⟨.unary .neg t, tail', hr.negated, ht', hlen⟩
  | not hp =>
      rw [List.length_cons] at hn
      obtain ⟨t, tail', hr, ht', hlen⟩ := ih _ _ _ _ hp ht hrest (by omega)
      exact ⟨.unary .not t, tail', hr.unary .not, ht', hlen⟩

/-- A climb along a tail succeeds if the shorter operands are read. -/
theorem ReadsUpTo.climbs {n : Nat} (ih : ReadsUpTo n) {tail rest : List Lexeme} (least : Int)
    (left : Tree) (ht : IsTail tail) (hrest : Ends rest) (hn : tail.length ≤ n + 1) :
    ∃ t tail', Climbs least left (tail ++ rest) t (tail' ++ rest) ∧
      IsTail tail' ∧ tail'.length ≤ tail.length := by
  cases ht with
  | nil => exact ⟨left, [], (hrest.stops least).climbs left, .nil, Nat.le_refl _⟩
  | cons op hp ht =>
      simp only [List.length_cons, List.length_append] at hn
      by_cases hl : least ≤ op.level
      · obtain ⟨right, tail₁, hr, ht₁, hlen₁⟩ := ih (op.level + 1) _ _ _ hp ht hrest (by omega)
        obtain ⟨t, tail₂, hc, ht₂, hlen₂⟩ :=
          ih.climbs least (.binary op left right) ht₁ hrest (by omega)
        refine ⟨t, tail₂, ?_, ht₂, ?_⟩
        · rw [List.cons_append, List.append_assoc]
          exact hr.climbs hl hc
        · simp only [List.length_cons, List.length_append]
          omega
      · refine ⟨left, _, Stops.climbs ?_ left, .cons op hp ht, Nat.le_refl _⟩
        intro new tail' h
        cases h
        exact Int.lt_of_not_ge hl
termination_by tail.length
decreasing_by
  subst_vars
  simp only [List.length_cons, List.length_append]
  omega

/-- Every operand that the grammar allows is read. -/
theorem readsUpTo (n : Nat) : ReadsUpTo n := by
  induction n with
  | zero =>
      intro least primary tail rest hp ht hrest hn
      have hpos := hp.length_pos
      omega
  | succ n ih =>
      intro least primary tail rest hp ht hrest hn
      have hpos := hp.length_pos
      obtain ⟨left, tail₁, hr, ht₁, hlen₁⟩ := ih.primary hp ht hrest hn
      obtain ⟨t, tail₂, hc, ht₂, hlen₂⟩ := ih.climbs least left ht₁ hrest (by omega)
      exact ⟨t, tail₂, hr.operand hc, ht₂, Nat.le_trans hlen₂ hlen₁⟩

/-- Every expression of the grammar has a tree. -/
theorem exists_parse?_of_isExpression {lexemes : List Lexeme} (h : IsExpression lexemes) :
    ∃ t, parse? lexemes = some t := by
  have hnil : Ends [] := by
    intro op tail h
    cases h
  obtain ⟨t, hr⟩ := (readsUpTo lexemes.length).expression h hnil (Nat.le_refl _)
  rw [List.append_nil] at hr
  obtain ⟨hlt, ho⟩ := hr
  refine ⟨t, ?_⟩
  rw [parse?, ho]

-- The operand of a prefix takes the powers behind it, also inside the right operand of a power.
example : parse? [.operator (.binary .sub), .word "a", .operator (.binary .pow),
    .operator (.binary .sub), .word "b", .operator (.binary .pow), .word "c"] =
      some (.unary .neg (.binary .pow (.word "a")
        (.unary .neg (.binary .pow (.word "b") (.word "c"))))) := by
  decide +kernel

end Tree

end Sting
