import Mathlib.Data.List.ReduceOption
import Mathlib.Data.Set.Card
import Sting.Proofs.Expression.Conservation

/-!
# Parentheses and the conversion

Which closing parenthesis belongs to an opening one is said here without a stack: the one behind
balanced lexemes. What a minus means is said without a state: it depends on the lexeme before it.
Measured by these two, the conversion to stack code keeps all operands and operators of any lexemes,
and marks exactly the opening parentheses without a partner.
-/

namespace Sting

namespace Lexeme

/-- Opens or closes. -/
def isParenthesis : Lexeme → Bool
  | .opening | .closing => true
  | .number _ | .text _ | .word _ | .operator _ => false

/-- Every parenthesis has its partner among the lexemes. -/
inductive Balanced : List Lexeme → Prop
  | nil : Balanced []
  | cons {lexeme : Lexeme} {rest : List Lexeme} (h : lexeme.isParenthesis = false)
      (hrest : Balanced rest) : Balanced (lexeme :: rest)
  | enclosed {inner rest : List Lexeme} (hinner : Balanced inner) (hrest : Balanced rest) :
      Balanced (.opening :: (inner ++ .closing :: rest))

/-- The closing parenthesis at `j` belongs to the opening one at `i`: what stands between them is
balanced. -/
structure Partners (lexemes : List Lexeme) (i j : Nat) : Prop where
  opening : lexemes[i]? = some .opening
  closing : lexemes[j]? = some .closing
  lt : i < j
  balanced : Balanced ((lexemes.take j).drop (i + 1))

/-- No closing parenthesis belongs to the opening one at `i`. -/
def IsUnmatched (lexemes : List Lexeme) (i : Nat) : Prop :=
  lexemes[i]? = some .opening ∧ ∀ j, ¬ Partners lexemes i j

/-- Balanced lexemes and then a closing parenthesis, which so belongs to one before them. -/
def Closes (lexemes : List Lexeme) : Prop :=
  ∃ inner after, Balanced inner ∧ lexemes = inner ++ .closing :: after

/-! ## Counting with a depth -/

variable {lexeme : Lexeme} {lexemes inner rest : List Lexeme}

/-- Other lexemes than parentheses do not count. -/
theorem unmatched_cons (h : lexeme.isParenthesis = false) (depth : Nat) (rest : List Lexeme) :
    unmatched depth (lexeme :: rest) = unmatched depth rest := by
  cases lexeme with
  | opening => cases h
  | closing => cases h
  | number value => rfl
  | text content => rfl
  | word name => rfl
  | operator op => rfl

/-- Balanced lexemes can be left out of the count, whatever is open before them. -/
theorem Balanced.unmatched_append (h : Balanced inner) (depth : Nat) (rest : List Lexeme) :
    unmatched depth (inner ++ rest) = unmatched depth rest := by
  induction h generalizing depth rest with
  | nil => rfl
  | cons h _ ih => rw [List.cons_append, unmatched_cons h, ih]
  | enclosed _ _ ihinner ihrest =>
      rw [List.cons_append, List.append_assoc, List.cons_append, unmatched, ihinner, unmatched,
        Nat.add_sub_cancel, ihrest]

/-- One more that was open before stays open, unless a closing parenthesis belongs to it. -/
theorem unmatched_succ (h : ¬ Closes rest) (depth : Nat) :
    unmatched (depth + 1) rest = unmatched depth rest + 1 := by
  induction hn : rest.length using Nat.strong_induction_on generalizing rest depth with
  | _ n ih =>
    subst hn
    match rest with
    | [] => rfl
    | .closing :: after => exact absurd ⟨[], after, .nil, rfl⟩ h
    | .opening :: after =>
        by_cases hafter : Closes after
        · -- The new parenthesis has its partner, and what follows that one closes no other.
          obtain ⟨inner, after, hinner, rfl⟩ := hafter
          have hrest : ¬ Closes after := by
            rintro ⟨inner', after', hinner', rfl⟩
            refine h ⟨.opening :: (inner ++ .closing :: inner'), after',
              .enclosed hinner hinner', ?_⟩
            simp
          have hlength : after.length < (.opening :: (inner ++ .closing :: after)).length := by
            simp only [List.length_cons, List.length_append]
            omega
          simp only [unmatched, hinner.unmatched_append, Nat.add_sub_cancel]
          exact ih _ hlength hrest depth rfl
        · simp only [unmatched]
          exact ih _ (Nat.lt_succ_self _) hafter (depth + 1) rfl
    | .number _ :: after | .text _ :: after | .word _ :: after | .operator _ :: after =>
        have hrest : ¬ Closes after := by
          rintro ⟨inner, after', hinner, rfl⟩
          exact h ⟨_ :: inner, after', .cons rfl hinner, rfl⟩
        exact ih _ (Nat.lt_succ_self _) hrest depth rfl

/-- A parenthesis with a partner does not count. -/
theorem Closes.unmatched_opening (h : Closes rest) :
    unmatched 0 (.opening :: rest) = unmatched 0 rest := by
  obtain ⟨inner, after, hinner, rfl⟩ := h
  rw [unmatched, hinner.unmatched_append, hinner.unmatched_append]
  rfl

/-- Two parentheses add one of each kind. -/
theorem count_enclosed {lexeme : Lexeme} (h : lexeme = .opening ∨ lexeme = .closing)
    (inner rest : List Lexeme) :
    (.opening :: (inner ++ .closing :: rest)).count lexeme =
      inner.count lexeme + rest.count lexeme + 1 := by
  have hne : Lexeme.closing ≠ .opening := nofun
  rcases h with rfl | rfl
  · rw [List.count_cons_self, List.count_append, List.count_cons_of_ne hne]
  · rw [List.count_cons_of_ne hne.symm, List.count_append, List.count_cons_self, Nat.add_assoc]

/-- Balanced lexemes close as many parentheses as they open. -/
theorem Balanced.count_eq (h : Balanced inner) : inner.count .closing = inner.count .opening := by
  induction h with
  | nil => rfl
  | @cons lexeme rest h _ ih =>
      have hopening : lexeme ≠ .opening := by rintro rfl; cases h
      have hclosing : lexeme ≠ .closing := by rintro rfl; cases h
      rw [List.count_cons_of_ne hopening, List.count_cons_of_ne hclosing, ih]
  | enclosed _ _ ihinner ihrest =>
      rw [count_enclosed (.inr rfl), count_enclosed (.inl rfl), ihinner, ihrest]

/-- Where nothing closes too early and nothing stays open, the lexemes are balanced. -/
theorem balanced_of_unmatched
    (hearly : ∀ k, (lexemes.take k).count .closing ≤ (lexemes.take k).count .opening)
    (hopen : unmatched 0 lexemes = 0) : Balanced lexemes := by
  induction hn : lexemes.length using Nat.strong_induction_on generalizing lexemes with
  | _ n ih =>
    subst hn
    match lexemes with
    | [] => exact .nil
    | .closing :: rest => exact absurd (hearly 1) (by simp)
    | .opening :: rest =>
        by_cases hcloses : Closes rest
        · obtain ⟨inner, after, hinner, rfl⟩ := hcloses
          refine .enclosed hinner (ih _ ?_ ?_ ?_ rfl)
          · simp only [List.length_cons, List.length_append]
            omega
          · intro k
            have htake :
                (.opening :: (inner ++ .closing :: after)).take (inner.length + (k + 1) + 1) =
                  .opening :: (inner ++ .closing :: after.take k) := by
              rw [List.take_succ_cons, List.take_length_add_append, List.take_succ_cons]
            have hlater := hearly (inner.length + (k + 1) + 1)
            rw [htake, count_enclosed (.inl rfl), count_enclosed (.inr rfl),
              hinner.count_eq] at hlater
            omega
          · rwa [unmatched, hinner.unmatched_append] at hopen
        · rw [unmatched, unmatched_succ hcloses] at hopen
          cases hopen
    | .number _ :: rest | .text _ :: rest | .word _ :: rest | .operator _ :: rest =>
        refine .cons rfl (ih _ (Nat.lt_succ_self _) ?_ hopen rfl)
        intro k
        simpa [List.count_cons] using hearly (k + 1)

/-! ## Counting places -/

/-- The first parenthesis has a partner exactly if the lexemes behind it close it. -/
theorem exists_partners_iff : (∃ j, Partners (.opening :: rest) 0 j) ↔ Closes rest := by
  constructor
  · rintro ⟨j, hpartners⟩
    obtain ⟨k, rfl⟩ := Nat.exists_eq_add_one.mpr hpartners.lt
    have hclosing : rest[k]? = some .closing := hpartners.closing
    obtain ⟨hk, hget⟩ := List.getElem?_eq_some_iff.mp hclosing
    refine ⟨rest.take k, rest.drop (k + 1), hpartners.balanced, ?_⟩
    rw [← hget, List.getElem_cons_drop, List.take_append_drop]
  · rintro ⟨inner, after, hinner, rfl⟩
    refine ⟨inner.length + 1, rfl, ?_, Nat.succ_pos _, ?_⟩
    · simp
    · simpa using hinner

/-- Partners behind the first lexeme do not depend on it. -/
theorem partners_succ {i j : Nat} :
    Partners (lexeme :: rest) (i + 1) (j + 1) ↔ Partners rest i j := by
  constructor
  · intro h
    exact ⟨h.opening, h.closing, Nat.lt_of_succ_lt_succ h.lt, h.balanced⟩
  · intro h
    exact ⟨h.opening, h.closing, Nat.succ_lt_succ h.lt, h.balanced⟩

/-- Being unmatched behind the first lexeme does not depend on it. -/
theorem isUnmatched_succ {i : Nat} :
    IsUnmatched (lexeme :: rest) (i + 1) ↔ IsUnmatched rest i := by
  refine and_congr Iff.rfl ?_
  constructor
  · intro h j hpartners
    exact h (j + 1) (partners_succ.mpr hpartners)
  · intro h j hpartners
    obtain ⟨k, rfl⟩ := Nat.exists_eq_add_one.mpr (Nat.zero_lt_of_lt hpartners.lt)
    exact h k (partners_succ.mp hpartners)

/-- The first lexeme is unmatched exactly if it is a parenthesis that nothing closes. -/
theorem isUnmatched_zero :
    IsUnmatched (lexeme :: rest) 0 ↔ lexeme = .opening ∧ ¬ Closes rest := by
  have hhead : (lexeme :: rest)[0]? = some .opening ↔ lexeme = .opening := by simp
  rw [IsUnmatched, hhead]
  refine and_congr_right ?_
  rintro rfl
  rw [← exists_partners_iff, not_exists]

/-- There are finitely many places. -/
theorem finite_isUnmatched (lexemes : List Lexeme) : {i | IsUnmatched lexemes i}.Finite := by
  refine (Set.finite_lt_nat lexemes.length).subset ?_
  rintro i ⟨hi, -⟩
  exact (List.getElem?_eq_some_iff.mp hi).1

/-- Places are the first one, if it is among them, and those behind it. -/
theorem ncard_places (places : Set Nat) [Decidable (0 ∈ places)]
    (h : {i | i + 1 ∈ places}.Finite) :
    places.ncard = {i | i + 1 ∈ places}.ncard + if 0 ∈ places then 1 else 0 := by
  have himage : (Nat.succ '' {i | i + 1 ∈ places}).ncard = {i | i + 1 ∈ places}.ncard :=
    Set.ncard_image_of_injective _ Nat.succ_injective
  by_cases hzero : 0 ∈ places
  · have hset : places = insert 0 (Nat.succ '' {i | i + 1 ∈ places}) := by
      ext i
      cases i <;> simp [hzero]
    have hnot : 0 ∉ Nat.succ '' {i | i + 1 ∈ places} := by simp
    rw [if_pos hzero, ← himage, ← Set.ncard_insert_of_notMem hnot (h.image _), ← hset]
  · have hset : places = Nat.succ '' {i | i + 1 ∈ places} := by
      ext i
      cases i <;> simp [hzero]
    rw [if_neg hzero, Nat.add_zero, ← himage, ← hset]

/-- The unmatched places are those behind the first lexeme, moved by one, and perhaps the first. -/
theorem ncard_isUnmatched_cons (lexeme : Lexeme) (rest : List Lexeme)
    [Decidable (IsUnmatched (lexeme :: rest) 0)] :
    {i | IsUnmatched (lexeme :: rest) i}.ncard =
      {i | IsUnmatched rest i}.ncard + if IsUnmatched (lexeme :: rest) 0 then 1 else 0 := by
  have hlater : {i | i + 1 ∈ {i | IsUnmatched (lexeme :: rest) i}} = {i | IsUnmatched rest i} := by
    ext i
    exact isUnmatched_succ
  have hplaces := ncard_places {i | IsUnmatched (lexeme :: rest) i}
    (hlater ▸ finite_isUnmatched rest)
  rw [hlater] at hplaces
  exact hplaces

/-- The count with a depth is that of the opening parentheses without a partner. -/
theorem unmatched_eq_ncard (lexemes : List Lexeme) :
    unmatched 0 lexemes = {i | IsUnmatched lexemes i}.ncard := by
  classical
  induction lexemes with
  | nil => simp [unmatched, IsUnmatched]
  | cons lexeme rest ih =>
      have hother (h : lexeme ≠ .opening) (hunmatched :
          unmatched 0 (lexeme :: rest) = unmatched 0 rest) :
          unmatched 0 (lexeme :: rest) = {i | IsUnmatched (lexeme :: rest) i}.ncard := by
        rw [hunmatched, ih, ncard_isUnmatched_cons, if_neg fun h' => h (isUnmatched_zero.mp h').1,
          Nat.add_zero]
      cases lexeme with
      | opening =>
          by_cases hcloses : Closes rest
          · rw [hcloses.unmatched_opening, ih, ncard_isUnmatched_cons,
              if_neg fun h => (isUnmatched_zero.mp h).2 hcloses, Nat.add_zero]
          · rw [unmatched, unmatched_succ hcloses, ih, ncard_isUnmatched_cons,
              if_pos (isUnmatched_zero.mpr ⟨rfl, hcloses⟩)]
      | closing => exact hother (by simp) rfl
      | number value => exact hother (by simp) rfl
      | text content => exact hother (by simp) rfl
      | word name => exact hother (by simp) rfl
      | operator op => exact hother (by simp) rfl

/-! ## What a minus means -/

/-- Whether an operand is due behind a lexeme, none at the beginning: so it is at the beginning, and
directly behind an operator or an opening parenthesis. -/
def isDueAfter : Option Lexeme → Bool
  | none | some (.operator _) | some .opening => true
  | some (.number _) | some (.text _) | some (.word _) | some .closing => false

/-- The operator that a lexeme means behind another one: a minus where an operand is due is a
negation, and every other operator means itself. -/
def meant? (before : Option Lexeme) : Lexeme → Option Operator
  | .operator (.binary .sub) =>
    some (if isDueAfter before then .unary .neg else .binary .sub)
  | .operator op => some op
  | .number _ | .text _ | .word _ | .opening | .closing => none

/-- The operators that the lexemes mean, in their order. -/
def meantOperators (lexemes : List Lexeme) : List Operator :=
  (List.zipWith meant? (none :: lexemes.map some) lexemes).reduceOption

/-- An operator is meant by what stands before it. -/
theorem meant?_operator (before : Option Lexeme) (op : Operator) :
    meant? before (.operator op) = some (Instruction.placed (isDueAfter before) op) := by
  cases op with
  | unary op => rfl
  | binary op => cases op <;> rfl

/-- The operators of a list of lexemes are meant each by the lexeme before it. -/
theorem operators_eq_meant (before : Option Lexeme) (lexemes : List Lexeme) :
    operators (isDueAfter before) lexemes =
      (List.zipWith meant? (before :: lexemes.map some) lexemes).reduceOption := by
  induction lexemes generalizing before with
  | nil => rfl
  | cons lexeme rest ih =>
      have hrest := ih (some lexeme)
      rw [List.map_cons, List.zipWith_cons_cons]
      cases lexeme with
      | operator op =>
          rw [operators, meant?_operator, List.reduceOption_cons_of_some]
          exact congrArg (_ :: ·) hrest
      | number value => exact hrest
      | text content => exact hrest
      | word name => exact hrest
      | opening => exact hrest
      | closing => exact hrest

end Lexeme

namespace Instruction

/-- The conversion of any lexemes keeps the operands in their order and all that their operators
mean, and it marks each opening parenthesis without a partner once. -/
theorem ofLexemes_conserves (lexemes : List Lexeme) :
    (ofLexemes lexemes).filter isOperand = lexemes.filterMap Lexeme.operand? ∧
      ((ofLexemes lexemes).filterMap operator?).Perm (Lexeme.meantOperators lexemes) ∧
      (ofLexemes lexemes).count .unclosed = {i | Lexeme.IsUnmatched lexemes i}.ncard := by
  refine ⟨filter_isOperand_convert true [] lexemes, ?_, ?_⟩
  · have hoperators := operators_convert true [] lexemes
    rw [List.filterMap_nil, List.nil_append] at hoperators
    rwa [Lexeme.meantOperators, ← Lexeme.operators_eq_meant]
  · rw [ofLexemes, count_unclosed_convert, ← Lexeme.unmatched_eq_ncard]
    rfl

end Instruction

end Sting
