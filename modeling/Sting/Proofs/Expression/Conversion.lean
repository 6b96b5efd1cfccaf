import Sting.Proofs.Expression.Climbing

/-!
# Conversion to stack code

Stack code is made with a list of pending operators instead of a tree. The list is not ordered by
precedence, because a unary operator is put on top of tighter ones without releasing them. What
holds instead is said of each tree that is being read: its code is partly put out and partly
waiting, and whatever comes next releases all that waits. So the code of well-formed lexemes is the
postorder of the tree that precedence climbing builds, and its value is that of the tree.
-/

namespace Sting

namespace Tree

open Lexeme Instruction

/-- The part of a conversion that belongs to a tree: what is put out already, and the operators that
wait, latest first. Before a binary operator all of them have their turn. -/
structure Reached (t : Tree) (out : List Instruction) (waiting : List Operator)
    (rest : List Lexeme) : Prop where
  postorder_eq : t.postorder = out ++ waiting.map Instruction.apply
  released : ∀ op tail, rest = .operator (.binary op) :: tail →
    ∀ top ∈ waiting, op.precedence ≤ top.precedence

/-- No operator of the given level or above releases the latest of the pending entries. -/
def Guards (least : Int) (pending : List Pending) : Prop :=
  ∀ op : BinaryOperator, least ≤ op.level →
    ∀ entry ∈ pending.head?, isReleasedBy (.binary op) entry = false

/-- A tree that is put out as a whole keeps nothing waiting. -/
theorem reached_postorder (t : Tree) (rest : List Lexeme) : Reached t t.postorder [] rest := by
  refine ⟨by simp, ?_⟩
  intro op tail _ top htop
  cases htop

/-- An operator waits below those of its last operand, and is released with them. -/
theorem Reached.wait {t t' : Tree} {out front : List Instruction} {waiting : List Operator}
    {rest : List Lexeme} {top : Operator} {least : Int} (h : Reached t out waiting rest)
    (ht : t'.postorder = front ++ t.postorder ++ [.apply top]) (hs : Stops least rest)
    (hl : least ≤ top.precedence) : Reached t' (front ++ out) (waiting ++ [top]) rest := by
  refine ⟨by simp [ht, h.postorder_eq], ?_⟩
  intro op tail he other hother
  rcases List.mem_append.mp hother with hw | hw
  · exact h.released op tail he other hw
  · obtain rfl := List.mem_singleton.mp hw
    have hlt := hs op tail he
    rw [BinaryOperator.level_eq] at hlt
    omega

/-- An opening parenthesis guards what waits below it. -/
theorem guards_opening (least : Int) (pending : List Pending) :
    Guards least (.opening :: pending) := by
  intro op _ entry he
  obtain rfl := Option.some.inj he
  rfl

/-- An operator guards every level above its own. -/
theorem guards_operator {top : Operator} {least : Int} (h : (top.precedence : Int) ≤ least)
    (pending : List Pending) : Guards least (.operator top :: pending) := by
  intro op hop entry he
  obtain rfl := Option.some.inj he
  rw [BinaryOperator.level_eq] at hop
  have hlt : ¬ (Operator.binary op).precedence ≤ top.precedence := by
    simp only [Operator.precedence] at *
    omega
  exact decide_eq_false hlt

/-- Where nothing waits nothing is released. -/
theorem guards_nil (least : Int) : Guards least [] := by
  intro op _ entry he
  cases he

private theorem map_instruction_operator (ops : List Operator) :
    (ops.map Pending.operator).map Pending.instruction = ops.map Instruction.apply := by
  rw [List.map_map]
  rfl

/-- An operator that stands before its operand is put off and releases nothing. -/
theorem convert_unary {due : Bool} {lexeme : Operator} {op : UnaryOperator}
    (h : placed due lexeme = .unary op) (pending : List Pending) (rest : List Lexeme) :
    convert due pending (.operator lexeme :: rest) =
      convert true (.operator (.unary op) :: pending) rest := by
  have hkept : ∀ entry ∈ pending.head?, isReleasedBy (.unary op) entry = false :=
    fun _ _ => rfl
  obtain ⟨htake, hdrop⟩ := Text.span_run (List.forall_mem_nil _) hkept
  rw [List.nil_append] at htake hdrop
  rw [convert, h, htake, hdrop]
  rfl

/-- A closing parenthesis releases what waits since its opening one, and takes that away. -/
theorem convert_closing (due : Bool) (waiting : List Operator) (pending : List Pending)
    (rest : List Lexeme) :
    convert due (waiting.map .operator ++ .opening :: pending) (.closing :: rest) =
      waiting.map .apply ++ convert false pending rest := by
  have hreleased : ∀ entry ∈ waiting.map Pending.operator, entry.isOperator = true := by
    intro entry he
    obtain ⟨op, -, rfl⟩ := List.mem_map.mp he
    rfl
  have hkept : ∀ entry ∈ (Pending.opening :: pending).head?, entry.isOperator = false := by
    intro entry he
    obtain rfl := Option.some.inj he
    rfl
  obtain ⟨htake, hdrop⟩ := Text.span_run hreleased hkept
  rw [convert, htake, hdrop, map_instruction_operator, List.tail_cons]

/-- A binary operator releases what waits for it, and nothing below that guards its level. -/
theorem convert_binary {t : Tree} {out : List Instruction} {waiting : List Operator}
    {op : BinaryOperator} {rest : List Lexeme} {least : Int} {pending : List Pending}
    (hr : Reached t out waiting (.operator (.binary op) :: rest)) (hg : Guards least pending)
    (hl : least ≤ op.level) :
    convert false (waiting.map .operator ++ pending) (.operator (.binary op) :: rest) =
      waiting.map .apply ++ convert true (.operator (.binary op) :: pending) rest := by
  have hreleased : ∀ entry ∈ waiting.map Pending.operator,
      isReleasedBy (.binary op) entry = true := by
    intro entry he
    obtain ⟨top, ht, rfl⟩ := List.mem_map.mp he
    exact decide_eq_true (hr.released op rest rfl top ht)
  have hplaced : placed false (.binary op) = .binary op := by
    cases op <;> rfl
  obtain ⟨htake, hdrop⟩ := Text.span_run hreleased (hg op hl)
  rw [convert, hplaced, htake, hdrop, map_instruction_operator]

mutual

/-- The conversion follows the reading of a primary, whatever is pending. -/
theorem convert_of_primary? {lexemes rest : List Lexeme} {t : Tree}
    {h : rest.length < lexemes.length} (hp : primary? lexemes = some (t, ⟨rest, h⟩)) :
    ∃ out waiting, Reached t out waiting rest ∧ ∀ pending,
      convert true pending lexemes =
        out ++ convert false (waiting.map .operator ++ pending) rest := by
  unfold primary? at hp
  split at hp
  · cases hp
    exact ⟨_, [], reached_postorder _ _, fun _ => rfl⟩
  · cases hp
    exact ⟨_, [], reached_postorder _ _, fun _ => rfl⟩
  · cases hp
    exact ⟨_, [], reached_postorder _ _, fun _ => rfl⟩
  · split at hp
    · rename_i ho
      cases hp
      exact convert_of_prefixed .neg rfl ho
    · cases hp
  · rename_i op _
    split at hp
    · rename_i ho
      cases hp
      exact convert_of_prefixed op rfl ho
    · cases hp
  · split at hp
    · rename_i ho
      cases hp
      obtain ⟨out, waiting, hr, hconv⟩ := convert_of_operand? ho
      refine ⟨_, [], reached_postorder _ _, ?_⟩
      intro pending
      rw [convert, hconv _ (guards_opening _ pending), convert_closing, hr.postorder_eq,
        List.append_assoc]
      rfl
    · cases hp
  · cases hp
termination_by 3 * lexemes.length

/-- Behind a prefix operator the conversion follows the reading of the operand. -/
theorem convert_of_prefixed {lexeme : Operator} (op : UnaryOperator) {lexemes rest : List Lexeme}
    {t : Tree} {h : rest.length < lexemes.length} (hop : placed true lexeme = .unary op)
    (ho : operand? (UnaryOperator.level + 1) lexemes = some (t, ⟨rest, h⟩)) :
    ∃ out waiting, Reached (.unary op t) out waiting rest ∧ ∀ pending,
      convert true pending (.operator lexeme :: lexemes) =
        out ++ convert false (waiting.map .operator ++ pending) rest := by
  obtain ⟨out, waiting, hr, hconv⟩ := convert_of_operand? ho
  have hwait : Reached (.unary op t) ([] ++ out) (waiting ++ [.unary op]) rest :=
    hr.wait rfl (stops_of_operand? ho) (Int.le_refl 5)
  refine ⟨_, _, hwait, ?_⟩
  intro pending
  have hg : Guards (UnaryOperator.level + 1) (.operator (.unary op) :: pending) :=
    guards_operator (Int.le_refl 5) pending
  rw [convert_unary hop, hconv _ hg, List.nil_append, List.map_append, List.append_assoc]
  rfl
termination_by 3 * lexemes.length + 2

/-- The conversion follows the reading of an operand, if the pending entries guard its level. -/
theorem convert_of_operand? {least : Int} {lexemes rest : List Lexeme} {t : Tree}
    {h : rest.length < lexemes.length} (ho : operand? least lexemes = some (t, ⟨rest, h⟩)) :
    ∃ out waiting, Reached t out waiting rest ∧ ∀ pending, Guards least pending →
      convert true pending lexemes =
        out ++ convert false (waiting.map .operator ++ pending) rest := by
  unfold operand? at ho
  split at ho
  · rename_i hp
    split at ho
    · rename_i hc
      cases ho
      obtain ⟨out, waiting, hr, hconv⟩ := convert_of_primary? hp
      obtain ⟨out', waiting', hr', hconv'⟩ := convert_of_climb? hc hr
      refine ⟨out', waiting', hr', ?_⟩
      intro pending hg
      rw [hconv, hconv' pending hg]
    · cases ho
  · cases ho
termination_by 3 * lexemes.length + 1

/-- The conversion follows the climb from a left operand. -/
theorem convert_of_climb? {least : Int} {left t : Tree} {lexemes rest : List Lexeme}
    {h : rest.length ≤ lexemes.length} (hc : climb? least left lexemes = some (t, ⟨rest, h⟩))
    {out : List Instruction} {waiting : List Operator} (hr : Reached left out waiting lexemes) :
    ∃ out' waiting', Reached t out' waiting' rest ∧ ∀ pending, Guards least pending →
      out ++ convert false (waiting.map .operator ++ pending) lexemes =
        out' ++ convert false (waiting'.map .operator ++ pending) rest := by
  unfold climb? at hc
  split at hc
  · rename_i op tail
    split at hc
    · rename_i hl
      split at hc
      · rename_i ho
        split at hc
        · rename_i hc'
          cases hc
          have hlevel : op.level + 1 = ((Operator.binary op).precedence : Int) := by
            rw [BinaryOperator.level_eq, Int.sub_add_cancel]
            rfl
          obtain ⟨outr, waitingr, hrr, hconvr⟩ := convert_of_operand? ho
          obtain ⟨out', waiting', hr', hconv'⟩ :=
            convert_of_climb? hc' (hrr.wait rfl (stops_of_operand? ho) (Int.le_of_eq hlevel))
          refine ⟨out', waiting', hr', ?_⟩
          intro pending hg
          have hgo : Guards (op.level + 1) (.operator (.binary op) :: pending) :=
            guards_operator (Int.le_of_eq hlevel.symm) pending
          rw [← hconv' pending hg, convert_binary hr hg hl, hconvr _ hgo, hr.postorder_eq,
            List.map_append]
          simp only [List.append_assoc, List.map_cons, List.map_nil, List.cons_append,
            List.nil_append]
        · cases hc
      · cases hc
    · cases hc
      exact ⟨out, waiting, hr, fun _ _ => rfl⟩
  · cases hc
    exact ⟨out, waiting, hr, fun _ _ => rfl⟩
termination_by 3 * lexemes.length
decreasing_by
  all_goals
    subst_vars
    rw [List.length_cons]
    omega

end

/-- The code of lexemes that make up one expression is the postorder of its tree. -/
theorem ofLexemes_of_parse? {lexemes : List Lexeme} {t : Tree} (h : parse? lexemes = some t) :
    ofLexemes lexemes = t.postorder := by
  unfold parse? at h
  split at h
  · rename_i ho
    cases h
    obtain ⟨out, waiting, hr, hconv⟩ := convert_of_operand? ho
    rw [ofLexemes, hconv [] (guards_nil _), convert, List.append_nil, map_instruction_operator,
      hr.postorder_eq]
  · cases h

end Tree

namespace Expression

open Lexeme

/-- The code of a source with well-formed lexemes is the postorder of the tree that precedence
climbing builds from them, and the value or error of the expression is that of the tree. -/
theorem compile_follows_climbing {source : String} (h : IsExpression (scan source.toList)) :
    ∃ t, Tree.parse? (scan source.toList) = some t ∧
      Instruction.ofLexemes (scan source.toList) = t.postorder ∧
      ∀ env, (compile source).evaluate env = t.evaluate env := by
  obtain ⟨t, ht⟩ := Tree.exists_parse?_of_isExpression h
  have hcode : (compile source).code = t.postorder := Tree.ofLexemes_of_parse? ht
  exact ⟨t, ht, hcode, Tree.evaluate_of_code_eq hcode⟩

/-- Prefix operators on both sides of a power, behind a looser operator and in parentheses. -/
theorem compile_follows_climbing_mixed :
    IsExpression (scan "-a ^ -b ^ c * (d - !e) || f".toList) ∧
      ∃ t, Tree.parse? (scan "-a ^ -b ^ c * (d - !e) || f".toList) = some t ∧
        Instruction.ofLexemes (scan "-a ^ -b ^ c * (d - !e) || f".toList) = t.postorder ∧
        ∀ env, (compile "-a ^ -b ^ c * (d - !e) || f").evaluate env = t.evaluate env := by
  have hscan : scan "-a ^ -b ^ c * (d - !e) || f".toList =
      [.operator (.binary .sub), .word "a", .operator (.binary .pow), .operator (.binary .sub),
        .word "b", .operator (.binary .pow), .word "c", .operator (.binary .mul), .opening,
        .word "d", .operator (.binary .sub), .operator (.unary .not), .word "e", .closing,
        .operator (.binary .or), .word "f"] := by
    decide +kernel
  have hinner : IsExpression [.word "d", .operator (.binary .sub), .operator (.unary .not),
      .word "e"] :=
    .mk (.atom (.word "d")) (.cons .sub (.not (.atom (.word "e"))) .nil)
  have h : IsExpression (scan "-a ^ -b ^ c * (d - !e) || f".toList) := by
    rw [hscan]
    exact .mk (.minus (.atom (.word "a"))) (.cons .pow (.minus (.atom (.word "b")))
      (.cons .pow (.atom (.word "c")) (.cons .mul (.atom (.parenthesized hinner))
        (.cons .or (.atom (.word "f")) .nil))))
  exact ⟨h, compile_follows_climbing h⟩

end Expression

end Sting
