import Sting.Proofs.Statement.Source

/-!
# Programs that are read

What the statements of a program look like that was read from a source: names and arguments are
tokens, expressions are put together from tokens that end where the reader ends them, and no arm of
a conditional holds another conditional. Every clause that is read looks like this.
-/

namespace Sting

open Token

/-- A text that is one token. -/
def Token.IsToken (text : String) : Prop :=
  ∃ kind, IsSpelling kind text.toList

/-- Every parenthesis that closes among the tokens was opened among them: the one that closes behind
them is found. -/
def Clause.Balanced (tokens : List Token) : Prop :=
  ∀ close rest, close.text = ")" → takeMatching 0 (tokens ++ close :: rest) = (tokens, rest)

namespace Expression

/-- An expression that can stand behind an equals sign. -/
structure Assignable (e : Expression) : Prop where
  composed : Composed e.source
  alike : e.Alike e.tidy
  continues : ∀ t ∈ spelled e.source.toList, Clause.continuesExpression t = true

/-- An expression that can stand in the header of a block. -/
structure Guarding (e : Expression) : Prop where
  composed : Composed e.source
  alike : e.Alike e.tidy
  balanced : Clause.Balanced (spelled e.source.toList)

end Expression

/-- A text that can stand in the parentheses of an input. -/
structure Clause.IsPrompt (text : String) : Prop where
  composed : Composed text
  join_eq : join (spelled text.toList) = text
  ne_closing : ∀ t ∈ spelled text.toList, t.text ≠ ")"

/-- A text that can be an argument of an output. -/
structure Clause.IsArgument (text : String) : Prop where
  token : IsToken text
  ne_closing : text ≠ ")"
  ne_comma : text ≠ ","

namespace Statement

/-- The statement is a conditional. -/
def isConditional : Statement → Bool
  | .conditional _ => true
  | _ => false

mutual

/-- A statement that can be read from a text. -/
def Readable : Statement → Prop
  | .assign name (some _) e => IsToken name ∧ e.Assignable
  | .assign name none e => IsSpelling .identifier name.toList ∧ e.Assignable
  | .input name _ prompt => IsToken name ∧ Clause.IsPrompt prompt
  | .output args => ∀ a ∈ args, Clause.IsArgument a
  | .conditional branches =>
    (∃ c body rest, branches = ⟨some c, body⟩ :: rest) ∧ ReadableArms branches
  | .loop c body => c.Guarding ∧ ReadableBody body
  | .stop => True

/-- A body that can be read. -/
def ReadableBody : List Statement → Prop
  | [] => True
  | s :: rest => s.Readable ∧ ReadableBody rest

/-- Arms that can be read: an arm without a condition is the last one. -/
def ReadableArms : List (Branch Statement) → Prop
  | [] => True
  | ⟨condition, body⟩ :: rest =>
    (∀ c ∈ condition, c.Guarding) ∧ (condition = none → rest = []) ∧ ReadableBody body ∧
      (∀ s ∈ body, s.isConditional = false) ∧ ReadableArms rest

end

/-- A body is readable if every statement of it is. -/
theorem readableBody_iff {body : List Statement} :
    ReadableBody body ↔ ∀ s ∈ body, s.Readable := by
  induction body with
  | nil => exact iff_of_true trivial nofun
  | cons s body ih => rw [ReadableBody, ih, List.forall_mem_cons]

/-- An arm that another one can follow. -/
structure IsArm (arm : Branch Statement) : Prop where
  guarding : ∃ c, arm.condition = some c ∧ c.Guarding
  readable : ∀ s ∈ arm.body, s.Readable
  plain : ∀ s ∈ arm.body, s.isConditional = false

/-- Arms with conditions may stand before readable ones. -/
theorem readableArms_append {earlier later : List (Branch Statement)}
    (h : ∀ arm ∈ earlier, IsArm arm) (hlater : ReadableArms later) :
    ReadableArms (earlier ++ later) := by
  induction earlier with
  | nil => exact hlater
  | cons arm earlier ih =>
      obtain ⟨condition, body⟩ := arm
      obtain ⟨⟨c, hc, hguard⟩, hread, hplain⟩ := h _ List.mem_cons_self
      dsimp only at hc
      subst hc
      rw [List.cons_append, ReadableArms]
      refine ⟨?_, nofun, readableBody_iff.mpr hread, hplain, ?_⟩
      · rintro c' ⟨rfl⟩
        exact hguard
      · exact ih fun arm harm => h arm (List.mem_cons_of_mem _ harm)

end Statement

namespace Token

open Text

/-- A text that begins with a digit is no text that does not. -/
theorem ne_of_isDecimalDigit_head {c : Char} {rest : List Char} {text : String}
    (hc : isDecimalDigit c = true) (htext : text.toList.head?.any isDecimalDigit = false) :
    String.ofList (c :: rest) ≠ text := by
  rintro rfl
  rw [String.toList_ofList, List.head?_cons, Option.any_some, hc] at htext
  cases htext

/-- The name of a variable is neither a keyword nor a bar. -/
theorem not_reserved_of_identifier {text : List Char} (h : IsSpelling .identifier text) :
    ∀ word ∈ "|" :: keywords, String.ofList text ≠ word := by
  have hdigits {c : Char} {rest : List Char} (hc : isDecimalDigit c = true) :
      ∀ word ∈ "|" :: keywords, String.ofList (c :: rest) ≠ word := by
    have hreserved : ∀ word ∈ "|" :: keywords, word.toList.head?.any isDecimalDigit = false := by
      decide
    intro word hword
    exact ne_of_isDecimalDigit_head hc (hreserved word hword)
  generalize hkind : Kind.identifier = kind at h
  cases h with
  | quoted => cases hkind
  | digits hne hd =>
      obtain ⟨c, tail, rfl⟩ := List.exists_cons_of_ne_nil hne
      exact hdigits (hd c List.mem_cons_self)
  | fraction hne hd hne' hd' =>
      obtain ⟨c, tail, rfl⟩ := List.exists_cons_of_ne_nil hne
      exact hdigits (hd c List.mem_cons_self)
  | @word c tail hc hw =>
      intro word hword heq
      rcases List.mem_cons.mp hword with rfl | hmem
      · have htext : c :: tail = ['|'] := String.ofList_injective heq
        cases htext
        exact absurd hc (by decide)
      · rw [wordKind, if_pos (List.contains_iff_mem.mpr (heq ▸ hmem))] at hkind
        cases hkind
  | delimiter => cases hkind
  | plain => cases hkind
  | extended => cases hkind
  | conjunction => cases hkind

/-- The name of a variable is none of the words that have a meaning of their own. -/
theorem contains_eq_false_of_identifier {words : List String} (hwords : words ⊆ "|" :: keywords)
    {text : List Char} (h : IsSpelling .identifier text) :
    words.contains (String.ofList text) = false := by
  rw [Bool.eq_false_iff, ne_eq, List.contains_iff_mem]
  intro hmem
  exact not_reserved_of_identifier h _ (hwords hmem) rfl

/-- The name of a variable goes on with an expression. -/
theorem continuesExpression_of_identifier {t : Token} (h : t.Genuine)
    (hkind : t.kind = .identifier) : Clause.continuesExpression t = true := by
  have hname : IsSpelling .identifier t.text.toList := hkind ▸ h
  have hbar : t.text ≠ "|" := by
    have hreserved := not_reserved_of_identifier hname "|" List.mem_cons_self
    rwa [String.ofList_toList] at hreserved
  have hboundary : Clause.isBoundary t.text = false := by
    rw [← String.ofList_toList (s := t.text)]
    exact contains_eq_false_of_identifier (by decide) hname
  rw [Clause.continuesExpression, bne_iff_ne.mpr hbar, hboundary]
  rfl

end Token

namespace Clause

/-! ## What a clause leaves to be read -/

/-- The token that was needed is the first one. -/
theorem suffix_of_expect {text : String} {tokens rest : List Token}
    (h : expect text tokens = .ok rest) : ∃ t, t.text = text ∧ tokens = t :: rest := by
  cases tokens with
  | nil => cases h
  | cons t tail =>
      rw [expect] at h
      split at h
      · rename_i ht
        cases h
        exact ⟨t, ht, rfl⟩
      · cases h

/-- Skipping a bar leaves a suffix. -/
theorem suffix_skipBar (tokens : List Token) : skipBar tokens <:+ tokens := by
  cases tokens with
  | nil => exact List.suffix_rfl
  | cons t rest =>
      rw [skipBar]
      split
      · exact List.suffix_cons t rest
      · exact List.suffix_rfl

/-- The arguments are the tokens up to the parenthesis, and the rest is a suffix. -/
theorem suffix_of_takeArguments {tokens args rest : List Token}
    (h : takeArguments tokens = .ok (args, rest)) :
    rest <:+ tokens ∧ args = tokens.takeWhile (·.text != ")") := by
  unfold takeArguments at h
  split at h
  · cases h
  · rename_i t tail hdrop
    cases h
    refine ⟨?_, rfl⟩
    have hsuffix := List.dropWhile_suffix (·.text != ")") (l := tokens)
    rw [hdrop] at hsuffix
    exact (List.suffix_cons t rest).trans hsuffix

/-- The source of an expression leaves a suffix. -/
theorem suffix_takeSource (tokens : List Token) : (takeSource tokens).2 <:+ tokens :=
  (suffix_skipBar _).trans (List.dropWhile_suffix continuesExpression)

/-- A closing parenthesis ends what nothing has opened. -/
theorem takeMatching_closing {t : Token} (h : t.text = ")") (rest : List Token) :
    takeMatching 0 (t :: rest) = ([], rest) := by
  have hne : ¬ t.text = "(" := by
    rw [h]
    decide
  rw [takeMatching]
  simp only [if_neg hne, if_pos h]

/-- A token is the parenthesis that is looked for, or it is taken and the search goes on. -/
theorem takeMatching_cons (depth : Nat) (t : Token) :
    (depth = 0 ∧ t.text = ")") ∨
      ∃ depth', ∀ rest, takeMatching depth (t :: rest) =
        (t :: (takeMatching depth' rest).1, (takeMatching depth' rest).2) := by
  by_cases hopen : t.text = "("
  · refine .inr ⟨depth + 1, ?_⟩
    intro rest
    simp only [takeMatching, if_pos hopen]
  · by_cases hclose : t.text = ")"
    · cases depth with
      | zero => exact .inl ⟨rfl, hclose⟩
      | succ depth =>
          refine .inr ⟨depth, ?_⟩
          intro rest
          simp only [takeMatching, if_neg hopen, if_pos hclose]
    · refine .inr ⟨depth, ?_⟩
      intro rest
      simp only [takeMatching, if_neg hopen, if_neg hclose]

/-- When something is left behind the parenthesis that is looked for, the tokens before it are taken
again whatever follows. -/
theorem balanced_of_takeMatching {depth : Nat} {tokens inner rest : List Token} {u : Token}
    (h : takeMatching depth tokens = (inner, u :: rest)) :
    inner ⊆ tokens ∧ u :: rest <:+ tokens ∧ ∀ close after, close.text = ")" →
      takeMatching depth (inner ++ close :: after) = (inner, after) := by
  induction tokens generalizing depth inner with
  | nil => cases h
  | cons t tokens ih =>
      rcases takeMatching_cons depth t with ⟨rfl, hclose⟩ | ⟨depth', hnext⟩
      · rw [takeMatching_closing hclose] at h
        cases h
        refine ⟨List.nil_subset _, List.suffix_cons t _, ?_⟩
        intro close after hclose
        exact takeMatching_closing hclose after
      · rw [hnext] at h
        obtain ⟨rfl, hrest⟩ := Prod.mk.inj h
        obtain ⟨hsub, hsuffix, htaken⟩ := ih (Prod.ext rfl hrest)
        refine ⟨List.cons_subset_cons t hsub, hsuffix.trans (List.suffix_cons t tokens), ?_⟩
        intro close after hclose
        rw [List.cons_append, hnext, htaken close after hclose]

/-- The source of an assigned expression can be assigned again. -/
theorem assignable_join {tokens : List Token} (hgenuine : ∀ t ∈ tokens, t.Genuine)
    (hcontinues : ∀ t ∈ tokens, continuesExpression t = true) :
    (Expression.compile (join tokens)).Assignable := by
  refine ⟨composed_join hgenuine, ?_, ?_⟩
  · rw [Expression.tidy, Expression.source_compile, join_spelled_join hgenuine]
    exact ⟨rfl, rfl⟩
  · rw [Expression.source_compile, spelled_join_toList hgenuine, List.forall_mem_map]
    exact hcontinues

/-- Tokens without a closing parenthesis are joined to a prompt. -/
theorem isPrompt_join {tokens : List Token} (hgenuine : ∀ t ∈ tokens, t.Genuine)
    (hne : ∀ t ∈ tokens, t.text ≠ ")") : IsPrompt (join tokens) := by
  refine ⟨composed_join hgenuine, join_spelled_join hgenuine, ?_⟩
  rw [spelled_join_toList hgenuine, List.forall_mem_map]
  exact hne

/-- A condition that was read can stand in a header. -/
theorem guarding_of_takeCondition {tokens rest : List Token} {condition : Expression}
    (hgenuine : ∀ t ∈ tokens, t.Genuine) (h : takeCondition tokens = .ok (condition, rest)) :
    condition.Guarding ∧ rest <:+ tokens := by
  obtain ⟨inner, hopen, h⟩ := exists_of_bind h
  obtain ⟨rest', hcolon, h⟩ := exists_of_bind h
  cases h
  obtain ⟨t, -, rfl⟩ := suffix_of_expect hopen
  obtain ⟨u, -, hrest⟩ := suffix_of_expect hcolon
  obtain ⟨hsub, hsuffix, -⟩ := balanced_of_takeMatching (Prod.ext rfl hrest)
  have hinner : ∀ v ∈ (takeMatching 0 inner).1, v.Genuine :=
    fun v hv => hgenuine v (List.mem_cons_of_mem t (hsub hv))
  -- What is spelled again has no places, so the same condition is taken once more without them.
  have hmatching : takeMatching 0 (inner.map unplaced) =
      ((takeMatching 0 inner).1.map unplaced, u.unplaced :: rest.map unplaced) := by
    rw [takeMatching_unplaced, ← List.map_cons, ← hrest]
    rfl
  obtain ⟨-, -, htaken⟩ := balanced_of_takeMatching hmatching
  refine ⟨⟨composed_join hinner, ?_, ?_⟩, ?_⟩
  · rw [Expression.tidy, Expression.source_compile, join_spelled_join hinner]
    exact ⟨rfl, rfl⟩
  · rw [Expression.source_compile, spelled_join_toList hinner]
    exact htaken
  · exact ((List.suffix_cons u rest).trans hsuffix).trans (List.suffix_cons t inner)

/-- The source of a combined assignment can be assigned again. -/
theorem assignable_combined {t : Token} {symbol : String} {tokens : List Token} (ht : t.Genuine)
    (hkind : t.kind = .identifier) (hs : symbol ∈ combining) (hgenuine : ∀ u ∈ tokens, u.Genuine)
    (hcontinues : ∀ u ∈ tokens, continuesExpression u = true) :
    (Expression.compile (combined t.text symbol (join tokens))).Assignable := by
  refine ⟨composed_combined ht hs hgenuine, alike_combined ht hkind hs hgenuine, ?_⟩
  rw [Expression.source_compile, spelled_combined_toList ht hs hgenuine]
  have hsymbol : continuesExpression (bare .symbol symbol.toList) = true := by
    simp only [combining, List.mem_cons, List.not_mem_nil, or_false] at hs
    rcases hs with rfl | rfl | rfl | rfl | rfl | rfl
    all_goals decide
  intro u hu
  simp only [combinedTokens, List.mem_cons, List.mem_append, List.mem_map, List.not_mem_nil,
    or_false] at hu
  rcases hu with rfl | rfl | rfl | ⟨v, hv, rfl⟩ | rfl
  · exact continuesExpression_of_identifier ht hkind
  · exact hsymbol
  · decide
  · exact hcontinues v hv
  · decide

/-- An assignment that was read can be read again. -/
theorem readable_takeAssigned {t : Token} {text symbol : String} {tokens : List Token}
    (ht : t.Genuine) (hkind : t.kind = .identifier) (hsymbol : accumulator? text = some symbol)
    (hgenuine : ∀ u ∈ tokens, u.Genuine) :
    (takeAssigned t.text symbol tokens).1.Readable := by
  have hsource : ∀ u ∈ tokens.takeWhile continuesExpression, u.Genuine :=
    fun u hu => hgenuine u (List.takeWhile_subset _ hu)
  have hcontinues : ∀ u ∈ tokens.takeWhile continuesExpression, continuesExpression u = true :=
    fun u hu => List.mem_takeWhile_imp hu
  have hname : IsSpelling .identifier t.text.toList := hkind ▸ ht
  refine ⟨hname, ?_⟩
  rcases eq_of_accumulator? hsymbol with rfl | hs
  · exact assignable_join hsource hcontinues
  · have hne : symbol ≠ "" := by
      rintro rfl
      exact absurd hs (by decide)
    rw [if_neg hne]
    exact assignable_combined ht hkind hs hsource hcontinues

/-- A declaration that was read can be read again. -/
theorem readable_of_takeDeclaration {tag : TypeTag} {tokens rest : List Token} {s : Statement}
    (hgenuine : ∀ t ∈ tokens, t.Genuine) (h : takeDeclaration tag tokens = .ok (s, rest)) :
    s.Readable ∧ s.isConditional = false ∧ rest <:+ tokens := by
  obtain ⟨t₁, hopen, h₁⟩ := exists_of_bind h
  obtain ⟨⟨name, t₂⟩, hname, h₂⟩ := exists_of_bind h₁
  obtain ⟨t₃, hclose, h₃⟩ := exists_of_bind h₂
  obtain ⟨t₄, hequals, h₄⟩ := exists_of_bind h₃
  obtain ⟨opening, -, rfl⟩ := suffix_of_expect hopen
  cases t₁ with
  | nil => cases hname
  | cons n t₁ =>
      cases hname
      obtain ⟨closing, -, rfl⟩ := suffix_of_expect hclose
      obtain ⟨equals, -, rfl⟩ := suffix_of_expect hequals
      have hn : IsToken n.text := ⟨n.kind, hgenuine n (by simp)⟩
      have hrest : ∀ t ∈ t₄, t.Genuine := fun t ht => hgenuine t (by simp [ht])
      have hsuffix : t₄ <:+ opening :: n :: closing :: equals :: t₄ :=
        List.suffix_append [opening, n, closing, equals] t₄
      cases t₄ with
      | nil =>
          cases h₄
          have hempty : (Expression.compile (join [])).Assignable := assignable_join nofun nofun
          exact ⟨⟨hn, hempty⟩, rfl, hsuffix⟩
      | cons t tail =>
          dsimp only at h₄
          split at h₄
          · obtain ⟨t₅, hopen', h₅⟩ := exists_of_bind h₄
            obtain ⟨⟨prompt, t₆⟩, hprompt, h₆⟩ := exists_of_bind h₅
            cases h₆
            obtain ⟨opening', -, rfl⟩ := suffix_of_expect hopen'
            obtain ⟨hleft, rfl⟩ := suffix_of_takeArguments hprompt
            have hleft' := ((suffix_skipBar t₆).trans hleft).trans
              (List.suffix_append [t, opening'] t₅)
            refine ⟨⟨hn, isPrompt_join ?_ ?_⟩, rfl, hleft'.trans hsuffix⟩
            · intro u hu
              exact hrest u (by simp [List.takeWhile_subset _ hu])
            · intro u hu
              have hclosing : (u.text != ")") = true :=
                List.mem_takeWhile_imp (p := fun v : Token => v.text != ")") hu
              exact bne_iff_ne.mp hclosing
          · cases h₄
            refine ⟨⟨hn, assignable_join ?_ ?_⟩, rfl, (suffix_takeSource _).trans hsuffix⟩
            · intro u hu
              exact hrest u (List.takeWhile_subset _ hu)
            · intro u hu
              exact List.mem_takeWhile_imp hu

/-- An output that was read can be read again. -/
theorem readable_of_takeOutput {tokens rest : List Token} {s : Statement}
    (hgenuine : ∀ t ∈ tokens, t.Genuine) (h : takeOutput tokens = .ok (s, rest)) :
    s.Readable ∧ s.isConditional = false ∧ rest <:+ tokens := by
  obtain ⟨t₁, hopen, h⟩ := exists_of_bind h
  obtain ⟨⟨args, t₂⟩, hargs, h⟩ := exists_of_bind h
  cases h
  obtain ⟨opening, -, rfl⟩ := suffix_of_expect hopen
  obtain ⟨hsuffix, rfl⟩ := suffix_of_takeArguments hargs
  refine ⟨?_, rfl, ((suffix_skipBar t₂).trans hsuffix).trans (List.suffix_cons opening t₁)⟩
  intro a ha
  obtain ⟨hmem, hcomma⟩ := List.mem_filter.mp ha
  obtain ⟨u, hu, rfl⟩ := List.mem_map.mp hmem
  have htoken : u.Genuine := hgenuine u (List.mem_cons_of_mem _ (List.takeWhile_subset _ hu))
  have hclosing : (u.text != ")") = true :=
    List.mem_takeWhile_imp (p := fun v : Token => v.text != ")") hu
  exact ⟨⟨u.kind, htoken⟩, bne_iff_ne.mp hclosing, bne_iff_ne.mp hcomma⟩

/-- An assignment begins with a variable and a symbol that assigns. -/
theorem exists_of_assigns? {t : Token} {tokens rest : List Token} {symbol : String}
    (h : assigns? t tokens = some (symbol, rest)) :
    t.kind = .identifier ∧ ∃ op, accumulator? op.text = some symbol ∧ tokens = op :: rest := by
  cases tokens with
  | nil => cases h
  | cons op tail =>
      rw [assigns?] at h
      split at h
      · rename_i hkind
        obtain ⟨symbol', hop, he⟩ := Option.map_eq_some_iff.mp h
        cases he
        exact ⟨hkind, op, hop, rfl⟩
      · cases h

/-- What is known of a clause that begins with a given token. -/
def Sound (t : Token) : Clause → Prop
  | .simple s => s.Readable ∧ s.isConditional = false
  | .conditional condition => condition.Guarding ∧ t.text = "if"
  | .loop condition => condition.Guarding
  | .stray => True

/-- A clause that was read can be read again. -/
theorem sound_of_read {t : Token} {tokens rest : List Token} {clause : Clause}
    (hgenuine : ∀ u ∈ t :: tokens, u.Genuine) (h : read t tokens = .ok (clause, rest)) :
    clause.Sound t ∧ rest <:+ tokens := by
  have ht : t.Genuine := hgenuine t List.mem_cons_self
  have htokens : ∀ u ∈ tokens, u.Genuine := fun u hu => hgenuine u (List.mem_cons_of_mem t hu)
  unfold read at h
  split at h
  · obtain ⟨⟨s, rest'⟩, hs, h⟩ := exists_of_bind h
    cases h
    obtain ⟨hread, hplain, hsuffix⟩ := readable_of_takeDeclaration htokens hs
    exact ⟨⟨hread, hplain⟩, hsuffix⟩
  · split at h
    · rename_i symbol tail hassign
      obtain ⟨hkind, op, hop, rfl⟩ := exists_of_assigns? hassign
      have htail : ∀ u ∈ tail, u.Genuine := fun u hu => htokens u (List.mem_cons_of_mem op hu)
      cases h
      refine ⟨⟨readable_takeAssigned ht hkind hop htail, rfl⟩, ?_⟩
      exact (suffix_takeSource tail).trans (List.suffix_cons op tail)
    · split at h
      · rename_i hif
        obtain ⟨⟨c, rest'⟩, hc, h⟩ := exists_of_bind h
        cases h
        obtain ⟨hguard, hsuffix⟩ := guarding_of_takeCondition htokens hc
        exact ⟨⟨hguard, hif⟩, hsuffix⟩
      · obtain ⟨⟨c, rest'⟩, hc, h⟩ := exists_of_bind h
        cases h
        exact guarding_of_takeCondition htokens hc
      · obtain ⟨⟨s, rest'⟩, hs, h⟩ := exists_of_bind h
        cases h
        obtain ⟨hread, hplain, hsuffix⟩ := readable_of_takeOutput htokens hs
        exact ⟨⟨hread, hplain⟩, hsuffix⟩
      · cases h
        exact ⟨⟨trivial, rfl⟩, suffix_skipBar tokens⟩
      · cases h
        exact ⟨trivial, List.suffix_rfl⟩

end Clause

end Sting
