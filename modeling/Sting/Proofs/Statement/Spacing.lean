import Sting.Proofs.Statement.Rereading
import Sting.Proofs.Statement.WellFormed

/-!
# Spacing of sources

The source of an expression that was read is its tokens with single blanks between them. There is
one exception: a combined assignment of nothing leaves two blanks between its parentheses. Apart
from it, a program that is written and read again without a change of structure is the same program,
and so it is written the same once more. What is to be seen for this is that runs of blanks can
only differ inside of quoted texts, and that these are kept in the code of an expression.
-/

namespace Sting

open Token Text

namespace Text

/-! ## Runs of blanks -/

/-- Squeezing keeps the first character. -/
theorem head?_squeeze (text : List Char) : (squeeze text).head? = text.head? := by
  induction text with
  | nil => rfl
  | cons c rest ih =>
      rw [squeeze]
      split
      · rename_i h
        rw [ih, h.2, h.1, List.head?_cons]
      · rfl

/-- Where there is no blank nothing is squeezed. -/
theorem squeeze_of_not_mem {text : List Char} (h : ' ' ∉ text) : squeeze text = text := by
  induction text with
  | nil => rfl
  | cons c rest ih =>
      simp only [List.mem_cons, not_or] at h
      rw [squeeze, if_neg fun hc => h.1 hc.1.symm, ih h.2]

/-- Behind a character that is no blank a new run begins. -/
theorem squeeze_append {front : List Char} (h : ∀ c ∈ front.getLast?, c ≠ ' ')
    (back : List Char) : squeeze (front ++ back) = squeeze front ++ squeeze back := by
  induction front with
  | nil => rfl
  | cons c front ih =>
      cases front with
      | nil =>
          have hc : c ≠ ' ' := h c rfl
          simp [squeeze, hc]
      | cons d front =>
          have hrest := ih (by simpa using h)
          have hhead : (d :: front ++ back).head? = (d :: front).head? := rfl
          by_cases hc : c = ' ' ∧ (d :: front).head? = some ' '
          · rw [List.cons_append, squeeze, hhead, if_pos hc, hrest, squeeze.eq_2 c, if_pos hc]
          · rw [List.cons_append, squeeze, hhead, if_neg hc, hrest, squeeze.eq_2 c, if_neg hc,
              List.cons_append]

end Text

namespace Token

/-! ## Tokens with single blanks between them -/

/-- The content of a quoted text. -/
def content? (t : Token) : Option String :=
  if t.kind = .text then some (String.ofList t.text.toList.tail.dropLast) else none

/-- What stands behind a token when others are joined to it. -/
def behind : List Token → List Char
  | [] => []
  | t :: tokens => ' ' :: (Clause.join (t :: tokens)).toList

/-- Behind the first token stand the others, each with a blank in front. -/
theorem toList_join_cons (t : Token) (tokens : List Token) :
    (Clause.join (t :: tokens)).toList = t.text.toList ++ behind tokens := by
  cases tokens with
  | nil => exact (List.append_nil _).symm
  | cons u tokens => exact toList_join_cons_cons t u tokens

/-- The characters of tokens that are not quoted. -/
def isPlain (c : Char) : Bool :=
  isWordChar c || isDecimalDigit c || c == '.' || Piece.isDelimiter c || Piece.isExtensible c ||
    c == '&'

/-- A token is quoted, or it has neither quotes nor blanks. -/
theorem IsSpelling.quoted_or_plain {kind : Token.Kind} {text : List Char}
    (h : IsSpelling kind text) :
    (kind = .text ∧ ∃ content, text = quote :: (content ++ [quote])) ∨
      kind ≠ .text ∧ ∀ c ∈ text, isPlain c = true := by
  have hdigits (digits : List Char) : digitsKind digits ≠ .text := by
    unfold digitsKind
    split <;> exact nofun
  have hword (word : List Char) : wordKind word ≠ .text := by
    unfold wordKind
    split <;> exact nofun
  cases h with
  | @quoted content _ => exact .inl ⟨rfl, content, rfl⟩
  | digits hne hd => exact .inr ⟨hdigits _, fun c hc => by simp [isPlain, hd c hc]⟩
  | fraction hne hd hne' hd' =>
      refine .inr ⟨hdigits _, ?_⟩
      intro c hc
      simp only [List.mem_append, List.mem_cons] at hc
      rcases hc with hc | rfl | hc
      · simp [isPlain, hd c hc]
      · decide
      · simp [isPlain, hd' c hc]
  | word hc hw =>
      refine .inr ⟨hword _, List.forall_mem_cons.mpr ⟨?_, ?_⟩⟩
      · simp [isPlain, isWordChar_of_isWordStart hc]
      · exact fun d hd => by simp [isPlain, hw d hd]
  | delimiter hc => exact .inr ⟨nofun, by simp [isPlain, hc]⟩
  | plain hc => exact .inr ⟨nofun, by simp [isPlain, hc]⟩
  | extended hc =>
      refine .inr ⟨nofun, List.forall_mem_cons.mpr ⟨?_, List.forall_mem_singleton.mpr ?_⟩⟩
      · simp [isPlain, hc]
      · decide
  | conjunction => exact .inr ⟨nofun, by simp [isPlain]⟩

variable {t t' : Token} {tokens tokens' : List Token}

/-- Plain characters are neither blanks nor quotes. -/
theorem not_mem_of_isPlain {text : List Char} (h : ∀ c ∈ text, isPlain c = true) :
    ' ' ∉ text ∧ quote ∉ text :=
  ⟨fun hblank => absurd (h _ hblank) (by decide), fun hquote => absurd (h _ hquote) (by decide)⟩

/-- A token begins and ends with something else than a blank. -/
theorem Genuine.ends (h : t.Genuine) :
    t.text.toList ≠ [] ∧ (∀ c ∈ t.text.toList.head?, c ≠ ' ') ∧
      ∀ c ∈ t.text.toList.getLast?, c ≠ ' ' := by
  obtain ⟨c, tail, htext, -⟩ := Lexeme.exists_head_of_isSpelling h
  refine ⟨by simp [htext], ?_⟩
  rcases h.quoted_or_plain with ⟨-, content, hquoted⟩ | ⟨-, hplain⟩
  · have hlast : (quote :: (content ++ [quote])).getLast? = some quote := by
      rw [← List.cons_append, List.getLast?_concat]
    rw [hquoted, hlast, List.head?_cons]
    simp [quote]
  · have hblank := (not_mem_of_isPlain hplain).1
    constructor
    · rintro _ hc rfl
      exact hblank (List.mem_of_mem_head? hc)
    · rintro _ hc rfl
      exact hblank (List.mem_of_mem_getLast? hc)

/-- Joined tokens begin as the first one does. -/
theorem head?_join_cons (h : t.Genuine) (tokens : List Token) :
    (Clause.join (t :: tokens)).toList.head? = t.text.toList.head? := by
  rw [toList_join_cons, List.head?_append_of_ne_nil _ h.ends.1]

/-- Squeezing goes through the first token and then through the rest. -/
theorem squeeze_join_cons (h : t.Genuine) (tokens : List Token) :
    squeeze (Clause.join (t :: tokens)).toList =
      squeeze t.text.toList ++ squeeze (behind tokens) := by
  rw [toList_join_cons, squeeze_append h.ends.2.2]

/-- One blank stands before the next token, also when squeezed. -/
theorem squeeze_behind_cons (h : t.Genuine) (tokens : List Token) :
    squeeze (behind (t :: tokens)) = ' ' :: squeeze (Clause.join (t :: tokens)).toList := by
  rw [behind, squeeze, if_neg]
  rintro ⟨-, hblank⟩
  rw [head?_join_cons h] at hblank
  exact h.ends.2.1 ' ' hblank rfl

/-- What is the same behind a token is the same without the blank in front of it. -/
theorem squeeze_join_of_behind (h : ∀ t ∈ tokens, t.Genuine) (h' : ∀ t ∈ tokens', t.Genuine)
    (hsqueeze : squeeze (behind tokens) = squeeze (behind tokens')) :
    squeeze (Clause.join tokens).toList = squeeze (Clause.join tokens').toList := by
  cases tokens with
  | nil =>
      cases tokens' with
      | nil => rfl
      | cons t' tokens' =>
          rw [squeeze_behind_cons (h' t' List.mem_cons_self)] at hsqueeze
          cases hsqueeze
  | cons t tokens =>
      rw [squeeze_behind_cons (h t List.mem_cons_self)] at hsqueeze
      cases tokens' with
      | nil => cases hsqueeze
      | cons t' tokens' =>
          rw [squeeze_behind_cons (h' t' List.mem_cons_self)] at hsqueeze
          exact (List.cons.inj hsqueeze).2

/-- Joined tokens are no empty text. -/
theorem squeeze_join_ne_nil (h : t.Genuine) (tokens : List Token) :
    squeeze (Clause.join (t :: tokens)).toList ≠ [] := by
  rw [squeeze_join_cons h]
  intro hnil
  have hhead := head?_squeeze t.text.toList
  rw [(List.append_eq_nil_iff.mp hnil).1, List.head?_nil] at hhead
  exact h.ends.1 (List.head?_eq_none_iff.mp hhead.symm)

/-- Behind a token stands a blank or nothing. -/
theorem head_squeeze_behind (tokens : List Token) :
    ∀ c ∈ (squeeze (behind tokens)).head?, (c != ' ') = false := by
  intro c hc
  rw [head?_squeeze] at hc
  cases tokens with
  | nil => cases hc
  | cons t tokens =>
      cases hc
      rfl

/-- The first of joined tokens that differ in runs of blanks only, and not in quoted texts. -/
theorem text_eq_of_squeeze (h : t.Genuine) (h' : t'.Genuine)
    (hsqueeze : squeeze (Clause.join (t :: tokens)).toList =
      squeeze (Clause.join (t' :: tokens')).toList)
    (hcontent : t.kind = .text → t'.kind = .text → t.content? = t'.content?) :
    t.text = t'.text := by
  have hhead := congrArg List.head? hsqueeze
  rw [head?_squeeze, head?_squeeze, head?_join_cons h, head?_join_cons h'] at hhead
  rw [squeeze_join_cons h, squeeze_join_cons h'] at hsqueeze
  apply String.toList_injective
  rcases h.quoted_or_plain with ⟨hkind, content, htext⟩ | ⟨hkind, hplain⟩
  · rcases h'.quoted_or_plain with ⟨hkind', content', htext'⟩ | ⟨hkind', hplain'⟩
    · have hsame := hcontent hkind hkind'
      simp only [content?, if_pos hkind, if_pos hkind', htext, htext', List.tail_cons,
        List.dropLast_concat] at hsame
      rw [htext, htext', String.ofList_injective (Option.some.inj hsame)]
    · rw [htext, List.head?_cons] at hhead
      exact absurd (List.mem_of_mem_head? hhead.symm) (not_mem_of_isPlain hplain').2
  · rcases h'.quoted_or_plain with ⟨hkind', content', htext'⟩ | ⟨hkind', hplain'⟩
    · rw [htext', List.head?_cons] at hhead
      exact absurd (List.mem_of_mem_head? hhead) (not_mem_of_isPlain hplain).2
    · -- Without blanks inside, both end at the first blank behind them.
      have hrun {text : List Char} (h : ∀ c ∈ text, isPlain c = true) :
          ∀ c ∈ text, (c != ' ') = true := by
        intro c hc
        rw [bne_iff_ne]
        rintro rfl
        exact (not_mem_of_isPlain h).1 hc
      have htake := span_run (hrun hplain) (head_squeeze_behind tokens)
      have htake' := span_run (hrun hplain') (head_squeeze_behind tokens')
      rw [squeeze_of_not_mem (not_mem_of_isPlain hplain).1,
        squeeze_of_not_mem (not_mem_of_isPlain hplain').1] at hsqueeze
      rw [← htake.1, hsqueeze, htake'.1]

/-- Joined tokens that differ in runs of blanks only, and not in quoted texts, are the same. -/
theorem map_text_eq (h : ∀ t ∈ tokens, t.Genuine) (h' : ∀ t ∈ tokens', t.Genuine)
    (hsqueeze : squeeze (Clause.join tokens).toList = squeeze (Clause.join tokens').toList)
    (hcontents : tokens.filterMap content? = tokens'.filterMap content?) :
    tokens.map text = tokens'.map text := by
  induction tokens generalizing tokens' with
  | nil =>
      cases tokens' with
      | nil => rfl
      | cons t' tokens' =>
          exact absurd hsqueeze.symm (squeeze_join_ne_nil (h' t' List.mem_cons_self) tokens')
  | cons t tokens ih =>
      obtain ⟨ht, htokens⟩ := List.forall_mem_cons.mp h
      cases tokens' with
      | nil => exact absurd hsqueeze (squeeze_join_ne_nil ht tokens)
      | cons t' tokens' =>
          obtain ⟨ht', htokens'⟩ := List.forall_mem_cons.mp h'
          have htext : t.text = t'.text := by
            refine text_eq_of_squeeze ht ht' hsqueeze ?_
            intro hkind hkind'
            simp only [content?, List.filterMap_cons, if_pos hkind, if_pos hkind',
              List.cons.injEq] at hcontents ⊢
            rw [hcontents.1]
          have hkind : t.kind = t'.kind := by
            have hspelling : IsSpelling t.kind t'.text.toList := htext ▸ ht
            exact hspelling.kind_eq ht'
          have hcontent : t.content? = t'.content? := by
            rw [content?, content?, hkind, htext]
          rw [squeeze_join_cons ht, squeeze_join_cons ht', htext] at hsqueeze
          have hbehind := squeeze_join_of_behind htokens htokens' (List.append_cancel_left hsqueeze)
          rw [List.map_cons, List.map_cons, htext, ih htokens htokens' hbehind ?_]
          cases hsome : t'.content? with
          | none =>
              rwa [List.filterMap_cons_none (hcontent.trans hsome),
                List.filterMap_cons_none hsome] at hcontents
          | some content =>
              rw [List.filterMap_cons_some (hcontent.trans hsome),
                List.filterMap_cons_some hsome] at hcontents
              exact (List.cons.inj hcontents).2

end Token

/-! ## Quoted texts in the code of an expression -/

/-- The content of a quoted text. -/
def Instruction.content? : Instruction → Option String
  | .text content => some content
  | .number _ | .word _ | .apply _ | .unclosed => none

namespace Lexeme

/-- The content of a quoted text. -/
def content? : Lexeme → Option String
  | .text content => some content
  | .number _ | .word _ | .operator _ | .opening | .closing => none

/-- A token stands for its quoted content, if it has one. -/
theorem filterMap_content?_ofToken (t : Token) :
    (ofToken t.kind t.text.toList).filterMap content? = t.content?.toList := by
  rw [Token.content?]
  cases t.kind with
  | symbol =>
      rw [ofToken]
      rcases ofSymbol_cases t.text.toList with ⟨-, h⟩ | ⟨-, h⟩ | h | ⟨op, -, h⟩
      all_goals
        rw [h]
        rfl
  | keyword | identifier | text | number | comment => rfl

/-- Tokens stand for their quoted contents, one by one. -/
theorem filterMap_content?_ofTokens {tokens : List Token} (h : ∀ t ∈ tokens, t.Genuine) :
    (ofTokens tokens).filterMap content? = tokens.filterMap Token.content? := by
  induction tokens with
  | nil => rw [ofTokens_nil]; rfl
  | cons t tokens ih =>
      obtain ⟨ht, htokens⟩ := List.forall_mem_cons.mp h
      by_cases hbar : isBar t = true
      · have hkind := ht.kind_of_isDelimiter (toList_text_of_isBar hbar) rfl
        have hnone : t.content? = none := by rw [Token.content?, if_neg (by simp [hkind])]
        have hbars (n : Nat) :
            (List.replicate n (Lexeme.operator (.binary .or))).filterMap content? = [] := by
          simp [List.filterMap_replicate, content?]
        obtain ⟨more, fewer, rest, hmore, hfewer⟩ := exists_ofTokens_bar hbar tokens
        rw [List.filterMap_cons_none hnone, ← ih htokens, hmore, hfewer, List.filterMap_append,
          List.filterMap_append, hbars, hbars]
      · rw [Bool.not_eq_true] at hbar
        rw [ofTokens_cons hbar, List.filterMap_append, ih htokens, filterMap_content?_ofToken]
        cases hcontent : t.content? with
        | none => rw [List.filterMap_cons_none hcontent]; rfl
        | some content => rw [List.filterMap_cons_some hcontent]; rfl

/-- Lexemes with the same code have the same quoted texts. -/
theorem filterMap_content?_of_code {lexemes lexemes' : List Lexeme}
    (h : Instruction.ofLexemes lexemes = Instruction.ofLexemes lexemes') :
    lexemes.filterMap content? = lexemes'.filterMap content? := by
  have hcontents (lexemes : List Lexeme) :
      lexemes.filterMap content? =
        ((Instruction.ofLexemes lexemes).filter Instruction.isOperand).filterMap
          Instruction.content? := by
    rw [Instruction.ofLexemes, Instruction.filter_isOperand_convert, List.filterMap_filterMap]
    refine List.filterMap_congr ?_
    intro lexeme _
    cases lexeme <;> rfl
  rw [hcontents, hcontents, h]

end Lexeme

namespace Expression

/-- The source is the tokens that it has, with single blanks between them. -/
def Canonical (e : Expression) : Prop :=
  e.source = Clause.join (Token.scan e.source)

/-- Canonical is what the tokens of the source, joined anew, are. -/
theorem canonical_iff {e : Expression} :
    e.Canonical ↔ e.source = Clause.join (spelled e.source.toList) := by
  rw [Canonical, ← map_unplaced_scan, Clause.join_unplaced]

/-- Joined tokens are canonical. -/
theorem canonical_join {tokens : List Token} (h : ∀ t ∈ tokens, t.Genuine) :
    (compile (Clause.join tokens)).Canonical := by
  rw [canonical_iff, source_compile, join_spelled_join h]

variable {t : Token} {symbol : String} {tokens : List Token}

/-- A combined assignment has its blanks unless it is one of nothing. -/
theorem canonical_combined_iff (ht : t.Genuine) (hs : symbol ∈ Clause.combining)
    (htokens : ∀ u ∈ tokens, u.Genuine) :
    (compile (Clause.combined t.text symbol (Clause.join tokens))).Canonical ↔ tokens ≠ [] := by
  rw [canonical_iff, source_compile, Clause.spelled_combined_toList ht hs htokens]
  constructor
  · rintro hsource rfl
    have hlength := congrArg (fun text => text.toList.length) hsource
    simp only [Clause.toList_combined_nil, Clause.toList_join_combinedTokens_nil,
      List.length_append, List.length_cons, List.length_nil] at hlength
    omega
  · intro hne
    rw [Clause.join_combinedTokens hne]

/-- Expressions in canonical spacing that are alike are the same. -/
theorem Canonical.eq_of_alike {e e' : Expression} (h : e.Canonical) (h' : e'.Canonical)
    (halike : e.Alike e') : e = e' := by
  have hgenuine (text : List Char) : ∀ t ∈ spelled text, t.Genuine :=
    fun t ht => genuine_of_mem_spelled ht
  rw [canonical_iff] at h h'
  have hcode {e : Expression} (h : e.source = Clause.join (spelled e.source.toList)) :
      e.code = Instruction.ofLexemes (Lexeme.ofTokens (spelled e.source.toList)) := by
    rw [e.code_eq, ← Lexeme.scan_join (hgenuine _), ← h]
  have hcontents : (spelled e.source.toList).filterMap Token.content? =
      (spelled e'.source.toList).filterMap Token.content? := by
    rw [← Lexeme.filterMap_content?_ofTokens (hgenuine _),
      ← Lexeme.filterMap_content?_ofTokens (hgenuine _)]
    exact Lexeme.filterMap_content?_of_code (by rw [← hcode h, ← hcode h', halike.1])
  have hsqueeze : squeeze (Clause.join (spelled e.source.toList)).toList =
      squeeze (Clause.join (spelled e'.source.toList)).toList := by
    rw [← h, ← h', halike.2]
  apply Expression.ext
  rw [h, h', Clause.join, Clause.join,
    map_text_eq (hgenuine _) (hgenuine _) hsqueeze hcontents]

end Expression

namespace Statement

/-! ## The sources of a program -/

/-- The expressions of the statement itself. -/
def expressions : Statement → List Expression
  | .assign _ _ e => [e]
  | .conditional branches => branches.filterMap Branch.condition
  | .loop condition _ => [condition]
  | .input .. | .output _ | .stop => []

/-- The statement adds nothing to a variable, or combines nothing with it in another way. -/
def AccumulatesNothing : Statement → Prop
  | .assign name none e => ∃ symbol ∈ Clause.combining, e.source = Clause.combined name symbol ""
  | .assign _ (some _) _ | .input .. | .output _ | .conditional _ | .loop .. | .stop => False

instance : DecidablePred AccumulatesNothing
  | .assign name none e =>
    inferInstanceAs <|
      Decidable (∃ symbol ∈ Clause.combining, e.source = Clause.combined name symbol "")
  | .assign _ (some _) _ | .input .. | .output _ | .conditional _ | .loop .. | .stop =>
    inferInstanceAs (Decidable False)

section ReadFrom

variable {tokens : List Token}

/-- Tokens that are joined are canonical, whichever of the source they are. -/
theorem canonical_of_subset {inner : List Token} (htokens : ∀ u ∈ tokens, u.Genuine)
    (hinner : inner ⊆ tokens) : (Expression.compile (Clause.join inner)).Canonical :=
  Expression.canonical_join fun u hu => htokens u (hinner hu)

/-- What is assigned has its blanks unless it accumulates nothing. -/
theorem canonical_assign_iff {name : String} {declared : Option TypeTag} {e : Expression}
    (htokens : ∀ u ∈ tokens, u.Genuine)
    (h : (Clause.simple (.assign name declared e)).ReadFrom tokens) :
    e.Canonical ↔ ¬ (assign name declared e).AccumulatesNothing := by
  obtain ⟨hsuffix, hread⟩ := h
  rename_i t rest after
  obtain ⟨ht, hrest⟩ := List.forall_mem_cons.mp fun u hu => htokens u (hsuffix.subset hu)
  have hnothing {symbol : String} (hsymbol : symbol ∈ Clause.combining) :
      ¬ (Expression.compile (Clause.combined t.text symbol "")).Canonical := by
    have hnone : ∀ u ∈ ([] : List Token), u.Genuine := nofun
    intro hcanonical
    exact (Expression.canonical_combined_iff ht hsymbol hnone).mp hcanonical rfl
  cases Clause.assembled_of_read hread with
  | declaration hinner => exact iff_of_true (canonical_of_subset hrest hinner) id
  | assignment hinner =>
      have hcanonical := canonical_of_subset hrest hinner
      refine iff_of_true hcanonical ?_
      rintro ⟨symbol, hsymbol, hsource⟩
      rw [Expression.source_compile] at hsource
      exact hnothing hsymbol (hsource ▸ hcanonical)
  | @accumulation symbol inner hsymbol hinner =>
      constructor
      · rintro hcanonical ⟨symbol', hsymbol', hsource⟩
        rw [Expression.source_compile] at hsource
        exact hnothing hsymbol' (hsource ▸ hcanonical)
      · intro hsomething
        rw [Expression.canonical_combined_iff ht hsymbol fun u hu => hrest u (hinner hu)]
        rintro rfl
        exact hsomething ⟨symbol, hsymbol, rfl⟩

/-- The condition of a branch or of a loop that was read has its blanks. -/
theorem canonical_of_header {clause : Clause} {condition : Expression}
    (htokens : ∀ u ∈ tokens, u.Genuine) (h : clause.ReadFrom tokens)
    (hclause : clause = .conditional condition ∨ clause = .loop condition) :
    condition.Canonical := by
  cases h with
  | statement hsuffix hread =>
      have hbehind := List.Subset.trans (List.subset_cons_self _ _) hsuffix.subset
      rcases hclause with rfl | rfl
      · cases Clause.assembled_of_read hread with
        | conditional hinner =>
            exact canonical_of_subset htokens (List.Subset.trans hinner hbehind)
      · cases Clause.assembled_of_read hread with
        | loop hinner => exact canonical_of_subset htokens (List.Subset.trans hinner hbehind)
  | arm hsuffix hread =>
      obtain ⟨inner, hinner, rfl⟩ := Clause.exists_of_takeCondition hread
      obtain rfl : .compile (Clause.join inner) = condition := by simpa using hclause
      exact canonical_of_subset htokens (List.Subset.trans hinner hsuffix.subset)

/-- The expressions of a statement that was read have their blanks unless it accumulates nothing. -/
theorem canonical_iff_of_readFrom {s : Statement} (htokens : ∀ u ∈ tokens, u.Genuine)
    (h : ∀ clause ∈ s.clauses, clause.ReadFrom tokens) :
    ∀ e ∈ s.expressions, e.Canonical ↔ ¬ s.AccumulatesNothing := by
  cases s with
  | assign name declared e =>
      intro e' he'
      obtain rfl := List.mem_singleton.mp he'
      exact canonical_assign_iff htokens (h _ List.mem_cons_self)
  | conditional branches =>
      intro c hc
      have hclause := h (.conditional c) (List.mem_map_of_mem hc)
      exact iff_of_true (canonical_of_header htokens hclause (.inl rfl)) id
  | loop condition body =>
      intro c hc
      obtain rfl := List.mem_singleton.mp hc
      exact iff_of_true (canonical_of_header htokens (h _ List.mem_cons_self) (.inr rfl)) id
  | input name declared prompt => exact nofun
  | output args => exact nofun
  | stop => exact nofun

end ReadFrom

/-! ## Programs in canonical spacing -/

/-- All expressions of a body are in canonical spacing, at whatever depth they stand. -/
def CanonicalBody (body : List Statement) : Prop :=
  ∀ s ∈ bodyParts body, ∀ e ∈ s.expressions, e.Canonical

/-- A body is canonical if its first statement and the others are. -/
theorem canonicalBody_cons {s : Statement} {body : List Statement} :
    CanonicalBody (s :: body) ↔
      (∀ part ∈ s.parts, ∀ e ∈ part.expressions, e.Canonical) ∧ CanonicalBody body :=
  List.forall_mem_append

mutual

/-- Statements in canonical spacing that are alike are the same. -/
theorem eq_of_alike : ∀ {s s' : Statement}, s.Alike s' →
    (∀ part ∈ s.parts, ∀ e ∈ part.expressions, e.Canonical) →
    (∀ part ∈ s'.parts, ∀ e ∈ part.expressions, e.Canonical) → s = s'
  | .assign _ _ e, .assign _ _ e', ⟨hname, hdeclared, halike⟩, h, h' => by
      have he := h _ List.mem_cons_self e List.mem_cons_self
      have he' := h' _ List.mem_cons_self e' List.mem_cons_self
      rw [hname, hdeclared, he.eq_of_alike he' halike]
  | .input .., .input .., ⟨hname, hdeclared, hprompt⟩, _, _ => by rw [hname, hdeclared, hprompt]
  | .output _, .output _, hargs, _, _ => congrArg output hargs
  | .conditional _, .conditional _, halike, h, h' => by
      obtain ⟨hown, hinner⟩ := List.forall_mem_cons.mp h
      obtain ⟨hown', hinner'⟩ := List.forall_mem_cons.mp h'
      rw [eq_of_alikeArms halike hown hown' hinner hinner']
  | .loop c _, .loop c' _, ⟨hc, hbody⟩, h, h' => by
      obtain ⟨hown, hinner⟩ := List.forall_mem_cons.mp h
      obtain ⟨hown', hinner'⟩ := List.forall_mem_cons.mp h'
      have hcondition := (hown c List.mem_cons_self).eq_of_alike (hown' c' List.mem_cons_self) hc
      rw [hcondition, eq_of_alikeBody hbody hinner hinner']
  | .stop, .stop, _, _, _ => rfl

/-- Bodies in canonical spacing that are alike are the same. -/
theorem eq_of_alikeBody : ∀ {body body' : List Statement}, AlikeBody body body' →
    CanonicalBody body → CanonicalBody body' → body = body'
  | [], [], _, _, _ => rfl
  | _ :: _, _ :: _, ⟨hs, hrest⟩, h, h' => by
      obtain ⟨hown, hbehind⟩ := canonicalBody_cons.mp h
      obtain ⟨hown', hbehind'⟩ := canonicalBody_cons.mp h'
      rw [eq_of_alike hs hown hown', eq_of_alikeBody hrest hbehind hbehind']

/-- Arms in canonical spacing that are alike are the same. -/
theorem eq_of_alikeArms : ∀ {arms arms' : List (Branch Statement)}, AlikeArms arms arms' →
    (∀ c ∈ arms.filterMap Branch.condition, c.Canonical) →
    (∀ c ∈ arms'.filterMap Branch.condition, c.Canonical) →
    (∀ s ∈ armParts arms, ∀ e ∈ s.expressions, e.Canonical) →
    (∀ s ∈ armParts arms', ∀ e ∈ s.expressions, e.Canonical) → arms = arms'
  | [], [], _, _, _, _, _ => rfl
  | ⟨none, _⟩ :: _, ⟨none, _⟩ :: _, ⟨hbody, hrest⟩, hc, hc', h, h' => by
      obtain ⟨hown, hbehind⟩ := List.forall_mem_append.mp h
      obtain ⟨hown', hbehind'⟩ := List.forall_mem_append.mp h'
      rw [eq_of_alikeBody hbody hown hown', eq_of_alikeArms hrest hc hc' hbehind hbehind']
  | ⟨some _, _⟩ :: _, ⟨some _, _⟩ :: _, ⟨halike, hbody, hrest⟩, hc, hc', h, h' => by
      obtain ⟨hfirst, hc⟩ := List.forall_mem_cons.mp hc
      obtain ⟨hfirst', hc'⟩ := List.forall_mem_cons.mp hc'
      obtain ⟨hown, hbehind⟩ := List.forall_mem_append.mp h
      obtain ⟨hown', hbehind'⟩ := List.forall_mem_append.mp h'
      rw [hfirst.eq_of_alike hfirst' halike, eq_of_alikeBody hbody hown hown',
        eq_of_alikeArms hrest hc hc' hbehind hbehind']

end

/-- The expressions in a program that was read have their blanks, except where nothing is
accumulated. -/
theorem canonical_iff_of_read {source : String} {program : List Statement}
    (h : read (Token.scan source) = .ok program) :
    ∀ s ∈ bodyParts program, ∀ e ∈ s.expressions, e.Canonical ↔ ¬ s.AccumulatesNothing := by
  intro s hs
  have htokens : ∀ t ∈ Token.scan source, t.Genuine := fun t ht => genuine_of_mem_scan ht
  exact canonical_iff_of_readFrom htokens (readFrom_of_read h s hs)

/-- The sources in a program that was read are in canonical spacing, except where nothing is
accumulated. Without such a place the program is written the same again when it was written and read
without a change. -/
theorem canonical_spacing_of_read {source : String} {program : List Statement}
    (h : read (Token.scan source) = .ok program) :
    (∀ s ∈ bodyParts program, ∀ e ∈ s.expressions, e.Canonical ↔ ¬ s.AccumulatesNothing) ∧
      ∀ program', read (Token.scan (renderProgram program)) = .ok program' →
        AlikeBody program program' →
        (∀ s ∈ bodyParts program ++ bodyParts program', ¬ s.AccumulatesNothing) →
        renderProgram program' = renderProgram program := by
  refine ⟨canonical_iff_of_read h, ?_⟩
  intro program' h' halike hsomething
  obtain ⟨hsome, hsome'⟩ := List.forall_mem_append.mp hsomething
  have hcanonical : CanonicalBody program :=
    fun s hs e he => (canonical_iff_of_read h s hs e he).mpr (hsome s hs)
  have hcanonical' : CanonicalBody program' :=
    fun s hs e he => (canonical_iff_of_read h' s hs e he).mpr (hsome' s hs)
  rw [eq_of_alikeBody halike hcanonical hcanonical']

/-- Blanks in a quoted text, a combined assignment, an empty condition and a nested block. -/
theorem canonical_spacing_of_read_nested :
    let source := "x+='a  b'*(y)| loop(): if (x||'  ')  : y  = |elseif(y): stop"
    let program : List Statement := [.assign "x" none (.compile "x + ( 'a  b' * ( y ) )"),
      .loop (.compile "") [.conditional [⟨some (.compile "x | | '  '"),
        [.assign "y" none (.compile "")]⟩, ⟨some (.compile "y"), [.stop]⟩]]]
    read (Token.scan source) = .ok program ∧
      (∀ s ∈ bodyParts program, ∀ e ∈ s.expressions, e.Canonical ↔ ¬ s.AccumulatesNothing) ∧
      ∃ program', read (Token.scan (renderProgram program)) = .ok program' ∧
        AlikeBody program program' ∧
        (∀ s ∈ bodyParts program ++ bodyParts program', ¬ s.AccumulatesNothing) ∧
        renderProgram program' = renderProgram program := by
  intro source program
  have hread : read (Token.scan source) = .ok program := by
    decide +kernel
  obtain ⟨hspacing, hagain⟩ := canonical_spacing_of_read hread
  have hreread : read (Token.scan (renderProgram program)) = .ok program := by
    decide +kernel
  have halike : AlikeBody program program := by
    simp [program, AlikeBody, Alike, AlikeArms, Expression.Alike]
  have hsomething : ∀ s ∈ bodyParts program ++ bodyParts program, ¬ s.AccumulatesNothing := by
    decide +kernel
  exact ⟨hread, hspacing, program, hreread, halike, hsomething,
    hagain program hreread halike hsomething⟩

/-- Where nothing is accumulated two blanks are left, and one of them is lost on the way. -/
theorem accumulated_nothing_loses_blank :
    let program : List Statement := [.assign "x" none (.compile "x + (  )")]
    let program' : List Statement := [.assign "x" none (.compile "x + ( )")]
    read (Token.scan "x += |") = .ok program ∧
      ¬ (Expression.compile "x + (  )").Canonical ∧
      read (Token.scan (renderProgram program)) = .ok program' ∧
      AlikeBody program program' ∧ renderProgram program' ≠ renderProgram program := by
  intro program program'
  have halike : (Expression.compile "x + (  )").Alike (.compile "x + ( )") := by
    constructor <;> decide +kernel
  have hcanonical : Expression.source (.compile "x + (  )") ≠
      Clause.join (Token.scan (Expression.source (.compile "x + (  )"))) := by
    decide +kernel
  have hrender : renderProgram program' ≠ renderProgram program := by
    decide +kernel
  refine ⟨?_, hcanonical, ?_, ⟨⟨rfl, rfl, halike⟩, trivial⟩, hrender⟩ <;> decide +kernel

end Statement

end Sting
