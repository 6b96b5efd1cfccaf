import Sting.Proofs.Statement.Shape
import Sting.Statement.Printer

/-!
# Tokens of written lines

The lines of a written program are ended by newlines, so each of them has the same tokens whatever
follows. For every kind of line these are listed here.
-/

namespace Sting

open Token Text

namespace Text

/-- A break in front breaks the token before it. -/
theorem breaks_cons {c : Char} (h : isBreak c = true) (rest : List Char) : Breaks (c :: rest) := by
  intro d hd
  obtain rfl := Option.some.inj hd
  exact h

end Text

namespace Token

/-- A symbol of one character. -/
def sign (c : Char) : Token :=
  bare .symbol [c]

/-- A keyword. -/
def reserved (word : String) : Token :=
  bare .keyword word.toList

/-- A keyword is spelled as it is. -/
@[simp] theorem text_reserved (word : String) : (reserved word).text = word :=
  String.ofList_toList

/-- The keywords are words, and are classified as keywords. -/
theorem isSpelling_of_mem_keywords {word : String} (h : word ∈ keywords) :
    IsSpelling .keyword word.toList := by
  have hwords : ∀ word ∈ keywords, (word.toList.head?.any isWordStart &&
      word.toList.tail.all isWordChar) = true := by decide
  have hkind : wordKind word.toList = .keyword := by
    rw [wordKind, String.ofList_toList, if_pos (List.contains_iff_mem.mpr h)]
  obtain ⟨hstart, hrest⟩ := Bool.and_eq_true_iff.mp (hwords word h)
  cases htext : word.toList with
  | nil =>
      rw [htext] at hstart
      cases hstart
  | cons c rest =>
      rw [htext] at hkind hstart hrest
      exact hkind ▸ .word hstart (List.all_eq_true.mp hrest)

/-- A keyword is a token unless something extends it. -/
theorem spelled_reserved {word : String} (h : word ∈ keywords) {rest : List Char}
    (hb : Breaks rest) : spelled (word.toList ++ rest) = reserved word :: spelled rest :=
  spelled_spelling (isSpelling_of_mem_keywords h) hb

/-- A sign is a token whatever follows it. -/
theorem spelled_sign {c : Char} (h : Piece.isDelimiter c = true) (rest : List Char) :
    spelled (c :: rest) = sign c :: spelled rest :=
  spelled_delimiter h rest

/-- An equals sign is a token of its own in front of a blank. -/
theorem spelled_equals (rest : List Char) :
    spelled ('=' :: ' ' :: rest) = sign '=' :: spelled rest := by
  have hequals : IsSpelling .symbol ['='] := .plain rfl
  rw [← List.singleton_append, spelled_spelling hequals (breaks_blank rest),
    spelled_blank (.inl rfl)]
  rfl

/-- The token that a text is. -/
theorem IsToken.exists_spelled {text : String} (h : IsToken text) :
    ∃ t : Token, t.text = text ∧
      ∀ rest, Breaks rest → spelled (text.toList ++ rest) = t :: spelled rest := by
  obtain ⟨kind, hkind⟩ := h
  refine ⟨bare kind text.toList, String.ofList_toList, ?_⟩
  intro rest hb
  exact spelled_spelling hkind hb

end Token

namespace Statement

/-- Lines, each of them ended. -/
def linesText (lines : List String) : String :=
  String.join (lines.map (· ++ "\n"))

/-- The tokens of lines, without their places. -/
def lineTokens (lines : List String) : List Token :=
  (Token.scan (linesText lines)).map unplaced

/-- The tokens of lines are what their text spells. -/
theorem lineTokens_eq (lines : List String) : lineTokens lines = spelled (linesText lines).toList :=
  map_unplaced_scan _

/-- No lines have no tokens. -/
theorem lineTokens_nil : lineTokens [] = [] := by
  rw [lineTokens_eq]
  exact spelled_nil

/-- The blanks in front of a line are passed over. -/
theorem spelled_indented (depth : Nat) (text : String) (rest : List Char) :
    spelled ((indented depth text).toList ++ rest) = spelled (text.toList ++ rest) := by
  have hblanks (n : Nat) : spelled (List.replicate n ' ' ++ (text.toList ++ rest)) =
      spelled (text.toList ++ rest) := by
    induction n with
    | zero => rfl
    | succ n ih => rw [List.replicate_succ, List.cons_append, spelled_blank (.inl rfl), ih]
  rw [indented, String.toList_append, String.toList_ofList, List.append_assoc, hblanks]

/-- Neither the blanks in front of a line nor the newline behind it are tokens. -/
theorem lineTokens_indented (depth : Nat) (text : String) (lines : List String) :
    lineTokens (indented depth text :: lines) =
      spelled (text.toList ++ '\n' :: (linesText lines).toList) := by
  have htext : (linesText (indented depth text :: lines)).toList =
      (indented depth text).toList ++ '\n' :: (linesText lines).toList := by
    rw [linesText, linesText, String.toList_join, String.toList_join, List.map_cons,
      List.flatMap_cons, String.toList_append, List.append_assoc]
    rfl
  rw [lineTokens_eq, htext, spelled_indented]

/-- A line of nothing but a bar. -/
theorem lineTokens_bar (depth : Nat) (lines : List String) :
    lineTokens (indented depth "|" :: lines) = sign '|' :: lineTokens lines := by
  rw [lineTokens_indented, lineTokens_eq]
  change spelled ('|' :: '\n' :: (linesText lines).toList) = _
  rw [spelled_sign rfl, spelled_blank (.inr rfl)]

/-- A line of a keyword and a sign. -/
theorem lineTokens_keyword {line word : String} {c : Char}
    (hline : line.toList = word.toList ++ [' ', c]) (hword : word ∈ keywords)
    (hc : Piece.isDelimiter c = true) (depth : Nat) (lines : List String) :
    lineTokens (indented depth line :: lines) = reserved word :: sign c :: lineTokens lines := by
  rw [lineTokens_indented, lineTokens_eq, hline, List.append_assoc]
  change spelled (word.toList ++ ' ' :: c :: '\n' :: (linesText lines).toList) = _
  rw [spelled_reserved hword (breaks_blank _), spelled_blank (.inl rfl), spelled_sign hc,
    spelled_blank (.inr rfl)]

/-- The header of a loop or of an arm. -/
theorem lineTokens_header {word source : String} (hword : word ∈ keywords) (h : Composed source)
    (depth : Nat) (lines : List String) :
    lineTokens (indented depth (word ++ " (" ++ source ++ ") :") :: lines) =
      reserved word :: sign '(' ::
        (spelled source.toList ++ sign ')' :: sign ':' :: lineTokens lines) := by
  have htext : (word ++ " (" ++ source ++ ") :").toList ++ '\n' :: (linesText lines).toList =
      word.toList ++ ' ' :: '(' :: (source.toList ++
        ')' :: ' ' :: ':' :: '\n' :: (linesText lines).toList) := by
    simp only [String.toList_append, List.append_assoc]
    rfl
  rw [lineTokens_indented, lineTokens_eq, htext, spelled_reserved hword (breaks_blank _),
    spelled_blank (.inl rfl), spelled_sign rfl, h _ (breaks_cons rfl _), spelled_sign rfl,
    spelled_blank (.inl rfl), spelled_sign rfl, spelled_blank (.inr rfl)]

/-- An assignment to a variable without a declared type. -/
theorem lineTokens_assign {name source : String} (hname : IsSpelling .identifier name.toList)
    (h : Composed source) (depth : Nat) (lines : List String) :
    lineTokens (indented depth (name ++ " = " ++ source ++ " |") :: lines) =
      bare .identifier name.toList :: sign '=' ::
        (spelled source.toList ++ sign '|' :: lineTokens lines) := by
  have htext : (name ++ " = " ++ source ++ " |").toList ++ '\n' :: (linesText lines).toList =
      name.toList ++ ' ' :: '=' :: ' ' :: (source.toList ++
        ' ' :: '|' :: '\n' :: (linesText lines).toList) := by
    simp only [String.toList_append, List.append_assoc]
    rfl
  rw [lineTokens_indented, lineTokens_eq, htext, spelled_spelling hname (breaks_blank _),
    spelled_blank (.inl rfl), spelled_equals, h _ (breaks_blank _), spelled_blank (.inl rfl),
    spelled_sign rfl, spelled_blank (.inr rfl)]

/-- The names of types are keywords. -/
theorem keyword_mem_keywords (tag : TypeTag) : tag.keyword ∈ keywords := by
  cases tag <;> decide

/-- The head of a declaration: the type, the name in parentheses and the equals sign. -/
theorem exists_spelled_declaration {name : String} (tag : TypeTag) (hname : IsToken name) :
    ∃ n : Token, n.text = name ∧ ∀ rest,
      spelled ((tag.keyword ++ "(" ++ name ++ ") = ").toList ++ rest) =
        reserved tag.keyword :: sign '(' :: n :: sign ')' :: sign '=' :: spelled rest := by
  obtain ⟨n, hn, hspelled⟩ := hname.exists_spelled
  refine ⟨n, hn, ?_⟩
  intro rest
  have htext : (tag.keyword ++ "(" ++ name ++ ") = ").toList ++ rest =
      tag.keyword.toList ++ '(' :: (name.toList ++ ')' :: ' ' :: '=' :: ' ' :: rest) := by
    simp only [String.toList_append, List.append_assoc]
    rfl
  rw [htext, spelled_reserved (keyword_mem_keywords tag) (breaks_cons rfl _), spelled_sign rfl,
    hspelled _ (breaks_cons rfl _), spelled_sign rfl, spelled_blank (.inl rfl), spelled_equals]

/-- An assignment to a variable with a declared type. -/
theorem lineTokens_declared {name source : String} (tag : TypeTag) (hname : IsToken name)
    (h : Composed source) (depth : Nat) :
    ∃ n : Token, n.text = name ∧ ∀ lines,
      lineTokens
          (indented depth (tag.keyword ++ "(" ++ name ++ ") = " ++ source ++ " |") :: lines) =
        reserved tag.keyword :: sign '(' :: n :: sign ')' :: sign '=' ::
          (spelled source.toList ++ sign '|' :: lineTokens lines) := by
  obtain ⟨n, hn, hspelled⟩ := exists_spelled_declaration tag hname
  refine ⟨n, hn, ?_⟩
  intro lines
  have htext : (tag.keyword ++ "(" ++ name ++ ") = " ++ source ++ " |").toList ++
      '\n' :: (linesText lines).toList =
        (tag.keyword ++ "(" ++ name ++ ") = ").toList ++
          (source.toList ++ ' ' :: '|' :: '\n' :: (linesText lines).toList) := by
    simp only [String.toList_append, List.append_assoc]
    rfl
  rw [lineTokens_indented, lineTokens_eq, htext, hspelled, h _ (breaks_blank _),
    spelled_blank (.inl rfl), spelled_sign rfl, spelled_blank (.inr rfl)]

/-- A request for input. -/
theorem lineTokens_input {name prompt : String} (tag : TypeTag) (hname : IsToken name)
    (h : Composed prompt) (depth : Nat) :
    ∃ n : Token, n.text = name ∧ ∀ lines,
      lineTokens
          (indented depth (tag.keyword ++ "(" ++ name ++ ") = roi(" ++ prompt ++ ") |") :: lines) =
        reserved tag.keyword :: sign '(' :: n :: sign ')' :: sign '=' :: reserved "roi" ::
          sign '(' :: (spelled prompt.toList ++ sign ')' :: sign '|' :: lineTokens lines) := by
  obtain ⟨n, hn, hspelled⟩ := exists_spelled_declaration tag hname
  refine ⟨n, hn, ?_⟩
  intro lines
  have htext : (tag.keyword ++ "(" ++ name ++ ") = roi(" ++ prompt ++ ") |").toList ++
      '\n' :: (linesText lines).toList =
        (tag.keyword ++ "(" ++ name ++ ") = ").toList ++ ("roi".toList ++
          '(' :: (prompt.toList ++ ')' :: ' ' :: '|' :: '\n' :: (linesText lines).toList)) := by
    simp only [String.toList_append, List.append_assoc]
    rfl
  rw [lineTokens_indented, lineTokens_eq, htext, hspelled,
    spelled_reserved (by decide) (breaks_cons rfl _), spelled_sign rfl, h _ (breaks_cons rfl _),
    spelled_sign rfl, spelled_blank (.inl rfl), spelled_sign rfl, spelled_blank (.inr rfl)]

/-- The tokens of arguments with commas between them. -/
theorem exists_spelled_arguments {args : List String} (h : ∀ a ∈ args, Clause.IsArgument a) :
    ∃ tokens : List Token, (tokens.map Token.text).filter (· != ",") = args ∧
      (∀ t ∈ tokens, (t.text != ")") = true) ∧
        ∀ rest, Breaks rest →
          spelled ((", ".intercalate args).toList ++ rest) = tokens ++ spelled rest := by
  induction args with
  | nil =>
      refine ⟨[], rfl, nofun, ?_⟩
      intro rest _
      rfl
  | cons a args ih =>
      obtain ⟨htoken, hclosing, hcomma⟩ := h a List.mem_cons_self
      obtain ⟨t, rfl, ht⟩ := htoken.exists_spelled
      obtain ⟨tokens, hfilter, hne, htokens⟩ := ih fun a ha => h a (List.mem_cons_of_mem _ ha)
      have hkept (rest : List String) : (t.text :: rest).filter (· != ",") =
          t.text :: rest.filter (· != ",") := List.filter_cons_of_pos (bne_iff_ne.mpr hcomma)
      have hdropped (rest : List String) : ((sign ',').text :: rest).filter (· != ",") =
          rest.filter (· != ",") := List.filter_cons_of_neg (by decide)
      cases args with
      | nil =>
          refine ⟨[t], ?_, ?_, ?_⟩
          · rw [List.map_singleton, hkept, List.filter_nil]
          · exact List.forall_mem_singleton.mpr (bne_iff_ne.mpr hclosing)
          · intro rest hb
            exact ht rest hb
      | cons b args =>
          refine ⟨t :: sign ',' :: tokens, ?_, ?_, ?_⟩
          · rw [List.map_cons, List.map_cons, hkept, hdropped, hfilter]
          · refine List.forall_mem_cons.mpr ⟨bne_iff_ne.mpr hclosing, ?_⟩
            exact List.forall_mem_cons.mpr ⟨by decide, hne⟩
          · intro rest hb
            have htext : (", ".intercalate (t.text :: b :: args)).toList ++ rest =
                t.text.toList ++ ',' :: ' ' :: ((", ".intercalate (b :: args)).toList ++ rest) := by
              rw [String.intercalate_cons_cons, String.toList_append, String.toList_append,
                List.append_assoc, List.append_assoc]
              rfl
            rw [htext, ht _ (breaks_cons rfl _), spelled_sign rfl, spelled_blank (.inl rfl),
              htokens rest hb]
            rfl

/-- An output. -/
theorem lineTokens_output {args : List String} (h : ∀ a ∈ args, Clause.IsArgument a)
    (depth : Nat) :
    ∃ tokens : List Token, (tokens.map Token.text).filter (· != ",") = args ∧
      (∀ t ∈ tokens, (t.text != ")") = true) ∧ ∀ lines,
        lineTokens (indented depth ("show(" ++ ", ".intercalate args ++ ") |") :: lines) =
          reserved "show" :: sign '(' ::
            (tokens ++ sign ')' :: sign '|' :: lineTokens lines) := by
  obtain ⟨tokens, hfilter, hne, hspelled⟩ := exists_spelled_arguments h
  refine ⟨tokens, hfilter, hne, ?_⟩
  intro lines
  have htext : ("show(" ++ ", ".intercalate args ++ ") |").toList ++
      '\n' :: (linesText lines).toList =
        "show".toList ++ '(' :: ((", ".intercalate args).toList ++
          ')' :: ' ' :: '|' :: '\n' :: (linesText lines).toList) := by
    simp only [String.toList_append, List.append_assoc]
    rfl
  rw [lineTokens_indented, lineTokens_eq, htext,
    spelled_reserved (by decide) (breaks_cons rfl _), spelled_sign rfl,
    hspelled _ (breaks_cons rfl _), spelled_sign rfl, spelled_blank (.inl rfl), spelled_sign rfl,
    spelled_blank (.inr rfl)]

/-! ## Lines one after the other -/

/-- The line has the same tokens whatever follows it. -/
def Whole (line : String) : Prop :=
  ∀ after, lineTokens (line :: after) = lineTokens [line] ++ lineTokens after

/-- A line with these tokens in front of any others has them by itself. -/
theorem whole_of_eq {line : String} (tokens : List Token)
    (h : ∀ after, lineTokens (line :: after) = tokens ++ lineTokens after) : Whole line := by
  intro after
  rw [h after, h [], lineTokens_nil, List.append_nil]

/-- A bar has the same tokens whatever follows its line. -/
theorem whole_bar (depth : Nat) : Whole (indented depth "|") :=
  whole_of_eq [sign '|'] (lineTokens_bar depth)

/-- A header has the same tokens whatever follows its line. -/
theorem whole_header {word source : String} (hword : word ∈ keywords) (h : Composed source)
    (depth : Nat) : Whole (indented depth (word ++ " (" ++ source ++ ") :")) := by
  have hlines (lines : List String) := lineTokens_header hword h depth lines
  refine whole_of_eq (reserved word :: sign '(' ::
    (spelled source.toList ++ [sign ')', sign ':'])) ?_
  intro after
  rw [hlines, List.cons_append, List.cons_append, List.append_assoc]
  rfl

mutual

/-- Every line of a readable statement is whole. -/
theorem whole_lines : ∀ {s : Statement}, s.Readable → ∀ depth, ∀ line ∈ lines depth s, Whole line
  | .assign name (some tag) e, ⟨hname, he⟩, depth => by
      obtain ⟨n, -, htokens⟩ := lineTokens_declared tag hname he.composed depth
      rw [lines, List.forall_mem_singleton]
      refine whole_of_eq (reserved tag.keyword :: sign '(' :: n :: sign ')' :: sign '=' ::
        (spelled e.source.toList ++ [sign '|'])) ?_
      intro after
      rw [htokens]
      simp only [List.cons_append, List.append_assoc, List.nil_append]
  | .assign name none e, ⟨hname, he⟩, depth => by
      have htokens := lineTokens_assign hname he.composed depth
      rw [lines, List.forall_mem_singleton]
      refine whole_of_eq (bare .identifier name.toList :: sign '=' ::
        (spelled e.source.toList ++ [sign '|'])) ?_
      intro after
      rw [htokens]
      simp only [List.cons_append, List.append_assoc, List.nil_append]
  | .input name tag prompt, ⟨hname, hprompt⟩, depth => by
      obtain ⟨n, -, htokens⟩ := lineTokens_input tag hname hprompt.composed depth
      rw [lines, List.forall_mem_singleton]
      refine whole_of_eq (reserved tag.keyword :: sign '(' :: n :: sign ')' :: sign '=' ::
        reserved "roi" :: sign '(' :: (spelled prompt.toList ++ [sign ')', sign '|'])) ?_
      intro after
      rw [htokens]
      simp only [List.cons_append, List.append_assoc, List.nil_append]
  | .output args, hargs, depth => by
      obtain ⟨tokens, -, -, htokens⟩ := lineTokens_output hargs depth
      rw [lines, List.forall_mem_singleton]
      refine whole_of_eq (reserved "show" :: sign '(' :: (tokens ++ [sign ')', sign '|'])) ?_
      intro after
      rw [htokens]
      simp only [List.cons_append, List.append_assoc, List.nil_append]
  | .conditional branches, ⟨_, harms⟩, depth => by
      rw [lines]
      exact whole_branchLines harms depth (by decide)
  | .loop c body, ⟨hc, hbody⟩, depth => by
      have hloop : "loop" ∈ keywords := by decide
      rw [lines, List.forall_mem_cons, List.forall_mem_append, List.forall_mem_singleton]
      exact ⟨whole_header hloop hc.composed depth, whole_bodyLines hbody (depth + 1),
        whole_bar depth⟩
  | .stop, _, depth => by
      rw [lines, List.forall_mem_singleton]
      exact whole_of_eq [reserved "stop", sign '|'] (lineTokens_keyword rfl (by decide) rfl depth)

/-- Every line of a readable body is whole. -/
theorem whole_bodyLines : ∀ {body : List Statement}, ReadableBody body → ∀ depth,
    ∀ line ∈ bodyLines depth body, Whole line
  | [], _, _ => nofun
  | s :: rest, ⟨hs, hrest⟩, depth => by
      rw [bodyLines, List.forall_mem_append]
      exact ⟨whole_lines hs depth, whole_bodyLines hrest depth⟩

/-- Every line of readable arms is whole. -/
theorem whole_branchLines : ∀ {arms : List (Branch Statement)}, ReadableArms arms → ∀ depth
    {word : String}, word ∈ keywords → ∀ line ∈ branchLines depth word arms, Whole line
  | [], _, _, _, _ => nofun
  | ⟨condition, body⟩ :: rest, ⟨hguard, _, hbody, _, hrest⟩, depth, word, hword => by
      have helseif : "elseif" ∈ keywords := by decide
      have hbody' := whole_bodyLines hbody (depth + 1)
      have hrest' := whole_branchLines hrest depth helseif
      cases condition with
      | none =>
          have hline : "else :".toList = "else".toList ++ [' ', ':'] := rfl
          have helse := whole_of_eq [reserved "else", sign ':']
            (lineTokens_keyword hline (by decide) rfl depth)
          rw [branchLines, List.forall_mem_cons, List.forall_mem_append, List.forall_mem_cons]
          exact ⟨helse, hbody', whole_bar depth, hrest'⟩
      | some c =>
          have hheader := whole_header hword (hguard c rfl).composed depth
          rw [branchLines, List.forall_mem_cons, List.forall_mem_append, List.forall_mem_cons]
          exact ⟨hheader, hbody', whole_bar depth, hrest'⟩

end

/-- Lines that are whole have the same tokens in front of any others. -/
theorem lineTokens_append {before : List String} (h : ∀ line ∈ before, Whole line)
    (after : List String) :
    lineTokens (before ++ after) = lineTokens before ++ lineTokens after := by
  induction before with
  | nil => rw [lineTokens_nil, List.nil_append, List.nil_append]
  | cons line before ih =>
      obtain ⟨hline, hbefore⟩ := List.forall_mem_cons.mp h
      rw [List.cons_append, hline, ih hbefore, hline before, List.append_assoc]

/-- Wherever a written program is cut between two lines, its tokens are those of the lines before
and those of the lines behind. -/
theorem lineTokens_cut {program : List Statement} (h : ReadableBody program) {depth : Nat}
    {before after : List String} (hcut : bodyLines depth program = before ++ after) :
    lineTokens (bodyLines depth program) = lineTokens before ++ lineTokens after := by
  have hwhole := whole_bodyLines h depth
  rw [hcut, List.forall_mem_append] at hwhole
  rw [hcut, lineTokens_append hwhole.1]

end Statement

end Sting
