import Sting.Proofs.Token.Positions
import Sting.Proofs.Token.Spelling

/-!
# Comments

A comment at the end of a line changes nothing but the offsets of the tokens behind it. What stands
before a comment is cut as before a newline, because neither continues a piece that has begun. There
are two exceptions: a comment that has begun goes on, and a quoted text that has begun goes on up to
the next quote. The first makes no difference to the tokens, and the second shows in a quoted text
that covers the place.
-/

namespace Sting

open Text

namespace Token

/-- The byte is one of the token. -/
def Covers (t : Token) (offset : Nat) : Prop :=
  t.position.offset ≤ offset ∧ offset < t.position.offset + t.text.utf8ByteSize

/-- All bytes of the token are before the given one. -/
def LiesBefore (t : Token) (offset : Nat) : Prop :=
  t.position.offset + t.text.utf8ByteSize ≤ offset

instance (t : Token) (offset : Nat) : Decidable (t.Covers offset) :=
  inferInstanceAs (Decidable (_ ∧ _))

instance (t : Token) (offset : Nat) : Decidable (t.LiesBefore offset) :=
  inferInstanceAs (Decidable (_ ≤ _))

end Token

namespace Text

/-! ## Cutting before a comment or a newline -/

/-- The text begins with a comment or a newline. -/
def Interrupts (text : List Char) : Prop :=
  text.head? = some '#' ∨ text.head? = some '\n'

variable {front rest text tail : List Char}

/-- A comment or a newline extends no token. -/
theorem Interrupts.breaks (h : Interrupts tail) : Breaks tail := by
  intro c hc
  rcases h with h | h
  all_goals
    rw [h] at hc
    cases hc
    decide

/-- A comment or a newline does not go on a symbol of two characters. -/
theorem Interrupts.ne (h : Interrupts tail) :
    (∀ rest, tail ≠ '=' :: rest) ∧ ∀ rest, tail ≠ '&' :: rest := by
  rcases h with h | h
  all_goals
    constructor
    all_goals
      rintro rest rfl
      cases h

/-- A run ends at the first character that does not continue it. -/
theorem span_of_mem {p : Char → Bool} {c : Char} (hmem : c ∈ front) (hc : p c = false)
    (rest : List Char) :
    (front ++ rest).takeWhile p = front.takeWhile p ∧
      (front ++ rest).dropWhile p = front.dropWhile p ++ rest := by
  induction front with
  | nil => cases hmem
  | cons d front ih =>
      by_cases hd : p d = true
      · have hne : c ≠ d := by
          rintro rfl
          simp [hc] at hd
        simp [hd, ih (List.mem_of_ne_of_mem hne hmem)]
      · simp [hd]

/-- The characters of a text differ from one that it does not have. -/
theorem bne_of_not_mem {c d : Char} (h : c ∉ text) (hd : d ∈ text) : (d != c) = true := by
  rw [bne_iff_ne]
  rintro rfl
  exact h hd

/-- A quote that nothing closes begins no quoted text. -/
theorem cutQuoted?_eq_none (h : quote ∉ text) : cutQuoted? text = none := by
  have hdrop : text.dropWhile (· != quote) = [] :=
    List.dropWhile_eq_nil_iff.mpr fun c hc => bne_of_not_mem h hc
  rw [cutQuoted?, hdrop]

/-- A word that ends before a break is the same without what follows the break. -/
theorem cutWord_before (h : Breaks tail) :
    cutWord (text ++ tail) = ((cutWord text).1, (cutWord text).2 ++ tail) := by
  obtain ⟨htake, hdrop⟩ := span_append text h.word
  rw [cutWord, cutWord, htake, hdrop]

/-- A number that ends before a break is the same without what follows: a point counts only with a
digit behind it. -/
theorem cutNumber_before (h : Breaks tail) :
    cutNumber (text ++ tail) = ((cutNumber text).1, (cutNumber text).2 ++ tail) := by
  obtain ⟨htake, hdrop⟩ := span_append text h.digit
  unfold cutNumber
  rw [htake, hdrop]
  dsimp only
  cases text.dropWhile isDecimalDigit with
  | nil =>
      rw [List.nil_append]
      split
      · exact absurd rfl (h.head_ne (by decide))
      · rfl
  | cons d rest =>
      by_cases hd : d = '.'
      · subst hd
        obtain ⟨htake', hdrop'⟩ := span_append rest h.digit
        simp only [List.cons_append, htake', hdrop']
        split <;> rfl
      · simp [hd]

end Text

namespace Piece

/-- A symbol is the same without the comment or newline that follows it. -/
theorem cutSymbol_before {c : Char} {rest tail : List Char} (h : Interrupts tail) :
    cutSymbol c (rest ++ tail) = ((cutSymbol c rest).1, (cutSymbol c rest).2 ++ tail) := by
  unfold cutSymbol
  split
  · rfl
  · split
    · cases rest with
      | nil =>
          rw [List.nil_append]
          split
          · exact absurd rfl (h.ne.1 _)
          · rfl
      | cons d rest =>
          by_cases hd : d = '='
          · simp [hd]
          · simp [hd]
    · by_cases hc : c = '&'
      · cases rest with
        | nil =>
            rw [List.nil_append]
            split
            · exact absurd rfl (h.ne.2 _)
            · simp
        | cons d rest =>
            by_cases hd : d = '&'
            · simp [hc, hd]
            · simp [hd]
      · simp [hc]

/-- A piece is cut the same before a comment or a newline, unless it is a comment or a quoted text
itself and goes on. -/
theorem cut_before {c : Char} {rest tail : List Char} (h : Interrupts tail)
    (hcomment : c = '#' → '\n' ∈ rest) (hquote : c = quote → quote ∈ rest ∨ quote ∉ tail) :
    cut c (rest ++ tail) = ((cut c rest).1, (cut c rest).2 ++ tail) := by
  unfold cut
  split
  · rename_i hc
    have hstop : ('\n' != '\n') = false := rfl
    obtain ⟨htake, hdrop⟩ := span_of_mem (p := (· != '\n')) (hcomment hc) hstop tail
    rw [htake, hdrop]
  · split
    · rename_i hc
      by_cases hmem : quote ∈ rest
      · obtain ⟨content, behind, rfl, hcontent⟩ := List.eq_append_cons_of_mem hmem
        rw [List.append_assoc, List.cons_append, cutQuoted?_append hcontent,
          cutQuoted?_append hcontent]
      · have hnone : quote ∉ rest ++ tail :=
          List.not_mem_append hmem ((hquote hc).resolve_left hmem)
        rw [cutQuoted?_eq_none hmem, cutQuoted?_eq_none hnone]
    · split
      · rw [← List.cons_append, cutNumber_before h.breaks]
      · split
        · rw [← List.cons_append, cutWord_before h.breaks]
        · exact cutSymbol_before h

/-! ## What goes on -/

/-- A comment on the last line takes all that is left. -/
theorem scan_comment {rest : List Char} (h : '\n' ∉ rest) :
    scan ('#' :: rest) = [.comment ('#' :: rest)] := by
  have hrun : ∀ c ∈ rest, (c != '\n') = true := fun c hc => bne_of_not_mem h hc
  rw [scan_cons, cut, if_pos rfl, List.takeWhile_eq_self_iff.mpr hrun,
    List.dropWhile_eq_nil_iff.mpr hrun, scan]

/-- The comment is a piece, and so is the newline behind it. -/
theorem scan_comment_newline {rest : List Char} (h : '\n' ∉ rest) (behind : List Char) :
    scan ('#' :: (rest ++ '\n' :: behind)) =
      .comment ('#' :: rest) :: .stray '\n' :: scan behind := by
  have hstop : ∀ c ∈ ('\n' :: behind).head?, (c != '\n') = false := by simp
  obtain ⟨htake, hdrop⟩ := span_run (fun c hc => bne_of_not_mem h hc) hstop
  rw [scan_cons, cut, if_pos rfl, htake, hdrop, scan_cons]
  rfl

/-- A quote is stray only where nothing closes it. -/
theorem cut_eq_stray_iff {c : Char} {rest : List Char} :
    (cut c rest).1 = .stray quote ↔ c = quote ∧ quote ∉ rest := by
  constructor
  · intro h
    have happend := append_cut c rest
    rw [h] at happend
    obtain ⟨rfl, -⟩ := List.cons.inj happend
    refine ⟨rfl, ?_⟩
    intro hmem
    obtain ⟨content, behind, rfl, hcontent⟩ := List.eq_append_cons_of_mem hmem
    rw [cut, if_neg (by decide), if_pos rfl, cutQuoted?_append hcontent] at h
    cases h
  · rintro ⟨rfl, hnone⟩
    rw [cut, if_neg (by decide), if_pos rfl, cutQuoted?_eq_none hnone]

/-- The tokens of a list of pieces are those of the first piece and those of the others. -/
theorem tokens_cons (p : Position) (piece : Piece) (pieces : List Piece) :
    tokens p (piece :: pieces) = tokens p [piece] ++ tokens (p.after piece.text) pieces := by
  have h := tokens_append p [piece] pieces
  rwa [List.singleton_append, List.flatMap_singleton] at h

/-! ## Lines that end with a comment -/

/-- Nothing, or a comment without the newline that ends it. -/
structure IsRemark (text : List Char) : Prop where
  head : ∀ c ∈ text.head?, c = '#'
  line : '\n' ∉ text

section IsRemark

variable {gap behind : List Char}

/-- A line need not have a comment. -/
theorem isRemark_nil : IsRemark [] where
  head := by simp
  line := by simp

/-- A number sign and anything up to the end of the line is a comment. -/
theorem isRemark_cons {rest : List Char} (h : '\n' ∉ rest) : IsRemark ('#' :: rest) where
  head := by simp
  line := by simp [h]

/-- In front of a newline a comment interrupts what stands before it. -/
theorem IsRemark.interrupts (h : IsRemark gap) : Interrupts (gap ++ '\n' :: behind) := by
  cases gap with
  | nil => exact .inr rfl
  | cons c rest =>
      obtain rfl := h.head c rfl
      exact .inl rfl

/-- A comment and its newline yield no token and move those behind them. -/
theorem IsRemark.tokens_scan_newline (h : IsRemark gap) (p : Position) (behind : List Char) :
    tokens p (scan (gap ++ '\n' :: behind)) = tokens (p.after (gap ++ ['\n'])) (scan behind) := by
  cases gap with
  | nil =>
      rw [List.nil_append, scan_cons]
      rfl
  | cons c rest =>
      obtain rfl := h.head c rfl
      have hline : '\n' ∉ rest := fun hmem => h.line (List.mem_cons_of_mem _ hmem)
      rw [List.cons_append, scan_comment_newline hline, Position.after_append]
      rfl

/-- The tokens of a line that ends with a comment are those before the comment. The comment can be
the end of one that begins in `s`. -/
theorem tokens_scan_line (hgap : IsRemark gap) {s : List Char}
    (hquote : .stray quote ∈ scan s → quote ∉ gap ++ '\n' :: behind) (p : Position) :
    tokens p (scan (s ++ (gap ++ '\n' :: behind))) =
      tokens p (scan s) ++ tokens (p.after (s ++ (gap ++ ['\n']))) (scan behind) := by
  -- The cuts of `s` stay the same up to a comment that is open at its end, which is then longer.
  induction s using scan.induct generalizing p with
  | case1 =>
      rw [List.nil_append, hgap.tokens_scan_newline, scan]
      rfl
  | case2 c rest ih =>
      by_cases hcomment : c = '#' ∧ '\n' ∉ rest
      · obtain ⟨rfl, hline⟩ := hcomment
        have hlonger : IsRemark ('#' :: (rest ++ gap)) :=
          isRemark_cons (List.not_mem_append hline hgap.line)
        have hscan := hlonger.tokens_scan_newline p behind
        rw [scan_comment hline]
        simpa [tokens] using hscan
      · rw [scan_cons] at hquote
        have hcut : cut c (rest ++ (gap ++ '\n' :: behind)) =
            ((cut c rest).1, (cut c rest).2 ++ (gap ++ '\n' :: behind)) := by
          refine cut_before hgap.interrupts ?_ ?_
          · intro hc
            by_contra hline
            exact hcomment ⟨hc, hline⟩
          · intro hc
            by_cases hmem : quote ∈ rest
            · exact .inl hmem
            · have hstray := cut_eq_stray_iff.mpr ⟨hc, hmem⟩
              exact .inr (hquote (hstray ▸ List.mem_cons_self))
        have hrest := ih (fun h => hquote (List.mem_cons_of_mem _ h)) (p.after (cut c rest).1.text)
        rw [List.cons_append, scan_cons, hcut, scan_cons, tokens_cons, hrest,
          tokens_cons p (cut c rest).1 (scan _), List.append_assoc, ← Position.after_append,
          ← List.append_assoc (cut c rest).1.text, append_cut]

end IsRemark

/-- Where a quote is stray, the next quote behind an interruption makes a quoted text of all between
them. -/
theorem exists_covering {s tail : List Char} (htail : Interrupts tail) (hmem : quote ∈ tail)
    (hstray : .stray quote ∈ scan s) (p : Position) :
    ∃ t ∈ tokens p (scan (s ++ tail)), t.kind = .text ∧ t.Covers (p.offset + byteSize s) := by
  -- The cuts of `s` stay the same up to the stray quote, since comments before it end before it.
  induction s using scan.induct generalizing p with
  | case1 =>
      rw [scan] at hstray
      cases hstray
  | case2 c rest ih =>
      rw [scan_cons] at hstray
      by_cases hquote : c = quote ∧ quote ∉ rest
      · obtain ⟨rfl, hrest⟩ := hquote
        obtain ⟨content, behind, rfl, hcontent⟩ := List.eq_append_cons_of_mem hmem
        have hcut : cut quote (rest ++ (content ++ quote :: behind)) =
            (.token .text (quote :: (rest ++ content) ++ [quote]), behind) := by
          rw [cut, if_neg (by decide), if_pos rfl, ← List.append_assoc,
            cutQuoted?_append (List.not_mem_append hrest hcontent)]
        rw [List.cons_append, scan_cons, hcut]
        refine ⟨_, List.mem_cons_self, rfl, Nat.le_add_right _ _, ?_⟩
        change _ < p.offset + byteSize _
        simp only [byteSize_cons, byteSize_append]
        have := Char.utf8Size_pos quote
        omega
      · have hinner : .stray quote ∈ scan (cut c rest).2 := by
          rcases List.mem_cons.mp hstray with hpiece | hinner
          · exact absurd (cut_eq_stray_iff.mp hpiece.symm) hquote
          · exact hinner
        have hcut : cut c (rest ++ tail) = ((cut c rest).1, (cut c rest).2 ++ tail) := by
          refine cut_before htail ?_ ?_
          · rintro rfl
            by_contra hline
            have hscan := scan_comment hline
            rw [scan_cons] at hscan
            rw [(List.cons.inj hscan).2] at hinner
            cases hinner
          · intro hc
            by_contra hnone
            exact hquote ⟨hc, fun hmem => hnone (.inl hmem)⟩
        obtain ⟨t, ht, hkind, hcovers⟩ := ih hinner (p.after (cut c rest).1.text)
        rw [List.cons_append, scan_cons, hcut, tokens_cons]
        refine ⟨t, List.mem_append_right _ ht, hkind, ?_⟩
        rwa [Position.offset_after, Nat.add_assoc, ← byteSize_append, append_cut] at hcovers

end Piece

/-! ## Texts that are moved -/

/-- The place after `k` more bytes of the line were put in somewhere before. -/
def Position.moved (p : Position) (k : Nat) : Position :=
  { p with offset := p.offset + k }

/-- The token after `k` more bytes of the line were put in somewhere before. -/
def Token.moved (t : Token) (k : Nat) : Token :=
  { t with position := t.position.moved k }

namespace Position

/-- Bytes that were put in before do not change how a character is counted. -/
theorem moved_next (p : Position) (k : Nat) (c : Char) :
    (p.moved k).next c = (p.next c).moved k := by
  have hoffset : p.offset + k + c.utf8Size = p.offset + c.utf8Size + k := by omega
  unfold next
  split <;> simp [moved, hoffset]

/-- Bytes that were put in before do not change how a text is counted. -/
theorem moved_after (p : Position) (k : Nat) (text : List Char) :
    (p.moved k).after text = (p.after text).moved k := by
  induction text generalizing p with
  | nil => rfl
  | cons c text ih => rw [after_cons, after_cons, moved_next, ih]

/-- At the beginning of a line only the offset tells what the line before was like. -/
theorem after_newline (p : Position) {text : List Char} (h : '\n' ∉ text) :
    p.after (text ++ ['\n']) = (p.next '\n').moved (byteSize text) := by
  induction text generalizing p with
  | nil => rfl
  | cons c text ih =>
      simp only [List.mem_cons, not_or] at h
      have hc : c ≠ '\n' := fun hc => h.1 hc.symm
      rw [List.cons_append, after_cons, ih _ h.2]
      simp only [next, if_neg hc, if_true, moved, byteSize_cons]
      congr 1
      omega

end Position

/-- All tokens of a text move by the same bytes. -/
theorem Piece.tokens_moved (p : Position) (k : Nat) (pieces : List Piece) :
    tokens (p.moved k) pieces = (tokens p pieces).map (·.moved k) := by
  induction pieces generalizing p with
  | nil => rfl
  | cons piece pieces ih =>
      have hrest := ih (p.after piece.text)
      rw [← Position.moved_after] at hrest
      cases piece with
      | token kind text => exact congrArg (_ :: ·) hrest
      | comment text => exact hrest
      | stray c => exact hrest

namespace Token

@[simp] theorem moved_zero (t : Token) : t.moved 0 = t := rfl

/-- The tokens of a source end within it. -/
theorem liesBefore_of_mem_scan {s : String} {t : Token} (h : t ∈ Token.scan s) :
    t.LiesBefore s.utf8ByteSize := by
  obtain ⟨before, after, hsource, hposition⟩ := exists_split_of_mem_scan h
  rw [LiesBefore, hposition, Position.offset_after_start, byteSize_toList, hsource,
    String.utf8ByteSize_append, String.utf8ByteSize_append]
  exact Nat.le_add_right _ _

/-- Tokens behind the newline do not lie before it. -/
theorem offset_lt_of_mem_tokens {s : List Char} {pieces : List Piece} {t : Token}
    (h : t ∈ Piece.tokens (Position.start.after (s ++ ['\n'])) pieces) :
    byteSize s < t.position.offset := by
  have hle := Piece.offset_le_of_mem_tokens h
  have hnewline : byteSize ['\n'] = 1 := rfl
  rw [Position.offset_after_start, byteSize_append, hnewline] at hle
  exact hle

/-- The tokens of a text in which a line ends with a comment or with nothing more. -/
theorem tokens_of_line {s gap behind : List Char} (hgap : Piece.IsRemark gap)
    (hquote : .stray quote ∈ Piece.scan s → quote ∉ gap ++ '\n' :: behind) :
    Piece.tokens .start (Piece.scan (s ++ (gap ++ '\n' :: behind))) =
      Piece.tokens .start (Piece.scan s) ++
        (Piece.tokens (Position.start.after (s ++ ['\n'])) (Piece.scan behind)).map
          (·.moved (byteSize gap)) := by
  rw [Piece.tokens_scan_line hgap hquote, Position.after_append, Position.after_newline _ hgap.line,
    Piece.tokens_moved, Position.after_append]
  rfl

/-- A stray quote is not closed behind a byte that no quoted text covers. -/
theorem quote_not_mem_of_not_covers {s tail : List Char} (htail : Interrupts tail)
    (hspan : ∀ t ∈ Piece.tokens .start (Piece.scan (s ++ tail)), t.kind = .text →
      ¬ t.Covers (byteSize s))
    (hstray : .stray quote ∈ Piece.scan s) : quote ∉ tail := by
  intro hmem
  obtain ⟨t, ht, hkind, hcovers⟩ := Piece.exists_covering htail hmem hstray .start
  rw [Position.start, Nat.zero_add] at hcovers
  exact hspan t ht hkind hcovers

/-- With and without the comment the tokens before it are those of the text before it. -/
theorem exists_scan_eq_append {s c r : String} (hc : '\n' ∉ c.toList)
    (hspan : ∀ t ∈ Token.scan (s ++ "#" ++ c ++ "\n" ++ r), t.kind = .text →
      ¬ t.Covers s.utf8ByteSize) :
    ∃ behind, Token.scan (s ++ "\n" ++ r) = Token.scan s ++ behind ∧
      Token.scan (s ++ "#" ++ c ++ "\n" ++ r) =
        Token.scan s ++ behind.map (·.moved ("#" ++ c).utf8ByteSize) ∧
      ∀ t ∈ behind, s.utf8ByteSize < t.position.offset := by
  have hgap : Piece.IsRemark ('#' :: c.toList) := Piece.isRemark_cons hc
  have hsize : byteSize ('#' :: c.toList) = ("#" ++ c).utf8ByteSize := by
    rw [← byteSize_toList, String.toList_append]
    rfl
  have hplain : (s ++ "\n" ++ r).toList = s.toList ++ ([] ++ '\n' :: r.toList) := by
    simp
  have hcommented : (s ++ "#" ++ c ++ "\n" ++ r).toList =
      s.toList ++ ('#' :: c.toList ++ '\n' :: r.toList) := by
    simp
  rw [Token.scan, hcommented, ← byteSize_toList] at hspan
  have hquote := quote_not_mem_of_not_covers hgap.interrupts hspan
  refine ⟨Piece.tokens (Position.start.after (s.toList ++ ['\n'])) (Piece.scan r.toList),
    ?_, ?_, ?_⟩
  · have hscan := tokens_of_line Piece.isRemark_nil
      fun hstray hmem => hquote hstray (List.mem_append_right _ hmem)
    simpa only [Token.scan, hplain, byteSize_nil, moved_zero, List.map_id'] using hscan
  · rw [Token.scan, hcommented, tokens_of_line hgap hquote, hsize, Token.scan]
  · intro t ht
    have hlt := offset_lt_of_mem_tokens ht
    rwa [byteSize_toList] at hlt

/-- A comment at the end of a line leaves the tokens as they are, and moves those behind it by the
bytes that it takes. -/
theorem scan_without_comment {s c r : String} (hc : '\n' ∉ c.toList)
    (hspan : ∀ t ∈ Token.scan (s ++ "#" ++ c ++ "\n" ++ r), t.kind = .text →
      ¬ t.Covers s.utf8ByteSize) :
    Token.scan (s ++ "#" ++ c ++ "\n" ++ r) =
        (Token.scan (s ++ "\n" ++ r)).map
          (fun t => if t.LiesBefore s.utf8ByteSize then t else t.moved ("#" ++ c).utf8ByteSize) ∧
      ∀ t ∈ Token.scan (s ++ "\n" ++ r),
        t.LiesBefore s.utf8ByteSize ∨ s.utf8ByteSize ≤ t.position.offset := by
  obtain ⟨behind, hplain, hcommented, hbehind⟩ := exists_scan_eq_append hc hspan
  have hbefore : ∀ t ∈ Token.scan s, t.LiesBefore s.utf8ByteSize :=
    fun t ht => liesBefore_of_mem_scan ht
  rw [hplain, hcommented]
  constructor
  · rw [List.map_append, List.map_congr_left fun t ht => if_pos (hbefore t ht), List.map_id']
    refine congrArg _ (List.map_congr_left ?_)
    intro t ht
    have hlt := hbehind t ht
    have hnot : ¬ t.LiesBefore s.utf8ByteSize := by
      rw [LiesBefore]
      omega
    rw [if_neg hnot]
  · rw [List.forall_mem_append]
    exact ⟨fun t ht => .inl (hbefore t ht), fun t ht => .inr (hbehind t ht).le⟩

/-- Quotes and comments before the comment, inside it and behind it. -/
theorem scan_without_comment_quotes :
    let s := "# it's\nx = 'a#é' | y"
    let c := " 'b # "
    let r := "= 'c'"
    '\n' ∉ c.toList ∧
      (∀ t ∈ Token.scan (s ++ "#" ++ c ++ "\n" ++ r), t.kind = .text →
        ¬ t.Covers s.utf8ByteSize) ∧
      Token.scan (s ++ "#" ++ c ++ "\n" ++ r) =
        (Token.scan (s ++ "\n" ++ r)).map
          (fun t => if t.LiesBefore s.utf8ByteSize then t else t.moved ("#" ++ c).utf8ByteSize) ∧
      ∀ t ∈ Token.scan (s ++ "\n" ++ r),
        t.LiesBefore s.utf8ByteSize ∨ s.utf8ByteSize ≤ t.position.offset := by
  intro s c r
  have hc : '\n' ∉ c.toList := by decide +kernel
  have hspan : ∀ t ∈ Token.scan (s ++ "#" ++ c ++ "\n" ++ r), t.kind = .text →
      ¬ t.Covers s.utf8ByteSize := by
    decide +kernel
  exact ⟨hc, hspan, scan_without_comment hc hspan⟩

end Token

end Sting
