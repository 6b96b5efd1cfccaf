import Sting.Proofs.Token.Comments

/-!
# Characters outside tokens

A character that no token and no comment holds is passed over without notice. Every character of a
source belongs to exactly one piece, so such a character is a stray piece, and what is cut off as a
stray piece means nothing in the language: it is no letter, digit or sign, no quote that another one
closes, and no half of a conjunction.
-/

namespace Sting

open Text

namespace Piece

/-! ## The piece of a byte -/

/-- The piece is one of the pieces of a text, and the byte is one of its bytes. -/
def Holds (pieces : List Piece) (piece : Piece) (offset : Nat) : Prop :=
  ∃ before after, pieces = before ++ piece :: after ∧
    byteSize (before.flatMap text) ≤ offset ∧
      offset < byteSize (before.flatMap text) + byteSize piece.text

section Holds

variable {pieces : List Piece} {piece piece' : Piece} {offset : Nat}

/-- A place in a text is a place in one of its pieces. -/
theorem exists_split_at {before after : List Char} {c : Char}
    (h : pieces.flatMap text = before ++ c :: after) :
    ∃ front piece back inner rest, pieces = front ++ piece :: back ∧
      before = front.flatMap text ++ inner ∧ piece.text = inner ++ c :: rest ∧
        after = rest ++ back.flatMap text := by
  induction pieces generalizing before with
  | nil => simp at h
  | cons piece pieces ih =>
      rw [List.flatMap_cons] at h
      have hlater {middle : List Char} (hbefore : before = piece.text ++ middle)
          (hpieces : pieces.flatMap text = middle ++ c :: after) :
          ∃ front piece' back inner rest, piece :: pieces = front ++ piece' :: back ∧
            before = front.flatMap text ++ inner ∧ piece'.text = inner ++ c :: rest ∧
              after = rest ++ back.flatMap text := by
        obtain ⟨front, piece', back, inner, rest, rfl, rfl, htext, hafter⟩ := ih hpieces
        refine ⟨piece :: front, piece', back, inner, rest, rfl, ?_, htext, hafter⟩
        rw [hbefore, List.flatMap_cons, List.append_assoc]
      rcases List.append_eq_append_iff.mp h with ⟨middle, hbefore, hpieces⟩ | ⟨tail, htext, htail⟩
      · exact hlater hbefore hpieces
      · cases tail with
        | nil =>
            rw [List.append_nil] at htext
            exact @hlater [] (by rw [htext, List.append_nil]) htail.symm
        | cons d tail =>
            obtain ⟨rfl, hafter⟩ := List.cons.inj htail
            exact ⟨[], piece, pieces, before, tail, rfl, rfl, htext, hafter⟩

/-- A piece holds the byte of each of its characters. -/
theorem holds_of_split {front back : List Piece} {inner rest : List Char} {c : Char}
    (h : piece.text = inner ++ c :: rest) :
    Holds (front ++ piece :: back) piece (byteSize (front.flatMap text ++ inner)) := by
  have hpos := Char.utf8Size_pos c
  refine ⟨front, back, rfl, ?_, ?_⟩
  · rw [byteSize_append]
    exact Nat.le_add_right _ _
  · rw [h, byteSize_append, byteSize_append, byteSize_cons]
    omega

/-- A piece holds the byte that it begins with. -/
theorem holds_first (front back : List Piece) {rest : List Char} {c : Char}
    (h : piece.text = c :: rest) :
    Holds (front ++ piece :: back) piece (byteSize (front.flatMap text)) := by
  have hfirst : Holds (front ++ piece :: back) piece (byteSize (front.flatMap text ++ [])) :=
    holds_of_split h
  rwa [List.append_nil] at hfirst

/-- A place in a source is a place in the piece that holds it. -/
theorem exists_piece_at {source before after : List Char} {c : Char}
    (h : source = before ++ c :: after) :
    ∃ front piece back inner rest, scan source = front ++ piece :: back ∧
      before = front.flatMap text ++ inner ∧ piece.text = inner ++ c :: rest ∧
        after = rest ++ back.flatMap text ∧ Holds (scan source) piece (byteSize before) := by
  obtain ⟨front, piece, back, inner, rest, hscan, rfl, htext, hafter⟩ :=
    exists_split_at ((flatMap_text_scan source).trans h)
  refine ⟨front, piece, back, inner, rest, hscan, rfl, htext, hafter, ?_⟩
  rw [hscan]
  exact holds_of_split htext

/-- No byte belongs to two pieces. -/
theorem Holds.unique (h : Holds pieces piece offset) (h' : Holds pieces piece' offset) :
    piece = piece' := by
  obtain ⟨before, after, rfl, hle, hlt⟩ := h
  obtain ⟨before', after', hpieces, hle', hlt'⟩ := h'
  -- Of two different pieces one lies before the other, and then all its bytes do.
  rcases List.append_eq_append_iff.mp hpieces with ⟨middle, rfl, hrest⟩ | ⟨middle, rfl, hrest⟩
  · cases middle with
    | nil => exact (List.cons.inj hrest).1
    | cons other middle =>
        obtain ⟨rfl, -⟩ := List.cons.inj hrest
        simp only [List.flatMap_append, List.flatMap_cons, byteSize_append] at hle'
        omega
  · cases middle with
    | nil => exact (List.cons.inj hrest).1.symm
    | cons other middle =>
        obtain ⟨rfl, -⟩ := List.cons.inj hrest
        simp only [List.flatMap_append, List.flatMap_cons, byteSize_append] at hle
        omega

/-- The tokens that cover a byte are the pieces of kind token that hold it. -/
theorem exists_covers_iff {source : String} :
    (∃ t ∈ Token.scan source, t.Covers offset) ↔
      ∃ kind text, Holds (scan source.toList) (.token kind text) offset := by
  constructor
  · rintro ⟨t, ht, hcovers⟩
    obtain ⟨before, after, hpieces, hposition⟩ := exists_of_mem_tokens ht
    rw [Token.Covers, hposition, Position.offset_after_start, ← byteSize_toList] at hcovers
    exact ⟨t.kind, t.text.toList, before, after, hpieces, hcovers⟩
  · rintro ⟨kind, text, before, after, hpieces, hcovers⟩
    refine ⟨⟨kind, String.ofList text, Position.start.after (before.flatMap Piece.text)⟩, ?_, ?_⟩
    · rw [Token.scan, hpieces, tokens_append]
      exact List.mem_append_right _ List.mem_cons_self
    · rw [Token.Covers, Position.offset_after_start]
      exact hcovers

end Holds

/-! ## What is cut off as a stray piece -/

/-- The signs of the language, and the one that begins a comment. Quotes and ampersands are signs
only in pairs. -/
def signs : List Char :=
  ['#', '(', ')', ':', ',', '|', '-', '+', '*', '/', '%', '^', '=', '!', '<', '>']

/-- A character that has no meaning before the given text. -/
structure IsStray (c : Char) (rest : List Char) : Prop where
  /-- It is no ASCII letter, no ASCII digit and no underscore. -/
  word : isWordChar c = false
  /-- It is no digit of any script. -/
  digit : isDecimalDigit c = false
  sign : c ∉ signs
  /-- A quote is not closed. -/
  quote : c = quote → quote ∉ rest
  /-- An ampersand is not doubled. -/
  ampersand : c = '&' → rest.head? ≠ some '&'

/-- The signs are the symbols of one character and the sign of a comment. -/
theorem mem_signs_iff {c : Char} :
    c ∈ signs ↔ c = '#' ∨ isDelimiter c = true ∨ isExtensible c = true := by
  simp only [signs, isDelimiter, isExtensible, List.mem_cons, List.not_mem_nil, Bool.or_eq_true,
    beq_iff_eq, or_false, or_assoc]

/-- Digits aside, a word goes on with the characters that it can begin with. -/
theorem isWordChar_eq_false_iff {c : Char} (h : isDecimalDigit c = false) :
    isWordChar c = false ↔ isWordStart c = false := by
  have hascii : c.isDigit = false := by
    rw [← Bool.not_eq_true] at h ⊢
    exact fun hdigit => h (isDecimalDigit_of_isDigit hdigit)
  simp [isWordChar, isWordStart, Char.isAlphanum, hascii]

/-- A character is stray where no symbol begins with it; an ampersand needs a second one. -/
theorem cutSymbol_fst_eq_stray_iff {c d : Char} {rest : List Char} :
    (cutSymbol c rest).1 = .stray d ↔ c = d ∧ isDelimiter c = false ∧ isExtensible c = false ∧
      (c = '&' → rest.head? ≠ some '&') := by
  unfold cutSymbol
  split
  · simp [*]
  · rename_i hdelimiter
    split
    · split <;> simp [*]
    · rename_i hextensible
      rw [Bool.not_eq_true] at hdelimiter hextensible
      split
      · simp
      · rename_i hne
        have hampersand : c = '&' → rest.head? ≠ some '&' := by
          intro hc hhead
          obtain ⟨tail, rfl⟩ := List.head?_eq_some_iff.mp hhead
          exact hne tail hc rfl
        exact ⟨fun h => ⟨stray.inj h, hdelimiter, hextensible, hampersand⟩, fun h => congrArg _ h.1⟩

/-- Stray pieces are exactly the characters without a meaning. -/
theorem cut_fst_eq_stray_iff {c d : Char} {rest : List Char} :
    (cut c rest).1 = .stray d ↔ c = d ∧ IsStray c rest := by
  unfold cut
  split
  · rename_i hc
    subst hc
    exact iff_of_false nofun fun h => h.2.sign List.mem_cons_self
  · rename_i hcomment
    split
    · rename_i hc
      subst hc
      split
      · rename_i hcut
        have hmem : quote ∈ rest := by simp [← append_of_cutQuoted? hcut]
        exact iff_of_false nofun fun h => h.2.quote rfl hmem
      · rename_i hcut
        have hnone : quote ∉ rest := by
          intro hmem
          obtain ⟨content, behind, rfl, hcontent⟩ := List.eq_append_cons_of_mem hmem
          rw [cutQuoted?_append hcontent] at hcut
          cases hcut
        have hstray : IsStray quote rest :=
          ⟨by decide, by decide, by decide, fun _ => hnone, fun h => absurd h (by decide)⟩
        exact ⟨fun h => ⟨stray.inj h, hstray⟩, fun h => congrArg _ h.1⟩
    · rename_i hquote
      split
      · rename_i hdigit
        exact iff_of_false nofun fun h => Bool.noConfusion (h.2.digit.symm.trans hdigit)
      · rename_i hdigit
        rw [Bool.not_eq_true] at hdigit
        split
        · rename_i hword
          have hchar := isWordChar_of_isWordStart hword
          exact iff_of_false nofun fun h => Bool.noConfusion (h.2.word.symm.trans hchar)
        · rename_i hword
          rw [Bool.not_eq_true, ← isWordChar_eq_false_iff hdigit] at hword
          rw [cutSymbol_fst_eq_stray_iff]
          constructor
          · rintro ⟨hcd, hdelimiter, hextensible, hampersand⟩
            have hsign : c ∉ signs := by simp [mem_signs_iff, hcomment, hdelimiter, hextensible]
            exact ⟨hcd, hword, hdigit, hsign, fun h => absurd h hquote, hampersand⟩
          · rintro ⟨hcd, hstray⟩
            have hsign := hstray.sign
            simp only [mem_signs_iff, not_or, Bool.not_eq_true] at hsign
            exact ⟨hcd, hsign.2.1, hsign.2.2, hstray.ampersand⟩

/-- A piece was cut off where it stands. -/
theorem exists_cut_of_scan_eq {source : List Char} {before after : List Piece} {piece : Piece}
    (h : scan source = before ++ piece :: after) :
    ∃ c rest, source = before.flatMap text ++ c :: rest ∧ (cut c rest).1 = piece ∧
      scan (cut c rest).2 = after := by
  induction before generalizing source with
  | nil =>
      cases source with
      | nil =>
          rw [scan] at h
          cases h
      | cons c rest =>
          rw [scan_cons] at h
          obtain ⟨hpiece, hafter⟩ := List.cons.inj h
          exact ⟨c, rest, rfl, hpiece, hafter⟩
  | cons first before ih =>
      cases source with
      | nil =>
          rw [scan] at h
          cases h
      | cons c rest =>
          rw [scan_cons] at h
          obtain ⟨hfirst, hbefore⟩ := List.cons.inj h
          obtain ⟨d, rest', hsource, hpiece, hafter⟩ := ih hbefore
          refine ⟨d, rest', ?_, hpiece, hafter⟩
          rw [List.flatMap_cons, List.append_assoc, ← hsource, ← hfirst, append_cut]

/-! ## Comments -/

/-- A comment takes the rest of its line. -/
theorem cut_fst_eq_comment {c : Char} {rest text : List Char}
    (h : (cut c rest).1 = .comment text) :
    c = '#' ∧ text = (c :: rest).takeWhile (· != '\n') := by
  unfold cut at h
  split at h
  · rename_i hc
    subst hc
    cases h
    exact ⟨rfl, rfl⟩
  · split at h
    · split at h <;> cases h
    · split at h
      · cases h
      · split at h
        · cases h
        · unfold cutSymbol at h
          split at h
          · cases h
          · split at h <;> split at h <;> cases h

/-- A comment goes from its number sign to the end of the line. -/
theorem exists_line_of_scan_eq {source text : List Char} {before after : List Piece}
    (h : scan source = before ++ .comment text :: after) :
    '\n' ∉ text ∧ ∃ rest, source = before.flatMap Piece.text ++ '#' :: rest ∧
      text = ('#' :: rest).takeWhile (· != '\n') := by
  obtain ⟨c, rest, hsource, hcut, -⟩ := exists_cut_of_scan_eq h
  obtain ⟨rfl, rfl⟩ := cut_fst_eq_comment hcut
  refine ⟨?_, rest, hsource, rfl⟩
  intro hmem
  simpa using List.mem_takeWhile_imp hmem

end Piece

namespace Token

/-! ## Dropped characters -/

/-- The last character of the given beginning of a source belongs to a comment: on its line, a
number sign that lies in no token stands before it, or is itself that character. -/
def InComment (source : String) (upTo : List Char) : Prop :=
  ∃ front line, upTo = front ++ '#' :: line ∧ '\n' ∉ line ∧
    ∀ t ∈ Token.scan source, ¬ t.Covers (byteSize front)

/-- The character between the two texts is one of the source, and lies in no token and in no
comment. -/
structure Dropped (source : String) (before : List Char) (c : Char) (after : List Char) :
    Prop where
  split : source.toList = before ++ c :: after
  not_covers : ∀ t ∈ Token.scan source, ¬ t.Covers (byteSize before)
  not_inComment : ¬ InComment source (before ++ [c])

section Dropped

variable {source : String} {before after : List Char} {c : Char}

/-- A number sign outside of all tokens belongs to a comment piece. -/
theorem exists_comment_at {rest : List Char} (h : source.toList = before ++ '#' :: rest)
    (hcovers : ∀ t ∈ Token.scan source, ¬ t.Covers (byteSize before)) :
    ∃ front text back inner tail, Piece.scan source.toList = front ++ .comment text :: back ∧
      before = front.flatMap Piece.text ++ inner ∧ text = inner ++ '#' :: tail := by
  obtain ⟨front, piece, back, inner, tail, hscan, rfl, htext, -, hholds⟩ := Piece.exists_piece_at h
  cases piece with
  | token kind text =>
      obtain ⟨t, ht, hcovers'⟩ := Piece.exists_covers_iff.mpr ⟨kind, text, hholds⟩
      exact absurd hcovers' (hcovers t ht)
  | comment text => exact ⟨front, text, back, inner, tail, hscan, rfl, htext⟩
  | stray d =>
      obtain ⟨e, rest', -, hcut, -⟩ := Piece.exists_cut_of_scan_eq hscan
      obtain ⟨rfl, hstray⟩ := Piece.cut_fst_eq_stray_iff.mp hcut
      have hmem : '#' ∈ (Piece.stray e).text := by simp [htext]
      obtain rfl := List.mem_singleton.mp hmem
      exact absurd List.mem_cons_self hstray.sign

/-- The comment that a number sign belongs to goes on to the end of the line. -/
theorem holds_of_inComment (h : source.toList = before ++ c :: after)
    (hcomment : InComment source (before ++ [c])) :
    ∃ text, Piece.Holds (Piece.scan source.toList) (.comment text) (byteSize before) := by
  obtain ⟨start, line, hupTo, hline, hcovers⟩ := hcomment
  have hsource : source.toList = start ++ '#' :: (line ++ after) := by
    rw [h, List.append_cons, hupTo, List.append_assoc, List.cons_append]
  obtain ⟨front, text, back, inner, tail, hscan, rfl, htext⟩ := exists_comment_at hsource hcovers
  obtain ⟨hnewline, rest, hrest, hrun⟩ := Piece.exists_line_of_scan_eq hscan
  have hcut : '#' :: rest = inner ++ '#' :: line ++ after := by
    rw [hrest, List.append_assoc] at hsource
    simpa using List.append_cancel_left hsource
  have hinner : ∀ d ∈ inner ++ '#' :: line, (d != '\n') = true := by
    intro d hd
    refine bne_of_not_mem ?_ hd
    rw [htext] at hnewline
    simp only [List.mem_append, List.mem_cons, not_or] at hnewline ⊢
    exact ⟨hnewline.1, hnewline.2.1, hline⟩
  have hlonger : text = inner ++ '#' :: line ++ after.takeWhile (· != '\n') := by
    rw [hrun, hcut, List.takeWhile_append_of_pos hinner]
  -- The character is the last one of `inner ++ '#' :: line`, and `before` ends before it.
  have hne : inner ++ '#' :: line ≠ [] := by simp
  obtain ⟨init, last, hlast⟩ := (List.eq_nil_or_concat _).resolve_left hne
  rw [List.concat_eq_append] at hlast
  rw [List.append_assoc, hlast, ← List.append_assoc] at hupTo
  obtain ⟨rfl, hc⟩ := List.append_inj' hupTo rfl
  obtain rfl := List.singleton_inj.mp hc
  rw [hlast, List.append_assoc, List.singleton_append] at hlonger
  refine ⟨text, ?_⟩
  rw [hscan]
  exact Piece.holds_of_split hlonger

/-- A comment piece begins with a number sign outside of all tokens, and keeps to its line. -/
theorem inComment_of_holds {text : List Char} (h : source.toList = before ++ c :: after)
    (hholds : Piece.Holds (Piece.scan source.toList) (.comment text) (byteSize before)) :
    InComment source (before ++ [c]) := by
  obtain ⟨front, piece, back, inner, tail, hscan, rfl, htext, -, hpiece⟩ := Piece.exists_piece_at h
  obtain rfl := hholds.unique hpiece
  obtain ⟨hnewline, rest, -, hrun⟩ := Piece.exists_line_of_scan_eq hscan
  have hstart : Piece.Holds _ (.comment text) _ := Piece.holds_first front back hrun
  rw [← hscan] at hstart
  obtain ⟨line, hline⟩ : ∃ line, inner ++ [c] = '#' :: line := by
    change text = _ at htext
    rw [hrun, List.takeWhile_cons_of_pos rfl] at htext
    cases inner with
    | nil => exact ⟨[], congrArg (fun d => [d]) (List.cons.inj htext).1.symm⟩
    | cons d inner => exact ⟨inner ++ [c], congrArg (· :: _) (List.cons.inj htext).1.symm⟩
  refine ⟨front.flatMap Piece.text, line, ?_, ?_, ?_⟩
  · rw [List.append_assoc, hline]
  · intro hmem
    have htext' : text = '#' :: line ++ tail := by
      rw [← hline, List.append_assoc]
      exact htext
    refine hnewline ?_
    simp [htext', hmem]
  · intro t ht hcovers
    obtain ⟨kind, text', htoken⟩ := Piece.exists_covers_iff.mp ⟨t, ht, hcovers⟩
    cases hstart.unique htoken

/-- Dropped characters are the stray pieces. -/
theorem dropped_iff :
    Dropped source before c after ↔
      ∃ front back, Piece.scan source.toList = front ++ .stray c :: back ∧
        before = front.flatMap Piece.text ∧ after = back.flatMap Piece.text := by
  constructor
  · intro h
    obtain ⟨front, piece, back, inner, rest, hscan, rfl, htext, rfl, hholds⟩ :=
      Piece.exists_piece_at h.split
    cases piece with
    | token kind text =>
        obtain ⟨t, ht, hcovers⟩ := Piece.exists_covers_iff.mpr ⟨kind, text, hholds⟩
        exact absurd hcovers (h.not_covers t ht)
    | comment text => exact absurd (inComment_of_holds h.split hholds) h.not_inComment
    | stray d =>
        cases inner with
        | nil =>
            obtain ⟨rfl, rfl⟩ := List.cons.inj htext
            exact ⟨front, back, hscan, List.append_nil _, rfl⟩
        | cons e inner => simp [Piece.text] at htext
  · rintro ⟨front, back, hscan, rfl, rfl⟩
    have hholds : Piece.Holds _ (.stray c) _ := Piece.holds_first front back rfl
    rw [← hscan] at hholds
    have hsplit : source.toList = front.flatMap Piece.text ++ c :: back.flatMap Piece.text := by
      rw [← Piece.flatMap_text_scan source.toList, hscan, List.flatMap_append, List.flatMap_cons]
      rfl
    refine ⟨hsplit, ?_, ?_⟩
    · intro t ht hcovers
      obtain ⟨kind, text, htoken⟩ := Piece.exists_covers_iff.mp ⟨t, ht, hcovers⟩
      cases hholds.unique htoken
    · intro hcomment
      obtain ⟨text, hheld⟩ := holds_of_inComment hsplit hcomment
      cases hholds.unique hheld

/-- A character that was dropped has no meaning where it stands. -/
theorem Dropped.isStray (h : Dropped source before c after) : Piece.IsStray c after := by
  obtain ⟨front, back, hscan, rfl, rfl⟩ := dropped_iff.mp h
  obtain ⟨d, rest, hsource, hcut, hback⟩ := Piece.exists_cut_of_scan_eq hscan
  obtain ⟨rfl, hstray⟩ := Piece.cut_fst_eq_stray_iff.mp hcut
  have hrest : rest = back.flatMap Piece.text := by
    have happend := Piece.append_cut d rest
    rw [hcut] at happend
    rw [← hback, Piece.flatMap_text_scan]
    exact (List.cons.inj happend).2.symm
  rwa [← hrest]

/-- Only the last quote of a source can be dropped. -/
theorem Dropped.eq_of_quote {before' after' : List Char} (h : Dropped source before quote after)
    (h' : Dropped source before' quote after') : before = before' := by
  rcases List.append_eq_append_iff.mp (h.split.symm.trans h'.split) with
    ⟨middle, hbefore, hrest⟩ | ⟨middle, hbefore, hrest⟩
  · cases middle with
    | nil => rw [hbefore, List.append_nil]
    | cons d middle =>
        have hclosed := h.isStray.quote rfl
        rw [(List.cons.inj hrest).2] at hclosed
        simp at hclosed
  · cases middle with
    | nil => rw [hbefore, List.append_nil]
    | cons d middle =>
        have hclosed := h'.isStray.quote rfl
        rw [(List.cons.inj hrest).2] at hclosed
        simp at hclosed

end Dropped

/-- What lies in no token and in no comment means nothing in the language, and it has at most one
quote. -/
theorem dropped_characters_mean_nothing (source : String) :
    (∀ before c after, Dropped source before c after → Piece.IsStray c after) ∧
      ∀ before after before' after', Dropped source before quote after →
        Dropped source before' quote after' → before = before' :=
  ⟨fun _ _ _ h => h.isStray, fun _ _ _ _ h h' => h.eq_of_quote h'⟩

/-- A single ampersand, and a quote behind the quote of a comment. -/
theorem dropped_characters_mean_nothing_quote :
    let source := "x = 'a#' & 3.é # it's\n'"
    Dropped source "x = 'a#' ".toList '&' " 3.é # it's\n'".toList ∧
      Piece.IsStray '&' " 3.é # it's\n'".toList ∧
      Dropped source "x = 'a#' & 3.é # it's\n".toList quote [] ∧ Piece.IsStray quote [] := by
  intro source
  have hampersand : Dropped source "x = 'a#' ".toList '&' " 3.é # it's\n'".toList :=
    dropped_iff.mpr ⟨(Piece.scan source.toList).take 6, (Piece.scan source.toList).drop 7,
      by decide +kernel⟩
  have hquote : Dropped source "x = 'a#' & 3.é # it's\n".toList quote [] :=
    dropped_iff.mpr ⟨(Piece.scan source.toList).dropLast, [], by decide +kernel⟩
  have h := (dropped_characters_mean_nothing source).1
  exact ⟨hampersand, h _ _ _ hampersand, hquote, h _ _ _ hquote⟩

end Token

end Sting
