import Mathlib.Data.List.Basic
import Sting.Proofs.Token.Strays

/-!
# Keywords and their neighbours

A word is cut off as a whole, so no ASCII letter or underscore stands directly before a keyword, and
none, nor an ASCII digit, directly behind it. More is not looked at: a keyword is recognised by its
text alone. So it is also recognised behind a digit, where the number before it ends, and next to
the letters and digits of other scripts, which end every word.
-/

namespace Sting

open Text

namespace Text

/-- The characters of words in the wider sense of word boundaries: in ASCII those of `isWordChar`,
and beyond ASCII a class that has the digits of all scripts. -/
structure IsWordClass (isWord : Char → Bool) : Prop where
  ascii : ∀ c, c.toNat < 128 → isWord c = isWordChar c
  digit : ∀ c, isDecimalDigit c = true → isWord c = true

/-- A word character beyond ASCII. -/
def isForeign (isWord : Char → Bool) (c : Char) : Bool :=
  0x80 ≤ c.toNat && isWord c

section IsWordClass

variable {isWord : Char → Bool} {c : Char}

/-- Digits of all scripts are word characters. -/
theorem IsWordClass.isDecimalDigit_eq_false (h : IsWordClass isWord) (hc : isWord c = false) :
    isDecimalDigit c = false := by
  rw [← Bool.not_eq_true] at hc ⊢
  exact fun hdigit => hc (h.digit c hdigit)

/-- A character outside of both parts of the class is no word character. -/
theorem IsWordClass.eq_false (h : IsWordClass isWord) (hchar : isWordChar c = false)
    (hforeign : isForeign isWord c = false) : isWord c = false := by
  by_cases hc : c.toNat < 128
  · rw [h.ascii c hc, hchar]
  · have hle : 0x80 ≤ c.toNat := Nat.le_of_not_lt hc
    simpa [isForeign, hle] using hforeign

end IsWordClass

/-- What stands between the two texts has no word character next to it. -/
def StandsAlone (isWord : Char → Bool) (before after : List Char) : Prop :=
  (∀ c ∈ before.getLast?, isWord c = false) ∧ ∀ c ∈ after.head?, isWord c = false

/-- A word goes on as far as it can. -/
theorem head?_cutWord (text : List Char) : ∀ c ∈ (cutWord text).2.head?, isWordChar c = false := by
  intro c hc
  have hstop := List.head?_dropWhile_not isWordChar text
  rw [show (text.dropWhile isWordChar).head? = some c from hc] at hstop
  simpa using hstop

/-- A place in a text is given by the bytes before it. -/
theorem append_inj_of_byteSize_eq {before after before' after' : List Char}
    (h : before ++ after = before' ++ after') (hsize : byteSize before = byteSize before') :
    before = before' ∧ after = after' := by
  have hbefore : before = before' := by
    rw [← charsBefore_append before after, h, hsize, charsBefore_append]
  subst hbefore
  exact ⟨rfl, List.append_cancel_left h⟩

/-- No word begins with a digit. -/
theorem isWordStart_of_isDecimalDigit {c : Char} (h : isDecimalDigit c = true) :
    isWordStart c = false := by
  rw [← Bool.not_eq_true]
  intro hstart
  rw [Piece.isDecimalDigit_of_isWordStart hstart] at h
  cases h

end Text

namespace Piece

/-- Where a word begins, a cut takes the word. -/
theorem cut_of_isWordStart {c : Char} (h : isWordStart c = true) (rest : List Char) :
    cut c rest = (.token (Token.wordKind (cutWord (c :: rest)).1) (cutWord (c :: rest)).1,
      (cutWord (c :: rest)).2) := by
  obtain ⟨h₁, h₂, h₃⟩ := ne_of_isWordStart h
  rw [cut, if_neg h₁, if_neg h₂, if_neg (by simp [h₃]), if_pos h]

/-- Only words are keywords. -/
theorem exists_word_of_keyword {text : List Char} (h : Token.IsSpelling .keyword text) :
    ∃ c rest, text = c :: rest ∧ isWordStart c = true := by
  generalize hkind : Token.Kind.keyword = kind at h
  have hdigits (digits : List Char) : Token.Kind.keyword ≠ Token.digitsKind digits := by
    unfold Token.digitsKind
    split <;> nofun
  cases h with
  | digits => exact absurd hkind (hdigits _)
  | fraction => exact absurd hkind (hdigits _)
  | word hc => exact ⟨_, _, rfl, hc⟩
  | _ => cases hkind

/-- A token that does not begin like a word does not end like one. -/
theorem isWordStart_getLast?_spelling {kind : Token.Kind} {text : List Char}
    (h : Token.IsSpelling kind text) (hhead : ∀ c ∈ text.head?, isWordStart c = false) :
    ∀ c ∈ text.getLast?, isWordStart c = false := by
  have hsymbol {c : Char} (hc : isDelimiter c = true ∨ isExtensible c = true ∨ c = '&') :
      isWordStart c = false := (ne_of_symbol hc).2.2.2
  cases h with
  | @quoted content =>
      rw [← List.cons_append, List.getLast?_concat]
      rintro _ ⟨⟩
      decide
  | digits hne hd =>
      intro c hc
      exact isWordStart_of_isDecimalDigit (hd c (List.mem_of_getLast? hc))
  | @fraction whole part hne hd hne' hd' =>
      intro c hc
      rw [List.append_cons, List.getLast?_append_of_ne_nil _ hne'] at hc
      exact isWordStart_of_isDecimalDigit (hd' c (List.mem_of_getLast? hc))
  | word hc =>
      rw [hhead _ rfl] at hc
      cases hc
  | delimiter hc =>
      rintro _ ⟨⟩
      exact hsymbol (.inl hc)
  | plain hc =>
      rintro _ ⟨⟩
      exact hsymbol (.inr (.inl hc))
  | @extended c hc =>
      change ∀ d ∈ some '=', isWordStart d = false
      rintro _ ⟨⟩
      decide
  | conjunction =>
      rintro _ ⟨⟩
      decide

/-- A piece begins with the character that it was cut at. -/
theorem head?_text_cut (c : Char) (rest : List Char) : (cut c rest).1.text.head? = some c := by
  rw [← List.head?_append_of_ne_nil _ (text_cut_ne_nil c rest), append_cut, List.head?_cons]

/-- Behind a comment comes a newline, if anything. -/
theorem head?_cut_comment {c : Char} {rest text : List Char} (h : (cut c rest).1 = .comment text) :
    ∀ d ∈ (cut c rest).2.head?, d = '\n' := by
  have happend := append_cut c rest
  rw [h] at happend
  have hdrop : (cut c rest).2 = (c :: rest).dropWhile (· != '\n') := by
    rw [Piece.text, (cut_fst_eq_comment h).2] at happend
    exact List.append_cancel_left (happend.trans List.takeWhile_append_dropWhile.symm)
  intro d hd
  have hstop := List.head?_dropWhile_not (· != '\n') (c :: rest)
  rw [← hdrop, hd] at hstop
  simpa using hstop

/-- What is cut off before a word does not end like one. -/
theorem isWordStart_getLast?_cut {c d : Char} {rest : List Char} (hd : d ∈ (cut c rest).2.head?)
    (hword : isWordStart d = true) : ∀ e ∈ (cut c rest).1.text.getLast?, isWordStart e = false := by
  have hc : isWordStart c = false := by
    rw [← Bool.not_eq_true]
    intro hc
    rw [cut_of_isWordStart hc] at hd
    have hstop := head?_cutWord (c :: rest) d hd
    rw [isWordChar_of_isWordStart hword] at hstop
    cases hstop
  have hhead := head?_text_cut c rest
  cases hpiece : (cut c rest).1 with
  | token kind text =>
      rw [hpiece] at hhead
      refine isWordStart_getLast?_spelling (isSpelling_of_cut (Prod.ext hpiece rfl)) ?_
      rw [hhead]
      rintro _ ⟨⟩
      exact hc
  | comment text =>
      obtain rfl := head?_cut_comment hpiece d hd
      exact absurd hword (by decide)
  | stray e =>
      obtain ⟨rfl, -⟩ := cut_fst_eq_stray_iff.mp hpiece
      rintro _ ⟨⟩
      exact hc

end Piece

namespace Token

variable {source before after : String} {t : Token}

/-- The pieces before and behind a token make up the texts before and behind it. -/
theorem exists_pieces_around (ht : t ∈ Token.scan source)
    (hsource : source = before ++ t.text ++ after)
    (hplace : t.position.offset = before.utf8ByteSize) :
    ∃ front back, Piece.scan source.toList = front ++ .token t.kind t.text.toList :: back ∧
      before.toList = front.flatMap Piece.text ∧ after.toList = back.flatMap Piece.text := by
  obtain ⟨front, back, hscan, hposition⟩ := Piece.exists_of_mem_tokens ht
  have hpieces := Piece.flatMap_text_scan source.toList
  rw [hscan, List.flatMap_append, List.flatMap_cons] at hpieces
  have hsplit : before.toList ++ (t.text.toList ++ after.toList) =
      front.flatMap Piece.text ++ (t.text.toList ++ back.flatMap Piece.text) := by
    rw [← List.append_assoc, ← String.toList_append, ← String.toList_append, ← hsource, ← hpieces]
    rfl
  have hsize : byteSize before.toList = byteSize (front.flatMap Piece.text) := by
    rw [byteSize_toList, ← hplace, hposition, Position.offset_after_start]
  obtain ⟨hbefore, hafter⟩ := append_inj_of_byteSize_eq hsplit hsize
  exact ⟨front, back, hscan, hbefore, List.append_cancel_left hafter⟩

/-- No word goes on before or behind a keyword. -/
theorem neighbours_of_keyword (ht : t ∈ Token.scan source) (hkind : t.kind = .keyword)
    (hsource : source = before ++ t.text ++ after)
    (hplace : t.position.offset = before.utf8ByteSize) :
    (∀ c ∈ before.toList.getLast?, isWordStart c = false) ∧
      ∀ c ∈ after.toList.head?, isWordChar c = false := by
  obtain ⟨front, back, hscan, hbefore, hafter⟩ := exists_pieces_around ht hsource hplace
  rw [hkind] at hscan
  obtain ⟨c, rest, -, hcut, hback⟩ := Piece.exists_cut_of_scan_eq hscan
  obtain ⟨d, tail, htext, hd⟩ := Piece.exists_word_of_keyword
    (Piece.isSpelling_of_cut (Prod.ext hcut rfl))
  have hc : c = d := by
    have hhead := Piece.head?_text_cut c rest
    rw [hcut, Piece.text, htext] at hhead
    exact (Option.some.inj hhead).symm
  subst hc
  constructor
  · rcases List.eq_nil_or_concat front with rfl | ⟨init, last, rfl⟩
    · simp [hbefore]
    · rw [List.concat_eq_append] at hbefore hscan
      rw [List.append_assoc, List.singleton_append] at hscan
      obtain ⟨e, rest', -, hcut', hrest'⟩ := Piece.exists_cut_of_scan_eq hscan
      have hnext : c ∈ (Piece.cut e rest').2.head? := by
        rw [← Piece.flatMap_text_scan (Piece.cut e rest').2, hrest', List.flatMap_cons, Piece.text,
          htext]
        rfl
      have hne : last.text ≠ [] := hcut' ▸ Piece.text_cut_ne_nil e rest'
      rw [hbefore, List.flatMap_append, List.flatMap_singleton,
        List.getLast?_append_of_ne_nil _ hne, ← hcut']
      exact Piece.isWordStart_getLast?_cut hnext hd
  · rw [hafter, ← hback, Piece.flatMap_text_scan, Piece.cut_of_isWordStart hd]
    exact head?_cutWord _

/-- A keyword is no part of a longer ASCII word. It stands alone exactly if no digit stands before
it, and no word character beyond ASCII before or behind it. -/
theorem keyword_stands_alone_iff {isWord : Char → Bool} (hclass : IsWordClass isWord)
    (ht : t ∈ Token.scan source) (hkind : t.kind = .keyword)
    (hsource : source = before ++ t.text ++ after)
    (hplace : t.position.offset = before.utf8ByteSize) :
    ((∀ c ∈ before.toList.getLast?, isWordStart c = false) ∧
        ∀ c ∈ after.toList.head?, isWordChar c = false) ∧
      (StandsAlone isWord before.toList after.toList ↔
        (∀ c ∈ before.toList.getLast?, isDecimalDigit c = false ∧ isForeign isWord c = false) ∧
          ∀ c ∈ after.toList.head?, isForeign isWord c = false) := by
  have hneighbours := neighbours_of_keyword ht hkind hsource hplace
  refine ⟨hneighbours, ?_, ?_⟩
  · rintro ⟨hbefore, hafter⟩
    refine ⟨fun c hc => ⟨?_, ?_⟩, fun c hc => ?_⟩
    · exact hclass.isDecimalDigit_eq_false (hbefore c hc)
    · rw [isForeign, hbefore c hc, Bool.and_false]
    · rw [isForeign, hafter c hc, Bool.and_false]
  · rintro ⟨hbefore, hafter⟩
    refine ⟨fun c hc => ?_, fun c hc => ?_⟩
    · obtain ⟨hdigit, hforeign⟩ := hbefore c hc
      have hchar := (Piece.isWordChar_eq_false_iff hdigit).mpr (hneighbours.1 c hc)
      exact hclass.eq_false hchar hforeign
    · exact hclass.eq_false (hneighbours.2 c hc) (hafter c hc)

/-- One keyword behind a digit, and another between parentheses. -/
theorem keyword_stands_alone_iff_parenthesized :
    let isWord := fun c => isWordChar c || isDecimalDigit c || c == 'é'
    let source := "é 3loop(if)"
    let loop : Token := ⟨.keyword, "loop", ⟨0, 3, 4⟩⟩
    let condition : Token := ⟨.keyword, "if", ⟨0, 8, 9⟩⟩
    IsWordClass isWord ∧ loop ∈ Token.scan source ∧ condition ∈ Token.scan source ∧
      ¬ StandsAlone isWord "é 3".toList "(if)".toList ∧
      StandsAlone isWord "é 3loop(".toList ")".toList := by
  intro isWord source loop condition
  have hclass : IsWordClass isWord := by
    refine ⟨fun c hc => ?_, fun c hc => by simp [isWord, hc]⟩
    have hdigit : isDecimalDigit c = c.isDigit := by
      have hforeign : ¬ 0x80 ≤ c.toNat := Nat.not_le_of_lt hc
      simp [isDecimalDigit, hforeign]
    have hne : c ≠ 'é' := by
      rintro rfl
      exact absurd hc (by decide)
    simp only [isWord, hdigit, isWordChar, Char.isAlphanum]
    grind
  have hloop : loop ∈ Token.scan source := by decide +kernel
  have hcondition : condition ∈ Token.scan source := by decide +kernel
  have hsource : source = "é 3" ++ loop.text ++ "(if)" := rfl
  have hsource' : source = "é 3loop(" ++ condition.text ++ ")" := rfl
  have hbehind := keyword_stands_alone_iff hclass hloop rfl hsource rfl
  have hbetween := keyword_stands_alone_iff hclass hcondition rfl hsource' rfl
  refine ⟨hclass, hloop, hcondition, ?_, hbetween.2.mpr ?_⟩
  · intro halone
    have hdigit := (hbehind.2.mp halone).1 '3' rfl
    exact absurd hdigit.1 (by decide)
  · constructor
    · rintro _ ⟨⟩
      decide
    · rintro _ ⟨⟩
      decide

/-- A keyword is recognised behind a digit, whatever else the word characters are. -/
theorem keyword_recognized_behind_digit :
    ∃ t ∈ Token.scan "3show", t.kind = .keyword ∧ "3show" = "3" ++ t.text ++ "" ∧
      t.position.offset = "3".utf8ByteSize ∧
      ∀ isWord, IsWordClass isWord → ¬ StandsAlone isWord "3".toList "".toList := by
  refine ⟨⟨.keyword, "show", ⟨0, 1, 1⟩⟩, by decide +kernel, rfl, rfl, rfl, ?_⟩
  intro isWord hclass halone
  have hdigit := hclass.isDecimalDigit_eq_false (halone.1 '3' rfl)
  exact absurd hdigit (by decide)

end Token

end Sting
