import Mathlib.Data.List.TakeWhile
import Mathlib.Tactic.Common
import Sting.Token.Piece

/-!
# Spellings of tokens

Which texts are tokens, and of what kind. Every token of a source has such a text, and such a text
is scanned as one token wherever nothing that follows extends it. So a text that is put together
from spellings and blanks has exactly the tokens that it was put together from.
-/

namespace Sting

open Text Piece

/-- The texts that tokens of each kind can have. -/
inductive Token.IsSpelling : Token.Kind → List Char → Prop
  | quoted {content : List Char} (h : quote ∉ content) :
      IsSpelling .text (quote :: (content ++ [quote]))
  | digits {whole : List Char} (hne : whole ≠ []) (h : ∀ c ∈ whole, isDecimalDigit c = true) :
      IsSpelling (Token.digitsKind whole) whole
  | fraction {whole part : List Char} (hne : whole ≠ []) (h : ∀ c ∈ whole, isDecimalDigit c = true)
      (hne' : part ≠ []) (h' : ∀ c ∈ part, isDecimalDigit c = true) :
      IsSpelling (Token.digitsKind (whole ++ '.' :: part)) (whole ++ '.' :: part)
  | word {c : Char} {rest : List Char} (hc : isWordStart c = true)
      (h : ∀ d ∈ rest, isWordChar d = true) : IsSpelling (Token.wordKind (c :: rest)) (c :: rest)
  | delimiter {c : Char} (h : isDelimiter c = true) : IsSpelling .symbol [c]
  | plain {c : Char} (h : isExtensible c = true) : IsSpelling .symbol [c]
  | extended {c : Char} (h : isExtensible c = true) : IsSpelling .symbol [c, '=']
  | conjunction : IsSpelling .symbol ['&', '&']

/-- Characters that belong neither to a word nor to a number and extend no symbol. -/
def Text.isBreak (c : Char) : Bool :=
  !(isWordChar c || isDecimalDigit c || c == '.' || c == '=')

/-- Nothing at the head of a text extends the token before it. -/
def Text.Breaks (text : List Char) : Prop :=
  ∀ c ∈ text.head?, isBreak c = true

namespace Text

/-- A break does not go on a run of digits. -/
theorem Breaks.digit {rest : List Char} (h : Breaks rest) :
    ∀ c ∈ rest.head?, isDecimalDigit c = false := by
  intro c hc
  have hb := h c hc
  simp only [isBreak, Bool.not_eq_true', Bool.or_eq_false_iff] at hb
  exact hb.1.1.2

/-- A break does not go on a word. -/
theorem Breaks.word {rest : List Char} (h : Breaks rest) :
    ∀ c ∈ rest.head?, isWordChar c = false := by
  intro c hc
  have hb := h c hc
  simp only [isBreak, Bool.not_eq_true', Bool.or_eq_false_iff] at hb
  exact hb.1.1.1

/-- A text with a break in front does not begin with a character that is none. -/
theorem Breaks.head_ne {rest tail : List Char} {c : Char} (h : Breaks rest)
    (hc : isBreak c = false) : rest ≠ c :: tail := by
  rintro rfl
  have hb := h c rfl
  rw [hc] at hb
  cases hb

end Text

namespace Piece

/-- No digit begins a word. -/
theorem isDecimalDigit_of_isWordStart {c : Char} (h : isWordStart c = true) :
    isDecimalDigit c = false := by
  have hbounds : c.toNat < 128 ∧ ¬ (48 ≤ c.toNat ∧ c.toNat ≤ 57) := by
    unfold isWordStart Char.isAlpha Char.isUpper Char.isLower at h
    simp only [Bool.or_eq_true, Bool.and_eq_true, decide_eq_true_eq, beq_iff_eq,
      UInt32.le_iff_toNat_le, ge_iff_le] at h
    change ((65 ≤ c.toNat ∧ c.toNat ≤ 90) ∨ (97 ≤ c.toNat ∧ c.toNat ≤ 122)) ∨ c = '_' at h
    rcases h with (h | h) | rfl
    · omega
    · omega
    · decide
  have hdigit : c.isDigit = false := by
    simp only [Char.isDigit, Bool.and_eq_false_iff, decide_eq_false_iff_not,
      UInt32.le_iff_toNat_le, ge_iff_le]
    change ¬ 48 ≤ c.toNat ∨ ¬ c.toNat ≤ 57
    omega
  have hforeign : decide (0x80 ≤ c.toNat) = false := by
    rw [decide_eq_false_iff_not]
    omega
  rw [isDecimalDigit, hdigit, hforeign]
  rfl

/-- What begins a number begins neither a comment nor a quoted text. -/
theorem ne_of_isDecimalDigit {c : Char} (h : isDecimalDigit c = true) : c ≠ '#' ∧ c ≠ quote := by
  constructor
  · rintro rfl
    exact absurd h (by decide)
  · rintro rfl
    exact absurd h (by decide)

/-- What begins a word begins no other piece. -/
theorem ne_of_isWordStart {c : Char} (h : isWordStart c = true) :
    c ≠ '#' ∧ c ≠ quote ∧ isDecimalDigit c = false := by
  refine ⟨?_, ?_, isDecimalDigit_of_isWordStart h⟩
  · rintro rfl
    exact absurd h (by decide)
  · rintro rfl
    exact absurd h (by decide)

/-- A symbol that an equals sign extends does not stand alone. -/
theorem isDelimiter_of_isExtensible {c : Char} (h : isExtensible c = true) :
    isDelimiter c = false := by
  simp only [isExtensible, Bool.or_eq_true, beq_iff_eq] at h
  rcases h with ((((((((rfl | rfl) | rfl) | rfl) | rfl) | rfl) | rfl) | rfl) | rfl) | rfl
  all_goals decide

/-- What begins a symbol begins no other piece. -/
theorem ne_of_symbol {c : Char} (h : isDelimiter c = true ∨ isExtensible c = true ∨ c = '&') :
    c ≠ '#' ∧ c ≠ quote ∧ isDecimalDigit c = false ∧ isWordStart c = false := by
  simp only [isDelimiter, isExtensible, Bool.or_eq_true, beq_iff_eq] at h
  rcases h with ((((rfl | rfl) | rfl) | rfl) | rfl) |
    (((((((((rfl | rfl) | rfl) | rfl) | rfl) | rfl) | rfl) | rfl) | rfl) | rfl) | rfl
  all_goals decide

/-- Where a symbol begins, a cut takes the symbol. -/
theorem cut_of_symbol {c : Char} (h : isDelimiter c = true ∨ isExtensible c = true ∨ c = '&')
    (rest : List Char) : cut c rest = cutSymbol c rest := by
  obtain ⟨h₁, h₂, h₃, h₄⟩ := ne_of_symbol h
  rw [cut, if_neg h₁, if_neg h₂, if_neg (by simp [h₃]), if_neg (by simp [h₄])]

/-- Cutting takes the first piece and goes on behind it. -/
theorem scan_cons (c : Char) (rest : List Char) :
    scan (c :: rest) = (cut c rest).1 :: scan (cut c rest).2 := by
  rw [scan]

/-- A quoted text ends at the first quote behind its content. -/
theorem cutQuoted?_append {content : List Char} (h : quote ∉ content) (rest : List Char) :
    cutQuoted? (content ++ quote :: rest) = some (content, rest) := by
  have hrun : ∀ c ∈ content, (c != quote) = true := by
    intro c hc
    rw [bne_iff_ne]
    rintro rfl
    exact h hc
  have hstop : ∀ c ∈ (quote :: rest).head?, (c != quote) = false := by
    intro c hc
    obtain rfl := Option.some.inj hc
    rfl
  obtain ⟨htake, hdrop⟩ := span_run hrun hstop
  rw [cutQuoted?, htake, hdrop]

/-- Digits with a break behind them are a whole number. -/
theorem cutNumber_digits {whole rest : List Char} (h : ∀ c ∈ whole, isDecimalDigit c = true)
    (hb : Breaks rest) : cutNumber (whole ++ rest) = (whole, rest) := by
  obtain ⟨htake, hdrop⟩ := span_run h hb.digit
  unfold cutNumber
  rw [htake, hdrop]
  split
  · exact absurd rfl (hb.head_ne (by decide))
  · rfl

/-- Digits on both sides of a point are one number. -/
theorem cutNumber_fraction {whole part rest : List Char}
    (h : ∀ c ∈ whole, isDecimalDigit c = true) (hne : part ≠ [])
    (h' : ∀ c ∈ part, isDecimalDigit c = true) (hb : Breaks rest) :
    cutNumber (whole ++ '.' :: (part ++ rest)) = (whole ++ '.' :: part, rest) := by
  have hpoint : ∀ c ∈ ('.' :: (part ++ rest)).head?, isDecimalDigit c = false := by
    intro c hc
    obtain rfl := Option.some.inj hc
    decide
  obtain ⟨htake, hdrop⟩ := span_run h hpoint
  obtain ⟨htake', hdrop'⟩ := span_run h' hb.digit
  unfold cutNumber
  rw [htake, hdrop]
  simp only [htake', hdrop', List.isEmpty_iff, if_neg hne]

/-- Word characters with a break behind them are one word. -/
theorem cutWord_append {word rest : List Char} (h : ∀ c ∈ word, isWordChar c = true)
    (hb : Breaks rest) : cutWord (word ++ rest) = (word, rest) := by
  obtain ⟨htake, hdrop⟩ := span_run h hb.word
  rw [cutWord, htake, hdrop]

/-- Where a digit stands, the number that it begins is the first token. -/
theorem scan_number {digits rest tail : List Char} {c : Char} (hc : isDecimalDigit c = true)
    (h : cutNumber (c :: rest) = (digits, tail)) :
    scan (c :: rest) = .token (Token.digitsKind digits) digits :: scan tail := by
  obtain ⟨h₁, h₂⟩ := ne_of_isDecimalDigit hc
  rw [scan_cons, cut, if_neg h₁, if_neg h₂, if_pos hc, h]

/-- A delimiter is a token whatever follows. -/
theorem scan_delimiter {c : Char} (h : isDelimiter c = true) (rest : List Char) :
    scan (c :: rest) = .token .symbol [c] :: scan rest := by
  rw [scan_cons, cut_of_symbol (.inl h)]
  unfold cutSymbol
  rw [if_pos h]

/-- A spelling that is not extended by what follows is scanned as one token. -/
theorem scan_spelling {kind : Token.Kind} {text rest : List Char}
    (h : Token.IsSpelling kind text) (hb : Breaks rest) :
    scan (text ++ rest) = .token kind text :: scan rest := by
  cases h with
  | @quoted content hq =>
      have hne : quote ≠ '#' := by decide
      rw [List.cons_append, List.append_assoc, List.singleton_append, scan_cons, cut, if_neg hne,
        if_pos rfl, cutQuoted?_append hq]
      rfl
  | digits hne hd =>
      have hcut := cutNumber_digits hd hb
      obtain ⟨c, tail, rfl⟩ := List.exists_cons_of_ne_nil hne
      exact scan_number (hd c (List.mem_cons_self ..)) hcut
  | fraction hne hd hne' hd' =>
      have hcut := cutNumber_fraction hd hne' hd' hb
      obtain ⟨c, tail, rfl⟩ := List.exists_cons_of_ne_nil hne
      rw [List.append_assoc, List.cons_append, List.cons_append]
      exact scan_number (hd c (List.mem_cons_self ..)) hcut
  | @word c tail hc hw =>
      obtain ⟨h₁, h₂, h₃⟩ := ne_of_isWordStart hc
      have hword : ∀ d ∈ c :: tail, isWordChar d = true :=
        List.forall_mem_cons.mpr ⟨isWordChar_of_isWordStart hc, hw⟩
      have hcut := cutWord_append hword hb
      rw [List.cons_append] at hcut ⊢
      rw [scan_cons, cut, if_neg h₁, if_neg h₂, if_neg (by simp [h₃]), if_pos hc, hcut]
  | delimiter hc => exact scan_delimiter hc rest
  | @plain c hc =>
      have hd := isDelimiter_of_isExtensible hc
      rw [List.singleton_append, scan_cons, cut_of_symbol (.inr (.inl hc))]
      unfold cutSymbol
      rw [if_neg (by simp [hd]), if_pos hc]
      split
      · exact absurd rfl (hb.head_ne (by decide))
      · rfl
  | @extended c hc =>
      have hd := isDelimiter_of_isExtensible hc
      rw [List.cons_append, List.singleton_append, scan_cons, cut_of_symbol (.inr (.inl hc))]
      unfold cutSymbol
      rw [if_neg (by simp [hd]), if_pos hc]
      rfl
  | conjunction =>
      rw [List.cons_append, List.singleton_append, scan_cons, cut_of_symbol (.inr (.inr rfl))]
      rfl

/-- What is cut as a number has one of the two forms of numbers. -/
theorem isSpelling_of_cutNumber {c : Char} {rest digits tail : List Char}
    (hc : isDecimalDigit c = true) (h : cutNumber (c :: rest) = (digits, tail)) :
    Token.IsSpelling (Token.digitsKind digits) digits := by
  have hne : (c :: rest).takeWhile isDecimalDigit ≠ [] := by
    rw [List.takeWhile_cons_of_pos hc]
    exact List.cons_ne_nil _ _
  have hwhole : ∀ d ∈ (c :: rest).takeWhile isDecimalDigit, isDecimalDigit d = true :=
    fun d hd => List.mem_takeWhile_imp hd
  unfold cutNumber at h
  split at h
  · rename_i rest' _
    dsimp only at h
    split at h
    · cases h
      exact .digits hne hwhole
    · rename_i hpart
      cases h
      refine .fraction hne hwhole ?_ (fun d hd => List.mem_takeWhile_imp hd)
      rwa [List.isEmpty_iff] at hpart
  · cases h
    exact .digits hne hwhole

/-- What is cut as a symbol is a symbol of the language. -/
theorem isSpelling_of_cutSymbol {c : Char} {rest text tail : List Char} {kind : Token.Kind}
    (h : cutSymbol c rest = (.token kind text, tail)) : Token.IsSpelling kind text := by
  unfold cutSymbol at h
  split at h
  · rename_i hc
    cases h
    exact .delimiter hc
  · split at h
    · rename_i hc
      split at h
      · cases h
        exact .extended hc
      · cases h
        exact .plain hc
    · split at h
      · cases h
        exact .conjunction
      · cases h

/-- Whatever is cut off as a token has a spelling of its kind. -/
theorem isSpelling_of_cut {c : Char} {rest text tail : List Char} {kind : Token.Kind}
    (h : cut c rest = (.token kind text, tail)) : Token.IsSpelling kind text := by
  unfold cut at h
  split at h
  · cases h
  · split at h
    · rename_i hc
      split at h
      · rename_i content rest' hq
        cases h
        subst hc
        refine .quoted ?_
        intro hmem
        unfold cutQuoted? at hq
        split at hq
        · cases hq
        · cases hq
          simpa using List.mem_takeWhile_imp hmem
      · cases h
    · split at h
      · rename_i hd
        cases h
        exact isSpelling_of_cutNumber hd rfl
      · split at h
        · rename_i hw
          cases h
          have hrun : (c :: rest).takeWhile isWordChar = c :: rest.takeWhile isWordChar :=
            List.takeWhile_cons_of_pos (isWordChar_of_isWordStart hw)
          rw [hrun]
          exact .word hw (fun d hd => List.mem_takeWhile_imp hd)
        · exact isSpelling_of_cutSymbol h

/-- Every token among the pieces of a text has a spelling of its kind. -/
theorem isSpelling_of_mem_scan {source text : List Char} {kind : Token.Kind}
    (h : .token kind text ∈ scan source) : Token.IsSpelling kind text := by
  fun_induction scan source with
  | case1 => cases h
  | case2 c rest ih =>
      rcases List.mem_cons.mp h with hhead | htail
      · exact isSpelling_of_cut (Prod.ext hhead.symm rfl)
      · exact ih htail

end Piece

namespace Token

/-- A token without its place. -/
def bare (kind : Kind) (text : List Char) : Token :=
  ⟨kind, String.ofList text, .start⟩

/-- The same token without its place. -/
def unplaced (t : Token) : Token :=
  { t with position := .start }

@[simp] theorem text_unplaced (t : Token) : t.unplaced.text = t.text := rfl

@[simp] theorem text_bare (kind : Kind) (text : List Char) :
    (bare kind text).text = String.ofList text := rfl

/-- The text of a token is a spelling of its kind. -/
def Genuine (t : Token) : Prop :=
  IsSpelling t.kind t.text.toList

/-- The token that a piece is, without its place. -/
def ofPiece? : Piece → Option Token
  | .token kind text => some (bare kind text)
  | _ => none

/-- The tokens of a text without their places. -/
def spelled (text : List Char) : List Token :=
  (Piece.scan text).filterMap ofPiece?

/-- Without places the tokens are those of the pieces, one by one. -/
theorem map_unplaced_tokens (p : Position) (pieces : List Piece) :
    (Piece.tokens p pieces).map unplaced = pieces.filterMap ofPiece? := by
  induction pieces generalizing p with
  | nil => rfl
  | cons piece pieces ih =>
      cases piece with
      | token kind text =>
          rw [Piece.tokens, List.map_cons, ih]
          rfl
      | comment text => exact ih _
      | stray c => exact ih _

/-- Without their places the tokens of a source are those that it spells. -/
theorem map_unplaced_scan (source : String) :
    (Token.scan source).map unplaced = spelled source.toList :=
  map_unplaced_tokens _ _

/-- Every token that a text spells is genuine. -/
theorem genuine_of_mem_spelled {text : List Char} {t : Token} (h : t ∈ spelled text) :
    t.Genuine := by
  obtain ⟨piece, hp, he⟩ := List.mem_filterMap.mp h
  cases piece with
  | token kind text =>
      obtain rfl := Option.some.inj he
      rw [Genuine, text_bare, String.toList_ofList]
      exact Piece.isSpelling_of_mem_scan hp
  | comment text => cases he
  | stray c => cases he

/-- Every token of a source is genuine. -/
theorem genuine_of_mem_scan {source : String} {t : Token} (h : t ∈ Token.scan source) :
    t.Genuine := by
  have hmem : t.unplaced ∈ spelled source.toList := by
    rw [← map_unplaced_scan]
    exact List.mem_map_of_mem h
  exact genuine_of_mem_spelled (t := t.unplaced) hmem

/-! ## Scanning what is spelled -/

/-- An empty text has no tokens. -/
theorem spelled_nil : spelled [] = [] := by
  rw [spelled, Piece.scan]
  rfl

/-- A blank between tokens is passed over. -/
theorem spelled_blank {c : Char} (h : c = ' ' ∨ c = '\n') (rest : List Char) :
    spelled (c :: rest) = spelled rest := by
  rw [spelled, Piece.scan_cons]
  rcases h with rfl | rfl <;> rfl

/-- A symbol that stands alone is a token whatever follows it. -/
theorem spelled_delimiter {c : Char} (h : Piece.isDelimiter c = true) (rest : List Char) :
    spelled (c :: rest) = bare .symbol [c] :: spelled rest := by
  rw [spelled, Piece.scan_delimiter h]
  rfl

/-- A spelling that is not extended by what follows is one token. -/
theorem spelled_spelling {kind : Kind} {text rest : List Char} (h : IsSpelling kind text)
    (hb : Breaks rest) : spelled (text ++ rest) = bare kind text :: spelled rest := by
  rw [spelled, Piece.scan_spelling h hb]
  rfl

/-- A token without its place is decided by its kind and its text. -/
theorem Genuine.bare_eq {t : Token} : bare t.kind t.text.toList = t.unplaced := by
  rw [bare, String.ofList_toList]
  rfl

end Token

end Sting
