import Sting.Proofs.Statement.Lookahead
import Sting.Proofs.Token.Positions

/-!
# The end of the input

A mismatch at the end of the input is reported just past the last token, and that place is counted
on the line where the token begins. It is the place that the source has there unless the token goes
on to another line, which only a quoted text can do.
-/

namespace Sting

open Text

namespace Position

/-- Every newline begins a line. -/
theorem line_after (p : Position) (text : List Char) :
    (p.after text).line = p.line + text.count '\n' := by
  induction text generalizing p with
  | nil => rfl
  | cons c text ih =>
      rw [after_cons, ih, next]
      split
      · rename_i hc
        rw [hc, List.count_cons_self, Nat.add_assoc, Nat.add_comm 1]
      · rename_i hc
        rw [List.count_cons_of_ne hc]

/-- On one line every character is a column. -/
theorem after_of_newline_not_mem (p : Position) {text : List Char} (h : '\n' ∉ text) :
    p.after text = ⟨p.line, p.column + text.length, p.offset + byteSize text⟩ := by
  induction text generalizing p with
  | nil => rfl
  | cons c text ih =>
      rw [List.mem_cons, not_or] at h
      rw [after_cons, ih _ h.2, next, if_neg (Ne.symm h.1), List.length_cons, byteSize_cons,
        Nat.add_assoc, Nat.add_assoc, Nat.add_comm 1]

end Position

namespace Token

/-- Only a quoted text goes on to another line. -/
theorem IsSpelling.kind_eq_text {kind : Kind} {text : List Char} (h : IsSpelling kind text)
    (hnewline : '\n' ∈ text) : kind = .text := by
  have hdigits {digits : List Char} (h : ∀ c ∈ digits, isDecimalDigit c = true) : '\n' ∉ digits :=
    fun hmem => absurd (h _ hmem) (by decide)
  cases h with
  | quoted h => rfl
  | digits hne h => exact absurd hnewline (hdigits h)
  | fraction hne h hne' h' => simp [hdigits h, hdigits h'] at hnewline
  | word hc h =>
      rcases List.mem_cons.mp hnewline with rfl | hmem
      · exact absurd hc (by decide)
      · exact absurd (h _ hmem) (by decide)
  | delimiter h =>
      obtain rfl := List.mem_singleton.mp hnewline
      exact absurd h (by decide)
  | plain h =>
      obtain rfl := List.mem_singleton.mp hnewline
      exact absurd h (by decide)
  | extended h =>
      obtain rfl : '\n' = _ := by simpa using hnewline
      exact absurd h (by decide)
  | conjunction => simp at hnewline

/-- The place just past a token, counted through its text. -/
theorem after_text_eq_ofOffset {source : String} {t : Token} (h : t ∈ Token.scan source) :
    t.position.after t.text.toList =
      .ofOffset source (t.position.offset + t.text.utf8ByteSize) := by
  obtain ⟨before, after, hsource, hposition⟩ := exists_split_of_mem_scan h
  have htoList : source.toList = (before.toList ++ t.text.toList) ++ after.toList := by
    rw [hsource, String.toList_append, String.toList_append]
  rw [hposition, Position.offset_after_start, ← Position.after_append,
    Position.after_start_eq_ofOffset htoList, byteSize_append, byteSize_toList t.text]

/-- Staying on the line where a token begins misses exactly the newlines in it. -/
theorem finish_eq_after_iff (t : Token) :
    t.finish = t.position.after t.text.toList ↔ '\n' ∉ t.text.toList := by
  constructor
  · intro h
    have hline : t.finish.line = t.position.line + t.text.toList.count '\n' := by
      rw [h, Position.line_after]
    change t.position.line = _ at hline
    exact List.count_eq_zero.mp (by omega)
  · intro h
    rw [Position.after_of_newline_not_mem _ h, byteSize_toList, String.length_toList]
    rfl

/-- The end of the input is reported behind the last token. -/
theorem endPosition_of_getLast? {tokens : List Token} {last : Token}
    (h : tokens.getLast? = some last) : endPosition tokens = last.finish := by
  rw [endPosition, h]

end Token

/-- What is met at the end of the input is reported there. -/
theorem SyntaxError.position_ofMismatch {finish : Position} {m : Mismatch}
    (h : (ofMismatch finish m).found = none) : (ofMismatch finish m).position = finish := by
  obtain ⟨expected, found⟩ := m
  cases found with
  | none => rfl
  | some t => cases h

namespace Statement

/-- The end of the input is reported where it is exactly if the last token stays on one line. If it
does not, it is a quoted text, and the report names an earlier line. -/
theorem end_of_input_placed_iff {source : String} {last : Token}
    (hlast : (Token.scan source).getLast? = some last) :
    let reported := Token.endPosition (Token.scan source)
    let place := Position.ofOffset source (last.position.offset + last.text.utf8ByteSize)
    (reported = place ↔ '\n' ∉ last.text.toList) ∧
      (∀ e, Statement.read (Token.scan source) = .error e → e.found = none →
        (e.position = .ofOffset source e.position.offset ↔ '\n' ∉ last.text.toList)) ∧
      ('\n' ∈ last.text.toList →
        last.kind = .text ∧ place.line = reported.line + last.text.toList.count '\n') := by
  intro reported place
  have hmem : last ∈ Token.scan source := List.mem_of_getLast? hlast
  have hreported : reported = last.finish := Token.endPosition_of_getLast? hlast
  have hplace : place = last.position.after last.text.toList :=
    (Token.after_text_eq_ofOffset hmem).symm
  have hiff : reported = place ↔ '\n' ∉ last.text.toList := by
    rw [hreported, hplace]
    exact last.finish_eq_after_iff
  refine ⟨hiff, ?_, ?_⟩
  · intro e herror hfound
    obtain ⟨m, -, rfl⟩ := read_eq_error_iff.mp herror
    have hoffset : reported.offset = last.position.offset + last.text.utf8ByteSize := by
      rw [hreported]
      rfl
    rw [SyntaxError.position_ofMismatch hfound]
    change reported = .ofOffset source reported.offset ↔ _
    rwa [hoffset]
  · intro hnewline
    refine ⟨(Token.genuine_of_mem_scan hmem).kind_eq_text hnewline, ?_⟩
    rw [hplace, Position.line_after, hreported]
    rfl

/-- The last token is a quoted text with a character of two bytes, on the second line. -/
theorem end_of_input_placed_iff_accented :
    let source := "show('a',\n'é'"
    Statement.read (Token.scan source) = .error ⟨.symbol ")", none, ⟨1, 3, 14⟩⟩ ∧
      Position.ofOffset source 14 = ⟨1, 3, 14⟩ := by
  intro source
  have hlast : (Token.scan source).getLast? = some ⟨.text, "'é'", ⟨1, 0, 10⟩⟩ := by decide +kernel
  have herror : Statement.read (Token.scan source) =
      .error ⟨.symbol ")", none, ⟨1, 3, 14⟩⟩ := by
    decide +kernel
  obtain ⟨-, hagrees, -⟩ := end_of_input_placed_iff hlast
  exact ⟨herror, ((hagrees _ herror rfl).mpr (by decide)).symm⟩

/-- Behind a quoted text of two lines the end of the input is reported on the first of them. -/
theorem end_of_input_misplaced :
    let source := "show('a\nb'"
    Statement.read (Token.scan source) = .error ⟨.symbol ")", none, ⟨0, 10, 10⟩⟩ ∧
      Position.ofOffset source 10 = ⟨1, 2, 10⟩ := by
  decide +kernel

end Statement

end Sting
