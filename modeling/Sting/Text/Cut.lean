import Sting.Text.DecimalDigit

/-!
# Runs at the head of a text

Both scanners cut the same three kinds of runs off the head of a text: quoted texts, numbers and
words. Each cut returns the run and the rest, and nothing between them is lost.
-/

namespace Sting.Text

/-- The character that opens and closes a quoted text. -/
def quote : Char :=
  Char.ofNat 0x27

/-- A character of a word. -/
def isWordChar (c : Char) : Bool :=
  c.isAlphanum || c == '_'

/-- A character that can begin a word: digits begin numbers. -/
def isWordStart (c : Char) : Bool :=
  c.isAlpha || c == '_'

/-- The content of a quoted text and the rest after its closing quote, given the text after the
opening one. -/
def cutQuoted? (text : List Char) : Option (List Char × List Char) :=
  match text.dropWhile (· != quote) with
  | [] => none
  | _ :: rest => some (text.takeWhile (· != quote), rest)

/-- A run of digits, with a point and more digits if they follow. -/
def cutNumber (text : List Char) : List Char × List Char :=
  let whole := text.takeWhile isDecimalDigit
  match text.dropWhile isDecimalDigit with
  | '.' :: rest =>
    let fraction := rest.takeWhile isDecimalDigit
    if fraction.isEmpty then (whole, '.' :: rest)
    else (whole ++ '.' :: fraction, rest.dropWhile isDecimalDigit)
  | rest => (whole, rest)

/-- The longest word at the head. -/
def cutWord (text : List Char) : List Char × List Char :=
  (text.takeWhile isWordChar, text.dropWhile isWordChar)

/-- A run that ends where the rest begins is cut off exactly. -/
theorem span_run {α : Type} {p : α → Bool} {run rest : List α} (hrun : ∀ c ∈ run, p c = true)
    (hrest : ∀ c ∈ rest.head?, p c = false) :
    (run ++ rest).takeWhile p = run ∧ (run ++ rest).dropWhile p = rest := by
  rw [List.takeWhile_append_of_pos hrun, List.dropWhile_append_of_pos hrun]
  cases rest with
  | nil => exact ⟨List.append_nil run, rfl⟩
  | cons c rest =>
    have hc : ¬ p c = true := by simp [hrest c rfl]
    rw [List.takeWhile_cons_of_neg hc, List.dropWhile_cons_of_neg hc, List.append_nil]
    exact ⟨rfl, rfl⟩

/-- A run ends before a text that does not continue it. -/
theorem span_append {α : Type} {p : α → Bool} {rest : List α} (front : List α)
    (h : ∀ c ∈ rest.head?, p c = false) :
    (front ++ rest).takeWhile p = front.takeWhile p ∧
      (front ++ rest).dropWhile p = front.dropWhile p ++ rest := by
  induction front with
  | nil => exact span_run nofun h
  | cons c front ih =>
    by_cases hc : p c = true
    · simp [hc, ih]
    · simp [hc]

/-- Quotes, content and rest make up the text. -/
theorem append_of_cutQuoted? {text content rest : List Char}
    (h : cutQuoted? text = some (content, rest)) : content ++ quote :: rest = text := by
  unfold cutQuoted? at h
  split at h
  · simp at h
  · rename_i c rest' hd
    simp only [Option.some.injEq, Prod.mk.injEq] at h
    obtain ⟨rfl, rfl⟩ := h
    have hc : c = quote := by
      have := List.head?_dropWhile_not (· != quote) text
      simpa [hd] using this
    rw [hc] at hd
    rw [← hd, List.takeWhile_append_dropWhile]

/-- Nothing is lost when a number is cut. -/
theorem append_cutNumber (text : List Char) : (cutNumber text).1 ++ (cutNumber text).2 = text := by
  unfold cutNumber
  split
  · rename_i rest hd
    dsimp only
    split
    · rw [← hd, List.takeWhile_append_dropWhile]
    · rw [List.append_assoc, List.cons_append, List.takeWhile_append_dropWhile, ← hd,
        List.takeWhile_append_dropWhile]
  · exact List.takeWhile_append_dropWhile

/-- Nothing is lost when a word is cut. -/
theorem append_cutWord (text : List Char) : (cutWord text).1 ++ (cutWord text).2 = text :=
  List.takeWhile_append_dropWhile

/-- A run that begins with a digit is not empty. -/
theorem cutNumber_fst_ne_nil {c : Char} (rest : List Char) (h : isDecimalDigit c = true) :
    (cutNumber (c :: rest)).1 ≠ [] := by
  unfold cutNumber
  simp only [List.takeWhile_cons, h, if_true]
  split
  · split <;> simp
  · simp

/-- A run that begins with a word character is not empty. -/
theorem cutWord_fst_ne_nil {c : Char} (rest : List Char) (h : isWordChar c = true) :
    (cutWord (c :: rest)).1 ≠ [] := by
  simp [cutWord, h]

/-- What begins a word belongs to it. -/
theorem isWordChar_of_isWordStart {c : Char} (h : isWordStart c = true) : isWordChar c = true := by
  simp only [isWordStart, isWordChar, Char.isAlphanum, Bool.or_eq_true] at h ⊢
  grind

end Sting.Text
