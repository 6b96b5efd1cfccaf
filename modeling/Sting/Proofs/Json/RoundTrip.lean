import Sting.Proofs.Json.Decoder

/-!
# Decoding what was written

A tree whose numbers are written as numbers is read back from its text, in either style. Every part
of the text is read wherever it stands: blanks may go before it, and whatever cannot go on a word
may come behind it.
-/

namespace Sting.Json

variable {α : Type} {text rest gap : List Char}

/-- A reader takes this value off the head of a text and leaves this rest. -/
def Reads (read : (text : List Char) → Option (Reading α text)) (text : List Char) (value : α)
    (rest : List Char) : Prop :=
  ∃ shorter, read text = some ⟨value, rest, shorter⟩

/-- Only blanks. -/
def AreBlanks (text : List Char) : Prop :=
  ∀ c ∈ text, isBlank c = true

/-- A gap can be empty. -/
theorem areBlanks_nil : AreBlanks [] :=
  fun _ h => nomatch h

/-- The first character behind the blanks is taken as the mark. -/
theorem reads_mark {c : Char} (hgap : AreBlanks gap) (hc : isBlank c = false) :
    Reads mark? (gap ++ c :: rest) c rest := by
  induction gap with
  | nil => exact ⟨Nat.lt_succ_self _, by simp [mark?, hc]⟩
  | cons b gap ih =>
    obtain ⟨shorter, h⟩ := ih fun c hc => hgap c (List.mem_cons_of_mem _ hc)
    refine ⟨Nat.lt_succ_of_lt shorter, ?_⟩
    simp [mark?, hgap b List.mem_cons_self, h, Reading.later]

/-- No punctuation is taken for a blank. -/
theorem not_isBlank_of_isMark {c : Char} (h : isMark c = true) : isBlank c = false := by
  have hmarks : ['[', ']', '\x7b', '\x7d', ',', ':', '"'].all (!isBlank ·) = true := by decide
  simpa using List.all_eq_true.1 hmarks c (List.contains_iff_mem.1 h)

/-! ## Strings -/

/-- Digits to the base sixteen are read back. -/
theorem hexValue?_hexDigit : ∀ n < 16, hexValue? (hexDigit n) = some n := by
  decide

/-- The four digits of a control character are read back. -/
theorem reads_unicode {n : Nat} (h : n < 0x20) (rest : List Char) :
    Reads unicode? ('0' :: '0' :: hexDigit (n / 16) :: hexDigit (n % 16) :: rest) (Char.ofNat n)
      rest := by
  have hzero : hexValue? '0' = some 0 := by decide
  have hhigh : hexValue? (hexDigit (n / 16)) = some (n / 16) := hexValue?_hexDigit _ (by omega)
  have hlow : hexValue? (hexDigit (n % 16)) = some (n % 16) := hexValue?_hexDigit _ (by omega)
  have hvalue : n / 16 * 16 + n % 16 = n := by omega
  refine ⟨by simp only [List.length_cons]; omega, ?_⟩
  simp [unicode?, unit?, hzero, hhigh, hlow, hvalue, show n < 0xd800 by omega]

/-- A character is read from its escape, whichever of the three forms that has. -/
theorem reads_character (c : Char) (rest : List Char) :
    Reads character? (escape c ++ rest) c rest := by
  have hshorter : rest.length < rest.length + 1 + 1 := by omega
  -- seven characters have an escape of their own
  unfold escape
  split
  · exact ⟨hshorter, rfl⟩
  · exact ⟨hshorter, rfl⟩
  · exact ⟨hshorter, rfl⟩
  · exact ⟨hshorter, rfl⟩
  · exact ⟨hshorter, rfl⟩
  · exact ⟨hshorter, rfl⟩
  · exact ⟨hshorter, rfl⟩
  next hslash _ _ _ _ _ =>
    split
    next hcontrol =>
      obtain ⟨shorter, h⟩ := reads_unicode hcontrol rest
      refine ⟨Nat.lt_succ_of_lt (Nat.lt_succ_of_lt shorter), ?_⟩
      simp [character?, escape?, h, Reading.later]
    next hcontrol =>
      refine ⟨Nat.lt_succ_self _, ?_⟩
      change character? (c :: rest) = _
      rw [character?, if_neg hslash, if_neg hcontrol]

/-- No character is written as a lone quote. -/
theorem exists_escape_eq (c : Char) : ∃ d tail, escape c = d :: tail ∧ d ≠ '"' := by
  unfold escape
  split
  case h_8 hquote _ _ _ _ _ _ =>
    split
    · exact ⟨_, _, rfl, by decide⟩
    · exact ⟨_, _, rfl, hquote⟩
  all_goals exact ⟨_, _, rfl, by decide⟩

/-- A character that is not the closing quote goes in front of the rest of the content. -/
theorem reads_content_cons {c d : Char} {tail content rest' : List Char} (hd : d ≠ '"')
    (hfirst : Reads character? (d :: tail) c rest) (hmore : Reads content? rest content rest') :
    Reads content? (d :: tail) (c :: content) rest' := by
  obtain ⟨shorter, hfirst⟩ := hfirst
  obtain ⟨shorter', hmore⟩ := hmore
  refine ⟨Nat.lt_trans shorter' shorter, ?_⟩
  rw [content?, if_neg hd, hfirst]
  simp [hmore, Reading.followed]

/-- The content of a string is read up to its closing quote. -/
theorem reads_content (content rest : List Char) :
    Reads content? (content.flatMap escape ++ '"' :: rest) content rest := by
  induction content with
  | nil =>
    refine ⟨Nat.lt_succ_self _, ?_⟩
    change content? ('"' :: rest) = _
    rw [content?, if_pos rfl]
  | cons c content ih =>
    obtain ⟨d, tail, hescape, hd⟩ := exists_escape_eq c
    have hfirst := reads_character c (content.flatMap escape ++ '"' :: rest)
    rw [List.flatMap_cons, List.append_assoc]
    rw [hescape, List.cons_append] at hfirst ⊢
    exact reads_content_cons hd hfirst ih

/-! ## Words -/

/-- Digits belong to words. -/
theorem isInWord_of_isDigit {c : Char} (h : c.isDigit = true) : isInWord c = true := by
  have hbreaks : [' ', '\t', '\n', '\r', '[', ']', '\x7b', '\x7d', ',', ':', '"'].all
      (!Char.isDigit ·) = true := by decide
  by_contra hc
  have hmem : c ∈ [' ', '\t', '\n', '\r', '[', ']', '\x7b', '\x7d', ',', ':', '"'] := by
    simp only [isInWord, isBlank, isMark] at hc
    grind
  simpa [h] using List.all_eq_true.1 hbreaks c hmem

/-- Every character of a run of digits belongs to words. -/
theorem isInWord_of_isDigits {digits : List Char} (h : isDigits digits = true) :
    ∀ c ∈ digits, isInWord c = true := by
  intro c hc
  exact isInWord_of_isDigit ((isDigits_iff.1 h).2 c hc)

/-- The letter and the sign of an exponent belong to the word too. -/
theorem isInWord_of_isExponent {text : List Char} (h : isExponent text = true) :
    ∀ c ∈ text, isInWord c = true := by
  have hletter : ∀ {e : Char}, (e == 'e' || e == 'E') = true → isInWord e = true := by
    intro e he
    rcases (by simpa using he : e = 'e' ∨ e = 'E') with rfl | rfl <;> decide
  unfold isExponent at h
  split at h
  · simp
  all_goals
    rw [Bool.and_eq_true] at h
    have hdigits := isInWord_of_isDigits h.2
    simp only [List.mem_cons, forall_eq_or_imp]
  · exact ⟨hletter h.1, by decide, hdigits⟩
  · exact ⟨hletter h.1, by decide, hdigits⟩
  · exact ⟨hletter h.1, hdigits⟩

/-- Digits at the head of a text never end a word. -/
theorem isInWord_of_span {text : List Char}
    (h : ∀ c ∈ text.dropWhile Char.isDigit, isInWord c = true) : ∀ c ∈ text, isInWord c = true := by
  intro c hc
  rw [← List.takeWhile_append_dropWhile (p := Char.isDigit) (l := text), List.mem_append] at hc
  rcases hc with hc | hc
  · exact isInWord_of_isDigit (List.mem_takeWhile_imp hc)
  · exact h c hc

/-- The point of a fraction belongs to the word. -/
theorem isInWord_of_isFraction {text : List Char} (h : isFraction text = true) :
    ∀ c ∈ text, isInWord c = true := by
  unfold isFraction at h
  split at h
  · rw [Bool.and_eq_true] at h
    simp only [List.mem_cons, forall_eq_or_imp]
    exact ⟨by decide, isInWord_of_span (isInWord_of_isExponent h.2)⟩
  · exact isInWord_of_isExponent h

/-- A number without a minus is one word. -/
theorem isInWord_of_isUnsigned {text : List Char} (h : isUnsigned text = true) :
    ∀ c ∈ text, isInWord c = true := by
  rw [isUnsigned, Bool.and_eq_true] at h
  exact isInWord_of_span (isInWord_of_isFraction h.2)

/-- A number is one word, with its minus. -/
theorem isInWord_of_isNumeral {text : List Char} (h : isNumeral text = true) :
    ∀ c ∈ text, isInWord c = true := by
  unfold isNumeral at h
  split at h
  · simp only [List.mem_cons, forall_eq_or_imp]
    exact ⟨by decide, isInWord_of_isUnsigned h⟩
  · exact isInWord_of_isUnsigned h

/-- No word goes on here. -/
def EndsWord (rest : List Char) : Prop :=
  ∀ c ∈ rest.head?, isInWord c = false

/-- The end of the text ends a word. -/
theorem endsWord_nil : EndsWord [] :=
  fun _ h => nomatch h

/-- Punctuation ends a word. -/
theorem EndsWord.of_isMark {c : Char} (h : isMark c = true) (rest : List Char) :
    EndsWord (c :: rest) := by
  rintro _ ⟨⟩
  simp [isInWord, h]

/-- Blanks end a word, or nothing stands between it and what ends it. -/
theorem EndsWord.append_blanks {tail : List Char} (htail : AreBlanks tail)
    (hrest : EndsWord rest) : EndsWord (tail ++ rest) := by
  cases tail with
  | nil => exact hrest
  | cons c tail =>
    rintro _ ⟨⟩
    simp [isInWord, htail c List.mem_cons_self]

/-- A word goes as far as its characters do. -/
theorem span_word {word : List Char} (hword : ∀ c ∈ word, isInWord c = true)
    (hrest : EndsWord rest) :
    (word ++ rest).takeWhile isInWord = word ∧ (word ++ rest).dropWhile isInWord = rest := by
  rw [List.takeWhile_append_of_pos hword, List.dropWhile_append_of_pos hword]
  cases rest with
  | nil => simp
  | cons c rest => simp [hrest c rfl]

/-! ## Rules of reading -/

/-- The items of an array, behind its opening bracket. -/
def items? (text : List Char) : Option (Reading (List Json) text) :=
  container? ']' text fun part _ => value? part

/-- A field of an object. -/
def keyed? (text : List Char) : Option (Reading (String × Json) text) :=
  field? text fun part _ => value? part

/-- The fields of an object, behind its opening brace. -/
def fields? (text : List Char) : Option (Reading (List (String × Json)) text) :=
  container? '\x7d' text fun part _ => keyed? part

/-- A string is a quote and its content. -/
theorem reads_string {content : String} {rest' : List Char} (hquote : Reads mark? text '"' rest)
    (hcontent : Reads content? rest content.toList rest') :
    Reads value? text (.string content) rest' := by
  obtain ⟨shorter, hquote⟩ := hquote
  obtain ⟨shorter', hcontent⟩ := hcontent
  refine ⟨Nat.lt_trans shorter' shorter, ?_⟩
  rw [value?, hquote]
  simp [hcontent, Reading.followed]

/-- An array is a bracket and its items. -/
theorem reads_array {items : List Json} {rest' : List Char} (hbracket : Reads mark? text '[' rest)
    (hitems : Reads items? rest items rest') : Reads value? text (.array items) rest' := by
  obtain ⟨shorter, hbracket⟩ := hbracket
  obtain ⟨shorter', hitems⟩ := hitems
  refine ⟨Nat.lt_trans shorter' shorter, ?_⟩
  rw [items?] at hitems
  rw [value?, hbracket]
  simp [hitems, Reading.followed]

/-- An object is a brace and its fields. -/
theorem reads_object {fields : List (String × Json)} {rest' : List Char}
    (hbrace : Reads mark? text '\x7b' rest) (hfields : Reads fields? rest fields rest') :
    Reads value? text (.object fields) rest' := by
  obtain ⟨shorter, hbrace⟩ := hbrace
  obtain ⟨shorter', hfields⟩ := hfields
  refine ⟨Nat.lt_trans shorter' shorter, ?_⟩
  simp only [fields?, keyed?] at hfields
  rw [value?, hbrace]
  simp [hfields, Reading.followed]

/-- A field is a quoted key, a colon and a value. -/
theorem reads_keyed {key : String} {value : Json} {rest₁ rest₂ rest₃ : List Char}
    (hquote : Reads mark? text '"' rest) (hkey : Reads content? rest key.toList rest₁)
    (hcolon : Reads mark? rest₁ ':' rest₂) (hvalue : Reads value? rest₂ value rest₃) :
    Reads keyed? text (key, value) rest₃ := by
  obtain ⟨shorter₁, hquote⟩ := hquote
  obtain ⟨shorter₂, hkey⟩ := hkey
  obtain ⟨shorter₃, hcolon⟩ := hcolon
  obtain ⟨shorter₄, hvalue⟩ := hvalue
  refine ⟨by omega, ?_⟩
  rw [keyed?, field?, hquote]
  simp [hkey, hcolon, hvalue]

/-- A word that no mark begins is read as the scalar that it spells. -/
theorem reads_scalar {c : Char} {word : List Char} {value : Json}
    (hmark : Reads mark? text c (word ++ rest)) (hc : isMark c = false)
    (hword : ∀ d ∈ word, isInWord d = true) (hrest : EndsWord rest)
    (h : scalar? (c :: word) = some value) : Reads value? text value rest := by
  obtain ⟨htake, hdrop⟩ := span_word hword hrest
  obtain ⟨shorter, hmark⟩ := hmark
  refine ⟨by rw [List.length_append] at shorter; omega, ?_⟩
  rw [value?, hmark]
  have hquote : c ≠ '"' := by rintro rfl; exact absurd hc (by decide)
  have hbracket : c ≠ '[' := by rintro rfl; exact absurd hc (by decide)
  have hbrace : c ≠ '\x7b' := by rintro rfl; exact absurd hc (by decide)
  simp [htake, hdrop, h]

/-! ## Elements -/

/-- A text that is read as a value wherever it stands. It cannot be taken for the end of an array or
object. -/
structure Spells (read : (text : List Char) → Option (Reading α text)) (text : List Char)
    (value : α) : Prop where
  reads {gap rest : List Char} (hgap : AreBlanks gap) (hrest : EndsWord rest) :
    Reads read (gap ++ (text ++ rest)) value rest
  starts : ∃ c tail, text = c :: tail ∧ isBlank c = false ∧ c ≠ ']' ∧ c ≠ '\x7d'

section Elements

variable {read : (text : List Char) → Option (Reading α text)} {closing : Char}

/-- Behind the last element stands the closing mark. -/
theorem reads_last {value : α} {rest' : List Char} (hfirst : Reads read text value rest)
    (hnext : Reads mark? rest closing rest') :
    Reads (elements? closing · fun part _ => read part) text [value] rest' := by
  obtain ⟨shorter, hfirst⟩ := hfirst
  obtain ⟨shorter', hnext⟩ := hnext
  refine ⟨Nat.lt_trans shorter' shorter, ?_⟩
  simp only
  rw [elements?, hfirst]
  simp [hnext]

/-- Behind any other element stands a comma. -/
theorem reads_cons {value : α} {values : List α} {rest' rest'' : List Char}
    (hclosing : closing ≠ ',') (hfirst : Reads read text value rest)
    (hnext : Reads mark? rest ',' rest')
    (hmore : Reads (elements? closing · fun part _ => read part) rest' values rest'') :
    Reads (elements? closing · fun part _ => read part) text (value :: values) rest'' := by
  obtain ⟨shorter, hfirst⟩ := hfirst
  obtain ⟨shorter', hnext⟩ := hnext
  obtain ⟨shorter'', hmore⟩ := hmore
  refine ⟨by omega, ?_⟩
  simp only at hmore ⊢
  rw [elements?, hfirst]
  simp [hnext, hclosing.symm, hmore]

/-- Elements are read in turn, with the same blanks before each of them. -/
theorem reads_elements {write : α → List Char} {lead tail : List Char} (hlead : AreBlanks lead)
    (htail : AreBlanks tail) (hmark : isMark closing = true) (hclosing : closing ≠ ',')
    (value : α) (values : List α) (h : ∀ v ∈ value :: values, Spells read (write v) v)
    (rest : List Char) :
    Reads (elements? closing · fun part _ => read part)
      (lead ++ ((',' :: lead).intercalate ((value :: values).map write) ++
        (tail ++ closing :: rest))) (value :: values) rest := by
  -- a comma ends a word like the closing mark, so each element is read the same way
  have hfirst := h value List.mem_cons_self
  induction values generalizing value with
  | nil =>
    have hrest : EndsWord (tail ++ closing :: rest) :=
      (EndsWord.of_isMark hmark rest).append_blanks htail
    rw [List.map_singleton, List.intercalate_singleton]
    exact reads_last (hfirst.reads hlead hrest) (reads_mark htail (not_isBlank_of_isMark hmark))
  | cons next values ih =>
    rw [List.map_cons, List.map_cons, List.intercalate_cons_cons, List.append_assoc,
      List.append_assoc, List.cons_append]
    have hmore := ih next (fun v hv => h v (List.mem_cons_of_mem _ hv))
      (h next (List.mem_cons_of_mem _ List.mem_cons_self))
    refine reads_cons hclosing (hfirst.reads hlead (.of_isMark rfl _)) ?_ hmore
    exact reads_mark areBlanks_nil rfl

/-- A closing mark right away makes an empty container. -/
theorem reads_container_nil (hclosing : Reads mark? text closing rest) :
    Reads (container? closing · fun part _ => read part) text [] rest := by
  obtain ⟨shorter, hclosing⟩ := hclosing
  refine ⟨shorter, ?_⟩
  simp only
  rw [container?, hclosing]
  simp

/-- Anything else begins the first element. -/
theorem reads_container_cons {c : Char} {values : List α} {rest' : List Char}
    (hmark : Reads mark? text c rest') (hc : c ≠ closing)
    (h : Reads (elements? closing · fun part _ => read part) text values rest) :
    Reads (container? closing · fun part _ => read part) text values rest := by
  obtain ⟨shorter, hmark⟩ := hmark
  obtain ⟨shorter', h⟩ := h
  refine ⟨shorter', ?_⟩
  simp only at h ⊢
  rw [container?, hmark]
  simp [hc, h]

/-- Elements up to the closing mark are read, also if there are none. -/
theorem reads_container {write : α → List Char} {lead tail : List Char} (hlead : AreBlanks lead)
    (htail : AreBlanks tail) (hclosing : closing = ']' ∨ closing = '\x7d') (values : List α)
    (h : ∀ v ∈ values, Spells read (write v) v) (rest : List Char) :
    Reads (container? closing · fun part _ => read part)
      (lead ++ ((',' :: lead).intercalate (values.map write) ++ (tail ++ closing :: rest))) values
      rest := by
  have hmark : isMark closing = true := by rcases hclosing with rfl | rfl <;> decide
  have hcomma : closing ≠ ',' := by rcases hclosing with rfl | rfl <;> decide
  cases values with
  | nil =>
    have hgap : AreBlanks (lead ++ tail) := by
      simpa [AreBlanks, or_imp, forall_and] using And.intro hlead htail
    have hnext : Reads mark? (lead ++ tail ++ closing :: rest) closing rest :=
      reads_mark hgap (not_isBlank_of_isMark hmark)
    rw [List.append_assoc] at hnext
    exact reads_container_nil hnext
  | cons value values =>
    have helements := reads_elements hlead htail hmark hcomma value values h rest
    obtain ⟨c, text, htext, hblank, hbracket, hbrace⟩ := (h value List.mem_cons_self).starts
    have hc : c ≠ closing := by rcases hclosing with rfl | rfl <;> assumption
    rw [List.map_cons, htext, List.intercalate_cons_cons_left, List.cons_append] at helements ⊢
    exact reads_container_cons (reads_mark hlead hblank) hc helements

end Elements

/-! ## Written trees -/

/-- Every number of a tree is written as one. -/
inductive WellFormed : Json → Prop
  | null : WellFormed .null
  | boolean (truth : Bool) : WellFormed (.boolean truth)
  | number {literal : String} (h : isNumeral literal.toList = true) : WellFormed (.number literal)
  | string (content : String) : WellFormed (.string content)
  | array {items : List Json} (h : ∀ item ∈ items, WellFormed item) : WellFormed (.array items)
  | object {fields : List (String × Json)} (h : ∀ field ∈ fields, WellFormed field.2) :
      WellFormed (.object fields)

/-- The items on one line are written each for itself. -/
theorem inlineItems_eq_map (style : Style) (items : List Json) :
    inlineItems style items = items.map (inline style) := by
  induction items with
  | nil => rw [inlineItems, List.map_nil]
  | cons item items ih => rw [inlineItems, ih, List.map_cons]

/-- The fields on one line are written each for itself, behind its key. -/
theorem inlineFields_eq_map (style : Style) (fields : List (String × Json)) :
    inlineFields style fields =
      fields.map fun field => keyed style field.1 ++ inline style field.2 := by
  induction fields with
  | nil => rw [inlineFields, List.map_nil]
  | cons field fields ih => rw [inlineFields, ih, List.map_cons]

/-- In both styles the entries stand between brackets with commas, and with nothing else but the
same blanks before each entry and others behind the last. -/
theorem exists_toList_container (style : Style) (opening closing : String)
    (entries : List String) : ∃ lead tail, AreBlanks lead ∧ AreBlanks tail ∧
      (container style opening closing entries).toList = opening.toList ++
        (lead ++ ((',' :: lead).intercalate (entries.map String.toList) ++
          (tail ++ closing.toList))) := by
  have hcompact : (opening ++ ",".intercalate entries ++ closing).toList = opening.toList ++
      ([] ++ ([','].intercalate (entries.map String.toList) ++ ([] ++ closing.toList))) := by
    simp [String.toList_intercalate]
  cases style with
  | compact => exact ⟨[], [], areBlanks_nil, areBlanks_nil, hcompact⟩
  | pretty =>
    cases entries with
    | nil => exact ⟨[], [], areBlanks_nil, areBlanks_nil, hcompact⟩
    | cons e entries =>
      refine ⟨['\n', ' ', ' '], ['\n'], ?_, ?_, ?_⟩
      · simp [AreBlanks, isBlank]
      · simp [AreBlanks, isBlank]
      · simp [container, String.toList_intercalate]

/-- A quoted text is its escapes between two quotes. -/
theorem toList_quoted (text : String) :
    (quoted text).toList = '"' :: (text.toList.flatMap escape ++ ['"']) := by
  simp [quoted]

/-- A scalar spells its value wherever the word ends. -/
theorem spells_scalar {word : List Char} {value : Json} (hne : word ≠ [])
    (hword : ∀ c ∈ word, isInWord c = true) (h : scalar? word = some value) :
    Spells value? word value := by
  obtain ⟨c, word, rfl⟩ := List.exists_cons_of_ne_nil hne
  have hc : isBlank c = false ∧ isMark c = false := by
    simpa [isInWord] using hword c List.mem_cons_self
  refine ⟨fun hgap hrest => ?_, c, word, rfl, hc.1, ?_, ?_⟩
  · exact reads_scalar (reads_mark hgap hc.1) hc.2
      (fun d hd => hword d (List.mem_cons_of_mem _ hd)) hrest h
  · rintro rfl
    exact absurd hc.2 (by decide)
  · rintro rfl
    exact absurd hc.2 (by decide)

/-- A quoted text spells itself. -/
theorem spells_quoted (content : String) :
    Spells value? (quoted content).toList (.string content) := by
  rw [toList_quoted]
  refine ⟨fun {gap rest} hgap hrest => ?_, _, _, rfl, rfl, by decide, by decide⟩
  rw [List.cons_append, List.append_assoc, List.singleton_append]
  exact reads_string (reads_mark hgap rfl) (reads_content content.toList rest)

/-- An array spells its items if each of them is spelled, whatever the layout. -/
theorem spells_array {items : List Json} {style : Style}
    (h : ∀ item ∈ items, Spells value? (inline style item).toList item) (outer : Style) :
    Spells value? (container outer "[" "]" (inlineItems style items)).toList (.array items) := by
  obtain ⟨lead, tail, hlead, htail, htext⟩ :=
    exists_toList_container outer "[" "]" (inlineItems style items)
  rw [htext, inlineItems_eq_map, List.map_map, Function.comp_def]
  refine ⟨fun {gap rest} hgap hrest => ?_, _, _, rfl, rfl, by decide, by decide⟩
  have hitems := reads_container hlead htail (.inl rfl) items h rest
  simpa [List.append_assoc] using reads_array (reads_mark hgap rfl) hitems

/-- A field spells its key and its value. -/
theorem spells_keyed {key : String} {value : Json} {style : Style}
    (h : Spells value? (inline style value).toList value) :
    Spells keyed? (keyed style key ++ inline style value).toList (key, value) := by
  obtain ⟨gap', hgap', hkeyed⟩ : ∃ gap', AreBlanks gap' ∧ (keyed style key).toList =
      '"' :: (key.toList.flatMap escape ++ '"' :: ':' :: gap') := by
    cases style with
    | compact => exact ⟨[], areBlanks_nil, by simp [keyed, toList_quoted]⟩
    | pretty => exact ⟨[' '], by simp [AreBlanks, isBlank], by simp [keyed, toList_quoted]⟩
  rw [String.toList_append, hkeyed]
  refine ⟨fun {gap rest} hgap hrest => ?_, _, _, rfl, rfl, by decide, by decide⟩
  have hkey := reads_content key.toList (':' :: (gap' ++ ((inline style value).toList ++ rest)))
  simpa [List.append_assoc] using
    reads_keyed (reads_mark hgap rfl) hkey (reads_mark areBlanks_nil rfl) (h.reads hgap' hrest)

/-- An object spells its fields if each of their values is spelled. -/
theorem spells_object {fields : List (String × Json)} {style : Style}
    (h : ∀ field ∈ fields, Spells value? (inline style field.2).toList field.2) (outer : Style) :
    Spells value? (container outer "\x7b" "\x7d" (inlineFields style fields)).toList
      (.object fields) := by
  obtain ⟨lead, tail, hlead, htail, htext⟩ :=
    exists_toList_container outer "\x7b" "\x7d" (inlineFields style fields)
  rw [htext, inlineFields_eq_map, List.map_map, Function.comp_def]
  refine ⟨fun {gap rest} hgap hrest => ?_, _, _, rfl, rfl, by decide, by decide⟩
  have hfields := reads_container hlead htail (.inr rfl) fields
    (fun field hfield => spells_keyed (h field hfield)) rest
  simpa [List.append_assoc] using reads_object (reads_mark hgap rfl) hfields

/-- A numeral spells itself: the digits are kept as they are written. -/
theorem spells_number {literal : String} (h : isNumeral literal.toList = true) :
    Spells value? literal.toList (.number literal) := by
  refine spells_scalar ?_ (isInWord_of_isNumeral h) ?_
  · intro hnil
    rw [hnil] at h
    exact absurd h (by decide)
  · have hnames : ∀ name ∈ ["null".toList, "true".toList, "false".toList],
        isNumeral name = false := by decide
    have hne : ∀ name ∈ ["null".toList, "true".toList, "false".toList],
        literal.toList ≠ name := by
      rintro name hname rfl
      rw [hnames _ hname] at h
      exact absurd h (by decide)
    simp only [List.mem_cons, forall_eq_or_imp] at hne
    rw [scalar?, if_neg hne.1, if_neg hne.2.1, if_neg hne.2.2.1, if_pos h, String.ofList_toList]

/-- Each part of a tree is read back from its line. -/
theorem WellFormed.spells_inline {value : Json} (h : WellFormed value) (style : Style) :
    Spells value? (inline style value).toList value := by
  induction h with
  | null =>
    rw [inline]
    exact spells_scalar (by decide) (List.all_eq_true.1 (by decide)) rfl
  | boolean truth =>
    rw [inline]
    cases truth with
    | false => exact spells_scalar (by decide) (List.all_eq_true.1 (by decide)) rfl
    | true => exact spells_scalar (by decide) (List.all_eq_true.1 (by decide)) rfl
  | number h =>
    rw [inline]
    exact spells_number h
  | string content =>
    rw [inline]
    exact spells_quoted content
  | array _ ih =>
    -- what is inside an entry stays on its line, as in the compact style
    rw [inline]
    exact spells_array ih .compact
  | object _ ih =>
    rw [inline]
    exact spells_object ih .compact

/-- The text of a well-formed tree spells the tree in either style. -/
theorem WellFormed.spells_render {value : Json} (h : WellFormed value) (style : Style) :
    Spells value? (value.render style).toList value := by
  have hinline := h.spells_inline style
  cases h with
  | array h => exact spells_array (fun item hitem => (h item hitem).spells_inline style) style
  | object h => exact spells_object (fun field hfield => (h field hfield).spells_inline style) style
  | _ => exact hinline

/-- The text of a tree is read back, in either style. -/
theorem WellFormed.decode_render {value : Json} (h : WellFormed value) (style : Style) :
    decode (value.render style) = some value := by
  have hreads : Reads value? (value.render style).toList value [] := by
    simpa using (h.spells_render style).reads areBlanks_nil endsWord_nil
  obtain ⟨shorter, hvalue⟩ := hreads
  rw [decode, hvalue]
  rfl

end Sting.Json
