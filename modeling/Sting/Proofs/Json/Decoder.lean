import Mathlib.Data.List.TakeWhile
import Mathlib.Tactic.Common
import Sting.Json

/-!
# Decoding JSON

The tree that a JSON text stands for, after RFC 8259. Blanks may stand around every mark and every
value. Numbers are read without loss, as their literals, and the fields of an object keep their
order. Half a surrogate pair is no character.
-/

namespace Sting.Json

/-- What was read off the head of a text, and what is left of the text. -/
structure Reading (α : Type) (text : List Char) where
  value : α
  rest : List Char
  shorter : rest.length < text.length

namespace Reading

variable {α β γ : Type} {text : List Char}

/-- The same reading, with one more character skipped before it. -/
def later (c : Char) (reading : Reading α text) : Reading α (c :: text) :=
  ⟨reading.value, reading.rest, Nat.lt_succ_of_lt reading.shorter⟩

/-- Two readings, one after the other, that make up one value. -/
def followed (first : Reading α text) (second : Reading β first.rest) (value : γ) :
    Reading γ text :=
  ⟨value, second.rest, Nat.lt_trans second.shorter first.shorter⟩

end Reading

/-! ## Blanks and marks -/

/-- The blanks that may stand between the parts of a text. -/
def isBlank (c : Char) : Bool :=
  c == ' ' || c == '\t' || c == '\n' || c == '\r'

/-- The marks that hold the parts of a text together. -/
def isMark (c : Char) : Bool :=
  ['[', ']', '\x7b', '\x7d', ',', ':', '"'].contains c

/-- The first character that is no blank. -/
def mark? : (text : List Char) → Option (Reading Char text)
  | [] => none
  | c :: rest =>
    if isBlank c then (mark? rest).map (Reading.later c) else some ⟨c, rest, Nat.lt_succ_self _⟩

/-! ## Strings -/

/-- The value of a hexadecimal digit. -/
def hexValue? (c : Char) : Option Nat :=
  if '0' ≤ c ∧ c ≤ '9' then some (c.toNat - '0'.toNat)
  else if 'a' ≤ c ∧ c ≤ 'f' then some (c.toNat - 'a'.toNat + 10)
  else if 'A' ≤ c ∧ c ≤ 'F' then some (c.toNat - 'A'.toNat + 10)
  else none

/-- Four hexadecimal digits: one unit of UTF-16. -/
def unit? : (text : List Char) → Option (Reading Nat text)
  | a :: b :: c :: d :: rest => do
    let a ← hexValue? a
    let b ← hexValue? b
    let c ← hexValue? c
    let d ← hexValue? d
    return ⟨((a * 16 + b) * 16 + c) * 16 + d, rest, by simp only [List.length_cons]; omega⟩
  | _ => none

/-- The character of one unit, or of two units that are a surrogate pair. -/
def unicode? (text : List Char) : Option (Reading Char text) := do
  let high ← unit? text
  if high.value < 0xd800 ∨ 0xdfff < high.value then
    return ⟨Char.ofNat high.value, high.rest, high.shorter⟩
  else if high.value < 0xdc00 then
    match h : high.rest with
    | '\\' :: 'u' :: rest =>
      let low ← unit? rest
      if 0xdc00 ≤ low.value ∧ low.value ≤ 0xdfff then
        let code := 0x10000 + (high.value - 0xd800) * 0x400 + (low.value - 0xdc00)
        return ⟨Char.ofNat code, low.rest, by
          have := high.shorter
          have := low.shorter
          simp only [h, List.length_cons] at *
          omega⟩
      else none
    | _ => none
  else none

/-- The character that one character stands for behind a backslash. -/
def escaped? : Char → Option Char
  | '"' => some '"'
  | '\\' => some '\\'
  | '/' => some '/'
  | 'b' => some '\x08'
  | 'f' => some '\x0c'
  | 'n' => some '\n'
  | 'r' => some '\r'
  | 't' => some '\t'
  | _ => none

/-- What stands behind a backslash. -/
def escape? : (text : List Char) → Option (Reading Char text)
  | [] => none
  | c :: rest =>
    if c = 'u' then (unicode? rest).map (Reading.later c)
    else (escaped? c).map (⟨·, rest, Nat.lt_succ_self _⟩)

/-- One character between double quotes. A control character does not stand for itself. -/
def character? : (text : List Char) → Option (Reading Char text)
  | [] => none
  | c :: rest =>
    if c = '\\' then (escape? rest).map (Reading.later c)
    else if c.toNat < 0x20 then none
    else some ⟨c, rest, Nat.lt_succ_self _⟩

/-- The characters up to the closing quote. -/
def content? (text : List Char) : Option (Reading (List Char) text) :=
  match text with
  | [] => none
  | c :: rest =>
    if c = '"' then some ⟨[], rest, Nat.lt_succ_self _⟩
    else do
      let first ← character? (c :: rest)
      let more ← content? first.rest
      return first.followed more (first.value :: more.value)
termination_by text.length
decreasing_by exact first.shorter

/-! ## Words -/

/-- One digit or more. -/
def isDigits (text : List Char) : Bool :=
  !text.isEmpty && text.all Char.isDigit

/-- There is a digit, and nothing but digits. -/
theorem isDigits_iff {text : List Char} :
    isDigits text = true ↔ text ≠ [] ∧ ∀ c ∈ text, c.isDigit = true := by
  simp [isDigits]

/-- The exponent of a number, with its letter and an optional sign, or nothing. -/
def isExponent : List Char → Bool
  | [] => true
  | e :: '+' :: digits | e :: '-' :: digits => (e == 'e' || e == 'E') && isDigits digits
  | e :: digits => (e == 'e' || e == 'E') && isDigits digits

/-- The fraction of a number, if there is one, and its exponent. -/
def isFraction : List Char → Bool
  | '.' :: rest =>
    isDigits (rest.takeWhile Char.isDigit) && isExponent (rest.dropWhile Char.isDigit)
  | rest => isExponent rest

/-- The whole part of a number: only zero itself starts with a zero. -/
def isWhole (digits : List Char) : Bool :=
  isDigits digits && (digits == ['0'] || digits.head? != some '0')

/-- A number without a sign: the whole part, then a fraction and an exponent. -/
def isUnsigned (text : List Char) : Bool :=
  isWhole (text.takeWhile Char.isDigit) && isFraction (text.dropWhile Char.isDigit)

/-- A number, with a minus if it is negative. -/
def isNumeral : List Char → Bool
  | '-' :: text => isUnsigned text
  | text => isUnsigned text

/-- The value of a word, which is a number or one of three names. -/
def scalar? (word : List Char) : Option Json :=
  if word = "null".toList then some .null
  else if word = "true".toList then some (.boolean true)
  else if word = "false".toList then some (.boolean false)
  else if isNumeral word then some (.number (String.ofList word))
  else none

/-- A word goes on up to the next blank or mark. -/
def isInWord (c : Char) : Bool :=
  !isBlank c && !isMark c

/-! ## Values -/

/-- One element or more with commas between them, up to a closing mark. Elements are only looked for
in the text and in what is left of it. -/
def elements? {α : Type} (closing : Char) (text : List Char)
    (element? : (part : List Char) → part.length ≤ text.length → Option (Reading α part)) :
    Option (Reading (List α) text) := do
  let first ← element? text (Nat.le_refl _)
  let next ← mark? first.rest
  have hnext : next.rest.length < text.length := Nat.lt_trans next.shorter first.shorter
  if next.value = closing then
    return ⟨[first.value], next.rest, hnext⟩
  else if next.value = ',' then
    let more ← elements? closing next.rest fun part h =>
      element? part (Nat.le_trans h (Nat.le_of_lt hnext))
    return ⟨first.value :: more.value, more.rest, Nat.lt_trans more.shorter hnext⟩
  else none
termination_by text.length

/-- Elements up to a closing mark, which may come at once. -/
def container? {α : Type} (closing : Char) (text : List Char)
    (element? : (part : List Char) → part.length ≤ text.length → Option (Reading α part)) :
    Option (Reading (List α) text) := do
  let next ← mark? text
  if next.value = closing then return ⟨[], next.rest, next.shorter⟩
  else elements? closing text element?

/-- A key, a colon and a value. -/
def field? (text : List Char)
    (value? : (part : List Char) → part.length ≤ text.length → Option (Reading Json part)) :
    Option (Reading (String × Json) text) := do
  let quote ← mark? text
  if quote.value = '"' then
    let key ← content? quote.rest
    let colon ← mark? key.rest
    have hcolon : colon.rest.length < text.length :=
      Nat.lt_trans colon.shorter (Nat.lt_trans key.shorter quote.shorter)
    if colon.value = ':' then
      let value ← value? colon.rest (Nat.le_of_lt hcolon)
      return ⟨(String.ofList key.value, value.value), value.rest, Nat.lt_trans value.shorter hcolon⟩
    else none
  else none

/-- A value, which its first character tells apart. -/
def value? (text : List Char) : Option (Reading Json text) := do
  let first ← mark? text
  match first.value with
  | '"' =>
    let content ← content? first.rest
    return first.followed content (.string (String.ofList content.value))
  | '[' =>
    let items ← container? ']' first.rest fun part _ => value? part
    return first.followed items (.array items.value)
  | '\x7b' =>
    let fields ← container? '\x7d' first.rest fun part _ => field? part fun part _ => value? part
    return first.followed fields (.object fields.value)
  | c =>
    let value ← scalar? (c :: first.rest.takeWhile isInWord)
    return ⟨value, first.rest.dropWhile isInWord,
      Nat.lt_of_le_of_lt (List.dropWhile_suffix _).length_le first.shorter⟩
termination_by text.length
decreasing_by
  all_goals
    have := first.shorter
    omega

/-- The tree of a text that holds one value and no more. -/
def decode (text : String) : Option Json := do
  let value ← value? text.toList
  if value.rest.all isBlank then some value.value else none

example : (decode "[1,]").isNone := by decide +kernel

example : (decode "\"\\ud83d\"").isNone := by decide +kernel

end Sting.Json
