/-!
# Positions

A place in a source text, counted three ways from zero: lines, characters of the line, bytes of the
whole text.
-/

namespace Sting

/-- A place in a source text. -/
structure Position where
  /-- Newlines before the place. -/
  line : Nat
  /-- Characters between the start of the line and the place. -/
  column : Nat
  /-- Bytes of UTF-8 before the place. -/
  offset : Nat
deriving DecidableEq, Repr

namespace Position

/-- The place before the first character. -/
def start : Position :=
  ⟨0, 0, 0⟩

/-- The place after one more character. -/
def next (p : Position) (c : Char) : Position :=
  if c = '\n' then ⟨p.line + 1, 0, p.offset + c.utf8Size⟩
  else ⟨p.line, p.column + 1, p.offset + c.utf8Size⟩

/-- The place after more text. -/
def after (p : Position) (text : List Char) : Position :=
  text.foldl next p

/-- Line and column as people count them, from one. -/
def render (p : Position) : String :=
  toString (p.line + 1) ++ ":" ++ toString (p.column + 1)

@[simp] theorem after_nil (p : Position) : p.after [] = p := rfl

@[simp] theorem after_cons (p : Position) (c : Char) (text : List Char) :
    p.after (c :: text) = (p.next c).after text := rfl

/-- A place is reached in two stretches as in one. -/
theorem after_append (p : Position) (s t : List Char) : p.after (s ++ t) = (p.after s).after t :=
  List.foldl_append ..

end Position

end Sting
