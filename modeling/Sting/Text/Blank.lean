/-!
# Blank characters

The twenty-five characters with the Unicode property White_Space, and trimming by them.
-/

namespace Sting.Text

/-- White_Space: the controls from tab to carriage return, space, next line, no-break space and the
spaces and separators of the general punctuation and ideographic blocks. -/
def isBlank (c : Char) : Bool :=
  let n := c.toNat
  (0x09 ≤ n && n ≤ 0x0D) || n == 0x20 || n == 0x85 || n == 0xA0 || n == 0x1680 ||
    (0x2000 ≤ n && n ≤ 0x200A) || n == 0x2028 || n == 0x2029 || n == 0x202F || n == 0x205F ||
    n == 0x3000

/-- Drops the blanks at both ends. -/
def trim (text : List Char) : List Char :=
  ((text.dropWhile isBlank).reverse.dropWhile isBlank).reverse

end Sting.Text
