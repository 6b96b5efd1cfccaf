/-!
# Letters up to case
-/

namespace Sting.Text

/-- Equality of texts up to the case of ASCII letters. -/
def sameLetters (a b : String) : Bool :=
  a.toList.map Char.toLower == b.toList.map Char.toLower

end Sting.Text
