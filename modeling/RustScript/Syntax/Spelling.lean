/-
  How literals are spelled in JavaScript.
-/
import RustScript.Literal.Escape
import RustScript.Number.Reading
import RustScript.Number.Shortest
import RustScript.Syntax.Pattern

namespace RustScript

namespace Literal

/-- Whether the literal can be written: decimal numerals are limited in length. -/
def isWritable : Literal → Bool
  | int value => (Nat.toDigits 10 value.natAbs).length ≤ Reading.maxDigits
  | _ => true

def quote (s : String) : String := "\"" ++ escapeString s ++ "\""

def spelling : Literal → String
  | int value => toString value
  | float value => value.toText
  | str value => quote value
  | char value => quote value
  | bool value => if value then "true" else "false"

end Literal

/-- The JavaScript spelling of a literal pattern, with its sign. -/
def LitPat.spelling (p : LitPat) : String :=
  if p.negative then "-" ++ p.lit.spelling else p.lit.spelling

end RustScript
