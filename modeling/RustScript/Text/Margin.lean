/-
  The margin of an indented text.

  Text that stands inside other code is indented with it. `unindent` takes the common margin of all
  lines but the first away, the whole indentation of the first line, and empty lines at both ends.
-/
import RustScript.Text.Blank
import RustScript.Text.Lines

namespace RustScript.Text

def tabStop : Nat := 8

/-- Makes tabs blanks up to the next tab stop, from a column on. -/
def expandTabs : (column : Nat) → List Char → List Char
  | _, [] => []
  | column, c :: cs =>
    if c == '\t' then
      let width := tabStop - column % tabStop
      List.replicate width ' ' ++ expandTabs (column + width) cs
    else if c == '\n' || c == '\r' then c :: expandTabs 0 cs
    else c :: expandTabs (column + 1) cs

/-- The width of the blanks that a line begins with, none for a line of blanks only. -/
def indentation? (line : List Char) : Option Nat :=
  let content := (trimLeft line).length
  if content == 0 then none else some (line.length - content)

def margin? (lines : List (List Char)) : Option Nat := (lines.filterMap indentation?).min?

def withoutMargin : List (List Char) → List (List Char)
  | [] => []
  | first :: rest => trimLeft first :: rest.map fun line => line.drop ((margin? rest).getD 0)

def withoutEnds (lines : List (List Char)) : List (List Char) :=
  ((lines.reverse.dropWhile List.isEmpty).reverse).dropWhile List.isEmpty

def unindent (s : String) : String :=
  let lines := withoutMargin (cutLines (expandTabs 0 s.toList))
  "\n".intercalate ((withoutEnds lines).map String.ofList)

end RustScript.Text
