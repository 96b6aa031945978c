/-
  White space: which characters are blank, and how texts are trimmed and cut at blanks.

  The controls U+001C to U+001F and U+0085 count as blank along with the separators of every
  script; the zero-width space does not.
-/
import RustScript.Text.CodePoints

namespace RustScript.Text

def blankBounds : List Nat :=
  [0x9, 0xe, 0x1c, 0x21, 0x85, 0x86, 0xa0, 0xa1, 0x1680, 0x1681, 0x2000, 0x200b, 0x2028, 0x202a,
   0x202f, 0x2030, 0x205f, 0x2060, 0x3000, 0x3001]

def isBlank (c : Char) : Bool := inBounds blankBounds c

def trimLeft (cs : List Char) : List Char := cs.dropWhile isBlank

def trimRight (cs : List Char) : List Char := (cs.reverse.dropWhile isBlank).reverse

def trim (cs : List Char) : List Char := trimRight (trimLeft cs)

def strip (s : String) : String := String.ofList (trim s.toList)

/-- The maximal runs of characters that are not blank; `word` is the run being read, backwards. -/
def wordsFrom (word : List Char) : List Char → List (List Char)
  | [] => if word.isEmpty then [] else [word.reverse]
  | c :: cs =>
    if isBlank c then
      if word.isEmpty then wordsFrom [] cs else word.reverse :: wordsFrom [] cs
    else wordsFrom (c :: word) cs

/-- The words of a text: what stands between its blanks. -/
def words (s : String) : List String := (wordsFrom [] s.toList).map String.ofList

/-- The text with every run of blanks made one space and none at the ends. -/
def collapse (s : String) : String := " ".intercalate (words s)

end RustScript.Text
