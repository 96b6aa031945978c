/-
  Lines of a text.

  Emitted code is cut at line feeds only, the output of a program at every mark that Unicode or
  older terminals take for the end of a line. Source files may end their lines in the three usual
  ways and are read with line feeds throughout.
-/
namespace RustScript.Text

def onFirst (c : Char) : List (List Char) → List (List Char)
  | [] => [[c]]
  | p :: ps => (c :: p) :: ps

/-- The pieces between the line feeds; a text without any is one piece. -/
def cutLines : List Char → List (List Char)
  | [] => [[]]
  | c :: cs => if c == '\n' then [] :: cutLines cs else onFirst c (cutLines cs)

/-- A character that ends a line of output. The carriage return with its line feed is one end. -/
def endsLine (c : Char) : Bool :=
  c == '\n' || c == '\r' || c.toNat == 0x0B || c.toNat == 0x0C ||
  (0x1C ≤ c.toNat && c.toNat ≤ 0x1E) || c.toNat == 0x85 ||
  c.toNat == 0x2028 || c.toNat == 0x2029

/-- The lines of a program's output, without their ends; `line` is the one being read,
    backwards. A last line without an end counts if it holds anything. -/
def outputLinesFrom (line : List Char) : List Char → List (List Char)
  | [] => if line.isEmpty then [] else [line.reverse]
  | '\r' :: '\n' :: cs => line.reverse :: outputLinesFrom [] cs
  | c :: cs =>
    if endsLine c then line.reverse :: outputLinesFrom [] cs
    else outputLinesFrom (c :: line) cs

def outputLines (s : String) : List String := (outputLinesFrom [] s.toList).map String.ofList

/-- The characters with every end of line made a line feed. -/
def plainNewlines : List Char → List Char
  | [] => []
  | '\r' :: '\n' :: cs => '\n' :: plainNewlines cs
  | c :: cs => (if c == '\r' then '\n' else c) :: plainNewlines cs

end RustScript.Text
