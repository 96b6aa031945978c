/-
  Templates of the formatting macros.

  A template is text with placeholders in braces; a doubled brace is a brace of the text. A
  placeholder has a key, which says what it shows, and after a colon a specification, which says
  how.
-/
import RustScript.Error
import RustScript.Text.Blank

namespace RustScript

/-- A placeholder. The key is empty for the next argument, digits for an argument by position, or
    a name. -/
structure Placeholder where
  key : String := ""
  spec : String := ""
  deriving DecidableEq, Repr

/-- Whether the placeholder shows its value for debugging. -/
def Placeholder.isDebug (p : Placeholder) : Bool := p.spec == "?" || p.spec == "#?"

namespace Template

inductive Piece where
  | text (value : String)
  | slot (placeholder : Placeholder)
  deriving DecidableEq, Repr

/-- The text read so far, backwards, as a piece in front of others. -/
def flush (buffer : List Char) (pieces : List Piece) : List Piece :=
  if buffer.isEmpty then pieces else .text (String.ofList buffer.reverse) :: pieces

def placeholder (inner : List Char) : Placeholder :=
  ⟨String.ofList (Text.trim (inner.takeWhile (· != ':'))),
   String.ofList (Text.trim ((inner.dropWhile (· != ':')).drop 1))⟩

/-- The pieces of a template; `skip` characters belong to the placeholder or doubled brace just
    read, and `buffer` holds the text before, backwards. -/
def piecesFrom (template : String) :
    (skip : Nat) → (buffer : List Char) → List Char → Except Error (List Piece)
  | _, buffer, [] => .ok (flush buffer [])
  | skip + 1, buffer, _ :: cs => piecesFrom template skip buffer cs
  | 0, buffer, c :: cs =>
    if c == '\x7b' then
      if cs.head? == some '\x7b' then piecesFrom template 1 (c :: buffer) cs
      else if cs.contains '\x7d' then do
        let inner := cs.takeWhile (· != '\x7d')
        let rest ← piecesFrom template (inner.length + 1) [] cs
        return flush buffer (.slot (placeholder inner) :: rest)
      else .error (.mistake (.unclosedPlaceholder template))
    else if c == '\x7d' then
      if cs.head? == some '\x7d' then piecesFrom template 1 (c :: buffer) cs
      else .error (.mistake (.unmatchedBrace template))
    else piecesFrom template 0 (c :: buffer) cs

/-- The pieces of a template, no text empty and no two texts side by side. -/
def pieces (template : String) : Except Error (List Piece) :=
  piecesFrom template 0 [] template.toList

end Template

end RustScript
