/-
  Arguments of a macro call.

  `Arguments.split` cuts the tokens at the separators outside of literals and brackets, and trims
  the parts; a blank part at the end is left out. Where a literal starts, its length is found by
  looking ahead, and its characters are then passed over.
-/
import RustScript.Error
import RustScript.Text.Blank

namespace RustScript.Arguments

def closer? (c : Char) : Option Char :=
  if c == '(' then some ')'
  else if c == '[' then some ']'
  else if c == '\x7b' then some '\x7d'
  else none

def isCloser (c : Char) : Bool := c == ')' || c == ']' || c == '\x7d'

/-- Whether the text after an `r` opens a raw string: hashes and a quote. -/
def opensRaw (cs : List Char) : Bool := (cs.dropWhile (· == '#')).head? == some '"'

/-- A character after which an `r` belongs to a longer word. -/
def isWordChar (c : Char) : Bool := Text.isAlnum c || c == '_'

/-- The number of characters up to the first place where `pattern` stands. -/
def find? (pattern : List Char) : List Char → Option Nat
  | [] => if pattern.isEmpty then some 0 else none
  | c :: cs => if pattern.isPrefixOf (c :: cs) then some 0 else (find? pattern cs).map (· + 1)

/-- The length of the raw string that opens with an `r` before `cs`. -/
def rawLength (tokens : String) (cs : List Char) : Except Error Nat :=
  let hashes := (cs.takeWhile (· == '#')).length
  let closing := '"' :: List.replicate hashes '#'
  match find? closing (cs.drop (hashes + 1)) with
  | some n => .ok (1 + hashes + 1 + n + closing.length)
  | none => .error (.mistake (.unterminatedRaw tokens))

/-- The number of characters up to the closing quote of a string, the quote included. -/
def stringTail? : List Char → Option Nat
  | [] => none
  | '\\' :: _ :: cs => (stringTail? cs).map (· + 2)
  | '\\' :: [] => none
  | c :: cs => if c == '"' then some 1 else (stringTail? cs).map (· + 1)

/-- The length of the string that opens with a quote before `cs`. -/
def stringLength (tokens : String) (cs : List Char) : Except Error Nat :=
  match stringTail? cs with
  | some n => .ok (1 + n)
  | none => .error (.mistake (.unterminated tokens))

/-- Whether the text after a single quote makes it a character literal and not a lifetime. -/
def isCharTail : List Char → Bool
  | '\\' :: _ => true
  | _ :: '\'' :: _ => true
  | _ => false

/-- The length of the character literal that opens with a quote before `cs`. -/
def charLength (cs : List Char) : Nat :=
  let escape := if cs.head? == some '\\' then 2 else 0
  1 + escape + ((cs.drop escape).takeWhile (· != '\'')).length + 1

/-- What the reading has found so far: the parts in reverse, the part being read in reverse, and
    the closing brackets still due, innermost first. -/
structure Progress where
  parts : List (List Char) := []
  part : List Char := []
  closers : List Char := []

def Progress.cut (p : Progress) : Progress :=
  { p with parts := Text.trim p.part.reverse :: p.parts, part := [] }

def Progress.keep (p : Progress) (c : Char) : Progress := { p with part := c :: p.part }

/-- The length of the literal that starts with `c`, before which `previous` stands; zero when no
    literal starts there. -/
def literalLength (tokens : String) (previous : Option Char) (c : Char) (cs : List Char) :
    Except Error Nat :=
  if c == '"' then stringLength tokens cs
  else if c == 'r' && !previous.any isWordChar && opensRaw cs then rawLength tokens cs
  else if c == '\'' && isCharTail cs then .ok (charLength cs)
  else .ok 0

def Progress.step (tokens : String) (sep : Char) (p : Progress) (c : Char) :
    Except Error Progress :=
  match closer? c with
  | some closing => .ok { p.keep c with closers := closing :: p.closers }
  | none =>
    if isCloser c then
      match p.closers with
      | closing :: rest =>
        if closing == c then .ok { p.keep c with closers := rest }
        else .error (.mistake (.unbalanced c tokens))
      | [] => .error (.mistake (.unbalanced c tokens))
    else if c == sep && p.closers.isEmpty then .ok p.cut
    else .ok (p.keep c)

/-- Reads on; `skip` characters belong to the literal just found and `previous` stands before. -/
def scan (tokens : String) (sep : Char) :
    (skip : Nat) → (previous : Option Char) → Progress → List Char → Except Error Progress
  | _, _, p, [] => .ok p
  | skip + 1, _, p, c :: cs => scan tokens sep skip (some c) (p.keep c) cs
  | 0, previous, p, c :: cs => do
    match ← literalLength tokens previous c cs with
    | 0 => scan tokens sep 0 (some c) (← p.step tokens sep c) cs
    | n + 1 => scan tokens sep n (some c) (p.keep c) cs

/-- The parts of the tokens between top-level separators. -/
def split (tokens : String) (sep : Char) : Except Error (List String) := do
  let p ← scan tokens sep 0 none {} tokens.toList
  match p.closers with
  | closing :: _ => .error (.mistake (.unclosed closing tokens))
  | [] =>
    let last := Text.trim p.part.reverse
    let parts := if last.isEmpty then p.parts else last :: p.parts
    return parts.reverse.map String.ofList

end RustScript.Arguments
