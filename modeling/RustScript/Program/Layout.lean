/-
  Indentation of emitted code.

  Each line is put at the depth of the brackets open before it, less those that it closes first.
  Brackets inside literals and comments do not count; a template literal may run over several lines,
  so what is open is carried from line to line.
-/
import RustScript.Text.Blank
import RustScript.Text.Lines

namespace RustScript.Layout

/-- Something that was opened and not closed yet. -/
inductive Opening where
  | template
  | slot
  | brace
  deriving DecidableEq, Repr

/-- What is known of the line read so far. -/
structure Scan where
  /-- What is open, innermost first. -/
  opened : List Opening
  /-- The closing brackets before anything else on the line. -/
  lead : Nat := 0
  /-- Opening less closing brackets. -/
  net : Int := 0
  /-- Nothing but closing brackets has been seen. -/
  leading : Bool := true

namespace Scan

/-- Something other than a closing bracket stands here. -/
def seen (s : Scan) : Scan := { s with leading := false }

def openBracket (s : Scan) : Scan := { s.seen with net := s.net + 1 }

def closeBracket (s : Scan) : Scan :=
  { s with net := s.net - 1, lead := if s.leading then s.lead + 1 else s.lead }

/-- A brace closes: a value inside a template literal, or a block. -/
def closeBrace (s : Scan) : Scan :=
  match s.opened with
  | .slot :: rest => { s with opened := rest }
  | opened => { s.closeBracket with opened := opened.tail }

/-- Takes in one character outside literals and comments. -/
def step (s : Scan) (c : Char) : Scan :=
  if c.toNat == 0x60 then { s.seen with opened := .template :: s.opened }
  else if c == '\x7b' then { s.openBracket with opened := .brace :: s.opened }
  else if c == '\x7d' then s.closeBrace
  else if c == '(' || c == '[' then s.openBracket
  else if c == ')' || c == ']' then s.closeBracket
  else if Text.isBlank c then s
  else s.seen

end Scan

/-- The number of characters up to the closing quote of a string, the quote included. -/
def stringTail (quote : Char) : List Char → Nat
  | [] => 0
  | '\\' :: [] => 1
  | '\\' :: _ :: cs => stringTail quote cs + 2
  | c :: cs => if c == quote then 1 else stringTail quote cs + 1

/-- The number of characters up to the end of a block comment, the end included. -/
def commentTail : List Char → Nat
  | [] => 0
  | '*' :: '/' :: _ => 2
  | _ :: cs => commentTail cs + 1

/-- Reads a line; `skip` characters belong to the literal, escape or comment just found. -/
def scanFrom : (skip : Nat) → Scan → List Char → Scan
  | _, s, [] => s
  | skip + 1, s, _ :: cs => scanFrom skip s cs
  | 0, s, c :: cs =>
    if s.opened.head? == some .template then
      if c == '\\' then scanFrom 1 s cs
      else if c.toNat == 0x60 then scanFrom 0 { s with opened := s.opened.tail } cs
      else if c == '$' && cs.head? == some '\x7b' then
        scanFrom 1 { s with opened := .slot :: s.opened } cs
      else scanFrom 0 s cs
    else if c == '"' || c == '\'' then scanFrom (stringTail c cs) s.seen cs
    else if c == '/' && cs.head? == some '/' then s
    else if c == '/' && cs.head? == some '*' then scanFrom (1 + commentTail cs.tail) s cs
    else scanFrom 0 (s.step c) cs

def repeated (unit : String) (count : Nat) : String := String.join (List.replicate count unit)

def indentFrom (unit : String) : (depth : Nat) → List Opening → List (List Char) → List String
  | _, _, [] => []
  | depth, opened, raw :: lines =>
    let line := Text.trim raw
    if line.isEmpty then "" :: indentFrom unit depth opened lines
    else
      let s := scanFrom 0 { opened } line
      (repeated unit (depth - s.lead) ++ String.ofList line) ::
        indentFrom unit (depth + s.net).toNat s.opened lines

def indent (unit code : String) : String :=
  "\n".intercalate (indentFrom unit 0 [] (Text.cutLines code.toList))

end RustScript.Layout
