/-
  Reading a source text.

  The tree of a text that does not fit the grammar is a single node `ERROR` at the place that was
  reached. A byte order mark before the text is skipped.
-/
import RustScript.Emit.Reader
import RustScript.Grammar.Statement
import RustScript.Source.Entry

namespace RustScript.Source

open Grammar (Cursor Parser Rules)

/-- How deep the rules of the grammar can nest in a text of so many characters. -/
def nestingBound (length : Nat) : Nat := 64 * (length + 4)

def beginning (chars : List Char) : Cursor :=
  match chars with
  | '\uFEFF' :: rest => { rest, offset := 3, bound := chars.length }
  | _ => { rest := chars, bound := chars.length }

def parse (text : String) : Node :=
  let chars := text.toList
  let rules : Rules := Rules.within (nestingBound chars.length)
  match Parser.sourceFile rules { cursor := beginning chars } with
  | .ok ((), { nodes, .. }) =>
    { kind := "source_file", start := 0, stop := text.utf8ByteSize, children := nodes.reverse }
  | .error offset => { kind := "ERROR", start := offset, stop := text.utf8ByteSize }

def readExpression (text : String) : Except Error Expr := exprOf text (parse (wrap text))

def readItems (text : String) : Except Error (List Item) := itemsOf text (parse text)

def readItem (text : String) : Except Error Item := itemOf text (parse text)

def reader : Reader where
  read := readExpression
  depth tokens := tokens.length + 1

end RustScript.Source
