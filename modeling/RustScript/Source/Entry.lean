/-
  Source texts read through a tree.

  A file is a list of declarations. A single expression, such as an argument of a macro, is read as
  the body of a function around it; positions in messages leave the line of that function out.
-/
import RustScript.Source.Read

namespace RustScript.Source

def wrapperHead : String := "fn __expr() \x7b\n"

def wrap (text : String) : String := wrapperHead ++ text ++ "\n\x7d"

def itemsOf (text : String) (root : Node) : Except Error (List Item) := do
  let bytes := Text.encode text
  check bytes 0 root
  items bytes (Phrase.ofNode bytes root).parts

def itemOf (text : String) (root : Node) : Except Error Item := do
  match ← itemsOf text root with
  | [i] => return i
  | is => .error (.parse (.notOneDeclaration is.length) 0 0)

def exprOf (text : String) (root : Node) : Except Error Expr := do
  let bytes := Text.encode (wrap text)
  check bytes 1 root
  match ← items bytes (Phrase.ofNode bytes root).parts with
  | [.fn decl] =>
    match decl.body with
    | [.expr e false] => return e
    | [.mac m false] => return .mac m
    | _ => .error (.parse (.notASingleExpression text) 0 0)
  | _ => .error (.parse (.notAnExpression text) 0 0)

end RustScript.Source
