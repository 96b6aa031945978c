/-
  Names: how identifiers of the source become names of JavaScript bindings, and which paths speak
  of an enum variant.
-/
import RustScript.Text.Upper

namespace RustScript

namespace Name

def reserved : List String :=
  ["arguments", "await", "break", "case", "catch", "class", "const", "continue", "debugger",
   "default", "delete", "do", "else", "enum", "eval", "export", "extends", "false", "finally",
   "for", "function", "if", "implements", "import", "in", "instanceof", "interface", "let", "new",
   "null", "package", "private", "protected", "public", "return", "static", "super", "switch",
   "this", "throw", "true", "try", "typeof", "undefined", "var", "void", "while", "with", "yield"]

def unraw (name : String) : String :=
  match name.toList with
  | 'r' :: '#' :: cs => String.ofList cs
  | _ => name

/-- A name that can stand for the identifier in JavaScript. -/
def target (name : String) : String :=
  let name := unraw name
  if reserved.contains name then name ++ "_" else name

def isCapitalized (name : String) : Bool :=
  match name.toList with
  | c :: _ => Text.isUpper c
  | [] => false

/-- Letters, digits and underscores of a constant's name. -/
def isConstantChar (c : Char) : Bool := ('A' ≤ c && c ≤ 'Z') || ('0' ≤ c && c ≤ '9') || c == '_'

def dropFinalNewline (cs : List Char) : List Char :=
  match cs.reverse with
  | '\n' :: rest => rest.reverse
  | _ => cs

/-- A name in capitals, of two characters or more: it denotes a constant, not a new binding. -/
def isConstant (name : String) : Bool :=
  match dropFinalNewline name.toList with
  | c :: d :: cs => ('A' ≤ c && c ≤ 'Z') && (d :: cs).all isConstantChar
  | _ => false

end Name

def Path.lastTwo? (path : List String) : Option (String × String) :=
  match path.reverse with
  | last :: owner :: _ => some (owner, last)
  | _ => none

/-- A path that names an enum variant: the segment before the last begins with a capital. -/
def Path.isVariant (path : List String) : Bool :=
  match Path.lastTwo? path with
  | some (owner, _) => Name.isCapitalized owner
  | none => false

end RustScript
