/-
  The text of emitted JavaScript.

  An expression is one text, which holds line breaks where a function has a block for its body. A
  statement is a list of lines. Layout is left to a later step: lines carry no indentation.
-/
import RustScript.Js.Tree

namespace RustScript.Js

def commas (texts : List String) : String := ", ".intercalate texts

def braces (lines : List String) : String :=
  if lines.isEmpty then "\x7b\x7d" else "\x7b\n" ++ "\n".intercalate lines ++ "\n\x7d"

mutual

/-- The text of a binding; the field of an object is shortened when its target has its name. -/
def Binding.text : Binding → String
  | .hole => ""
  | .name target => target
  | .array elems => "[" ++ commas (Binding.texts elems) ++ "]"
  | .object fields => "\x7b " ++ commas (Binding.fieldTexts fields) ++ " \x7d"
  | .slots fields => "\x7b " ++ commas (Binding.slotTexts fields) ++ " \x7d"

def Binding.texts : List Binding → List String
  | [] => []
  | b :: bs => b.text :: Binding.texts bs

def Binding.fieldTexts : List (String × Binding) → List String
  | [] => []
  | (key, b) :: fs =>
    (if b.text == key then b.text else key ++ ": " ++ b.text) :: Binding.fieldTexts fs

def Binding.slotTexts : List (Nat × Binding) → List String
  | [] => []
  | (i, b) :: fs => (toString i ++ ": " ++ b.text) :: Binding.slotTexts fs

end

def Keyword.text : Keyword → String
  | const => "const"
  | var => "let"

def labelText : Option String → String
  | none => ""
  | some label => label ++ ": "

def paramsText (params : List Binding) : String := commas (params.map Binding.text)

def asyncText (isAsync : Bool) : String := if isAsync then "async " else ""

def breakLine : Option String → String
  | none => "break;"
  | some label => "break " ++ label ++ ";"

mutual

def Expr.text : Expr → String
  | .atom text => text
  | .str value => Literal.quote value
  | .template parts => "`" ++ String.join (partTexts parts) ++ "`"
  | .paren e => "(" ++ e.text ++ ")"
  | .unary op e => op ++ e.text
  | .binary op l r => l.text ++ " " ++ op ++ " " ++ r.text
  | .ternary c y n => "(" ++ c.text ++ " ? " ++ y.text ++ " : " ++ n.text ++ ")"
  | .call f args => f.text ++ "(" ++ commas (exprTexts args) ++ ")"
  | .construct type args => "new " ++ type ++ "(" ++ commas (exprTexts args) ++ ")"
  | .member e name => e.text ++ "." ++ name
  | .index e i => e.text ++ "[" ++ i.text ++ "]"
  | .array elems => "[" ++ commas (exprTexts elems) ++ "]"
  | .object props => "\x7b " ++ commas (propTexts props) ++ " \x7d"
  | .arrow _ isAsync params body =>
    asyncText isAsync ++ "(" ++ paramsText params ++ ") => " ++ body.text
  | .arrowBlock _ isAsync params body =>
    asyncText isAsync ++ "(" ++ paramsText params ++ ") => " ++ braces (blockLines body)
  | .await e => "(await " ++ e.text ++ ")"
  | .tryUnwrap e => "try_unwrap(" ++ e.text ++ ")"
  | .spread e => "..." ++ e.text
  | .note e comment => e.text ++ " /* " ++ comment ++ " */"
  | .tests ts => Test.condition ts

def exprTexts : List Expr → List String
  | [] => []
  | e :: es => e.text :: exprTexts es

/-- The text of each part of a template literal. Chunks are escaped one by one. -/
def partTexts : List Part → List String
  | [] => []
  | .chunk value :: ps => Literal.escapeTemplate value :: partTexts ps
  | .slot e :: ps => ("$\x7b" ++ e.text ++ "\x7d") :: partTexts ps

def propTexts : List Property → List String
  | [] => []
  | .short name :: ps => name :: propTexts ps
  | .pair name value :: ps => (name ++ ": " ++ value.text) :: propTexts ps

/-- The lines of a statement. Behind a value that is returned there is no jump. -/
def Stmt.lines : Stmt → List String
  | .expr e => [e.text ++ ";"]
  | .deliver tail e => [tail.lead ++ e.text ++ ";"]
  | .exit tail e label =>
    (tail.lead ++ e.text ++ ";") :: if tail.returns then [] else [breakLine label]
  | .declare keyword binding none => [keyword.text ++ " " ++ binding.text ++ ";"]
  | .declare keyword binding (some e) =>
    [keyword.text ++ " " ++ binding.text ++ " = " ++ e.text ++ ";"]
  | .block label body => (labelText label ++ "\x7b") :: blockLines body ++ ["\x7d"]
  | .branch branches otherwise =>
    match branches with
    | [] => otherwiseLines otherwise
    | .mk c body :: rest =>
      ("if (" ++ c.text ++ ") \x7b") :: blockLines body ++ branchLines rest ++
        otherwiseLines otherwise
  | .whileLoop label c body =>
    (labelText label ++ "while (" ++ c.text ++ ") \x7b") :: blockLines body ++ ["\x7d"]
  | .forOf label keyword binding source body =>
    (labelText label ++ "for (" ++ keyword.text ++ " " ++ binding.text ++ " of " ++ source.text ++
      ") \x7b") :: blockLines body ++ ["\x7d"]
  | .countUp label var first limit bound inclusive body =>
    let op := if inclusive then " <= " else " < "
    (labelText label ++ "for (let " ++ var ++ " = " ++ first.text ++
      (match limit with
       | none => "; " ++ var ++ op ++ bound.text
       | some limit => ", " ++ limit ++ " = " ++ bound.text ++ "; " ++ var ++ op ++ limit) ++
      "; " ++ var ++ "++) \x7b") :: blockLines body ++ ["\x7d"]
  | .countDown label var first limit bound body =>
    (labelText label ++ "for (let " ++ var ++ " = " ++ first.text ++
      (match limit with
       | none => "; " ++ var ++ " >= " ++ bound.text
       | some limit => ", " ++ limit ++ " = " ++ bound.text ++ "; " ++ var ++ " >= " ++ limit) ++
      "; " ++ var ++ "--) \x7b") :: blockLines body ++ ["\x7d"]
  | .ret none => ["return;"]
  | .ret (some e) => ["return " ++ e.text ++ ";"]
  | .brk label => [breakLine label]
  | .cont none => ["continue;"]
  | .cont (some label) => ["continue " ++ label ++ ";"]
  | .breakUnless c => ["if (!(" ++ c.text ++ ")) break;"]
  | .leave label => ["break " ++ label ++ ";"]
  | .function isAsync name params body =>
    [asyncText isAsync ++ "function " ++ name ++ "(" ++ paramsText params ++ ") " ++
      braces (blockLines body)]
  | .catchTry body =>
    "try \x7b" :: blockLines body ++
      ["\x7d catch ($e) \x7b", "if ($e instanceof TryPropagation) return $e.value;", "throw $e;",
       "\x7d"]

def blockLines : List Stmt → List String
  | [] => []
  | s :: ss => s.lines ++ blockLines ss

def branchLines : List Branch → List String
  | [] => []
  | .mk c body :: rest =>
    ("\x7d else if (" ++ c.text ++ ") \x7b") :: blockLines body ++ branchLines rest

def otherwiseLines : Option (List Stmt) → List String
  | none => ["\x7d"]
  | some body => "\x7d else \x7b" :: blockLines body ++ ["\x7d"]

end

end RustScript.Js
