/-
  Positions of an expression.

  Much that is control flow in JavaScript is an expression of the source, so what an expression
  becomes depends on where it stands. `Position.Code` is the type of the outcome, and the functions
  here turn what a form produces by nature into what its position asks for.
-/
import RustScript.Emit.Loop

namespace RustScript

inductive Position where
  | value
  /-- A statement; a trailing value goes where the tail says. -/
  | statement (tail : Option Js.Tail)
  | part

abbrev Position.Code : Position → Type
  | value => Js.Expr
  | statement _ => List Js.Stmt
  | part => List Js.Part

/-- Whether the text of the code begins with a brace, which would open a block. -/
def Js.Expr.opensBrace (code : Js.Expr) : Bool := code.text.toList.head? == some '\x7b'

namespace Position

/-- A form that produces a value. As a statement it must not open a block. -/
def plain : (pos : Position) → Emit Js.Expr → Emit pos.Code
  | value, code => code
  | statement none, code => do
    let code ← code
    return [.expr (code.parenIf code.opensBrace)]
  | statement (some tail), code => do return [.deliver tail (← code)]
  | part, code => do return [.slot (← code)]

/-- A form that produces statements for any tail. As a value it is wrapped up in a function. -/
def control : (pos : Position) → (Option Js.Tail → Emit (List Js.Stmt)) → Emit pos.Code
  | value, body => Emit.asValue (body (some .ret))
  | statement tail, body => body tail
  | part, body => do return [.slot (← Emit.asValue (body (some .ret)))]

/-- A form that produces statements, and outside of statements a value if it can. -/
def either (pos : Position) (code : Option (Emit Js.Expr))
    (body : Option Js.Tail → Emit (List Js.Stmt)) : Emit pos.Code :=
  match pos, code with
  | value, some code => code
  | part, some code => do return [.slot (← code)]
  | pos, _ => pos.control body

def jump : (pos : Position) → Jump → Emit (List Js.Stmt) → Emit pos.Code
  | statement _, _, body => body
  | value, jump, _ => Emit.refuse (.jumpAsValue jump)
  | part, jump, _ => Emit.refuse (.jumpAsValue jump)

/-- An assignment: as a statement it has no value to deliver. -/
def assignment : (pos : Position) → Emit Js.Expr → Emit pos.Code
  | statement _, code => do return [.expr (← code)]
  | value, code => code
  | part, code => do return [.slot (← code)]

/-- A form that may stand for a known text; as a summand the text is taken as it is. -/
def literal (pos : Position) (text : Option String) (code : Emit Js.Expr) : Emit pos.Code :=
  match pos, text with
  | part, some text => pure [.chunk text]
  | pos, _ => pos.plain code

/-- A binary form; as a summand a sum falls apart into its parts. -/
def sum (pos : Position) (isSum : Bool) (parts : Emit (List Js.Part)) (code : Emit Js.Expr) :
    Emit pos.Code :=
  match pos, isSum with
  | part, true => parts
  | pos, _ => pos.plain code

end Position

end RustScript
