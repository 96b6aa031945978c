/-
  The JavaScript that is emitted, as a tree.

  Only the forms that the emitter builds are here, and what it never looks into is kept as text. A
  tree says which arrow functions, loops, labels and jumps the code holds, and what of the source
  they stand for.
-/
import RustScript.Js.Test

namespace RustScript.Js

/-- Where the trailing value of a block goes: the text to put before it, `return ` or `x = `. -/
structure Tail where
  lead : String
  deriving DecidableEq

def Tail.ret : Tail := ⟨"return "⟩

def Tail.into (target : String) : Tail := ⟨target ++ " = "⟩

def Tail.returns (t : Tail) : Bool := t.lead == "return "

/-- What stands on the left of a declaration. -/
inductive Binding where
  /-- Nothing is bound. -/
  | hole
  | name (target : String)
  | array (elems : List Binding)
  | object (fields : List (String × Binding))
  /-- Numbered properties. -/
  | slots (fields : List (Nat × Binding))

inductive Keyword where
  | const
  | var
  deriving DecidableEq

/-- The keyword for a binding that can or cannot be assigned to. -/
def Keyword.of (isMutable : Bool) : Keyword := if isMutable then .var else .const

/-- What an arrow function stands for. -/
inductive Origin where
  /-- A closure or an asynchronous block of the source. -/
  | source
  /-- Statements of the source that are used as a value; the function is called at once. -/
  | value
  /-- Nothing of the source: the code around it needs a function. -/
  | helper
  deriving DecidableEq

mutual

inductive Expr where
  | atom (text : String)
  /-- A string literal with this value. -/
  | str (value : String)
  | template (parts : List Part)
  | paren (expr : Expr)
  | unary (op : String) (operand : Expr)
  | binary (op : String) (left right : Expr)
  | ternary (cond yes no : Expr)
  | call (func : Expr) (args : List Expr)
  | construct (type : String) (args : List Expr)
  | member (obj : Expr) (name : String)
  | index (obj index : Expr)
  | array (elems : List Expr)
  | object (props : List Property)
  | arrow (origin : Origin) (isAsync : Bool) (params : List Binding) (body : Expr)
  | arrowBlock (origin : Origin) (isAsync : Bool) (params : List Binding) (body : List Stmt)
  | await (expr : Expr)
  /-- The value of a success; a failure leaves the function around the code. -/
  | tryUnwrap (expr : Expr)
  | spread (expr : Expr)
  /-- An expression with a comment behind it. -/
  | note (expr : Expr) (comment : String)
  /-- The condition that all tests hold. -/
  | tests (tests : List Test)

inductive Part where
  | chunk (value : String)
  | slot (expr : Expr)

inductive Property where
  | short (name : String)
  | pair (name : String) (value : Expr)

inductive Stmt where
  | expr (expr : Expr)
  /-- The trailing value of a block goes where the tail says. -/
  | deliver (tail : Tail) (value : Expr)
  /-- The value of a jump goes where the tail of its target says. -/
  | exit (tail : Tail) (value : Expr) (label : Option String)
  | declare (keyword : Keyword) (binding : Binding) (init : Option Expr)
  | block (label : Option String) (body : List Stmt)
  /-- Branches tried in order, and what is done if none is taken. -/
  | branch (branches : List Branch) (otherwise : Option (List Stmt))
  | whileLoop (label : Option String) (cond : Expr) (body : List Stmt)
  | forOf (label : Option String) (keyword : Keyword) (binding : Binding) (source : Expr)
      (body : List Stmt)
  /-- A variable runs from `first` up while below the bound, or up to it. A bound that is not a
      literal is read once, into the variable `limit`. -/
  | countUp (label : Option String) (var : String) (first : Expr) (limit : Option String)
      (bound : Expr) (inclusive : Bool) (body : List Stmt)
  /-- A variable runs from `first` down to the bound. -/
  | countDown (label : Option String) (var : String) (first : Expr) (limit : Option String)
      (bound : Expr) (body : List Stmt)
  | ret (value : Option Expr)
  | brk (label : Option String)
  | cont (label : Option String)
  /-- Leaves the loop that is being set up unless the condition holds. -/
  | breakUnless (cond : Expr)
  /-- Leaves a block of arms. -/
  | leave (label : String)
  | function (isAsync : Bool) (name : String) (params : List Binding) (body : List Stmt)
  /-- Turns a failure signalled by `try_unwrap` into a return. -/
  | catchTry (body : List Stmt)

inductive Branch where
  | mk (cond : Expr) (body : List Stmt)

end

end RustScript.Js
