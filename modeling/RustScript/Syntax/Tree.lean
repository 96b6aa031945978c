/-
  The syntax tree of the source language.

  Operators are kept by their spelling and types by their text, since both are only shown. Each
  family has a node of no known form, which every consumer refuses by name.
-/
import RustScript.Syntax.Pattern

namespace RustScript

structure Param where
  pat : Pat
  ty : Option String := none

structure SelfParam where
  isMutable : Bool := false
  byRef : Bool := true

/-- How the fields of a struct or variant are written. -/
inductive Shape where
  | named
  | tuple
  | unit
  deriving DecidableEq

/-- A struct: its field names, or one entry for each slot of a tuple struct. -/
structure StructDecl where
  ident : String
  fields : List String := []
  shape : Shape := .named

structure Variant where
  name : String
  shape : Shape := .unit
  fields : List String := []

structure EnumDecl where
  ident : String
  variants : List Variant

/-- A macro call. The tokens are the raw text between the delimiters. -/
structure MacroCall where
  name : String
  tokens : String := ""

mutual

inductive Expr where
  | lit (value : Literal)
  /-- A single name, `self`, `Self` and `None` among them. -/
  | ident (name : String)
  | path (segments : List String)
  | unary (op : String) (operand : Expr)
  | binary (op : String) (left right : Expr)
  | assign (target value : Expr) (op : String)
  | call (func : Expr) (args : List Expr)
  | methodCall (receiver : Expr) (method : String) (args : List Expr)
  /-- A field; a slot of a tuple has its number for a name. -/
  | field (obj : Expr) (name : String)
  | index (obj index : Expr)
  | structLit (path : List String) (fields : List FieldInit) (base : Option Expr)
  | arrayLit (elems : List Expr)
  | arrayRepeat (value count : Expr)
  | tupleLit (elems : List Expr)
  | paren (expr : Expr)
  | closure (params : List Param) (body : Expr) (isAsync : Bool)
  | block (body : List Stmt) (isAsync : Bool) (label : Option String)
  | ifElse (cond : Expr) (body : List Stmt) (orelse : Option Expr)
  | ifLet (pat : Pat) (value : Expr) (body : List Stmt) (orelse : Option Expr)
  | whileLoop (cond : Expr) (body : List Stmt) (label : Option String)
  | whileLet (pat : Pat) (value : Expr) (body : List Stmt) (label : Option String)
  | loop (body : List Stmt) (label : Option String)
  | forLoop (pat : Pat) (iter : Expr) (body : List Stmt) (label : Option String)
  | matchOn (subject : Expr) (arms : List Arm)
  | ret (value : Option Expr)
  | brk (label : Option String) (value : Option Expr)
  | cont (label : Option String)
  | mac (call : MacroCall)
  | ref (expr : Expr) (isMutable : Bool)
  | deref (expr : Expr)
  | cast (expr : Expr) (ty : String)
  | tryOp (expr : Expr)
  | await (expr : Expr)
  | range (start stop : Option Expr) (inclusive : Bool)
  | bare

structure FieldInit where
  name : String
  value : Expr

structure Arm where
  pat : Pat
  body : Expr
  guard : Option Expr

inductive Stmt where
  | letIn (pat : Pat) (init : Option Expr) (ty : Option String) (orelse : Option (List Stmt))
  /-- An expression as a statement; the trailing value of a block has no semicolon. -/
  | expr (expr : Expr) (semi : Bool)
  | mac (call : MacroCall) (semi : Bool)
  | item (item : Item)
  | bare

structure FnDecl where
  ident : String
  params : List Param
  body : List Stmt
  receiver : Option SelfParam
  ret : Option String
  isAsync : Bool

structure ConstDecl where
  ident : String
  value : Expr
  ty : Option String
  isStatic : Bool

/-- The functions associated with a type. -/
structure ImplDecl where
  ident : String
  fns : List FnDecl
  forTrait : Option String

inductive Item where
  | fn (decl : FnDecl)
  | struct (decl : StructDecl)
  | enum (decl : EnumDecl)
  | impl (decl : ImplDecl)
  | const (decl : ConstDecl)
  /-- A declaration without meaning at run time, such as an import. -/
  | inert (ident what : String)
  /-- A declaration that could not be classified. -/
  | unknown (ident what : String)
  | bare

end

namespace Item

/-- The name of a declaration's form, as messages show it. -/
def kind : Item → String
  | fn _ => "FnDecl"
  | struct _ => "StructDecl"
  | enum _ => "EnumDecl"
  | impl _ => "ImplDecl"
  | const _ => "ConstDecl"
  | inert .. => "InertItem"
  | unknown .. => "UnknownItem"
  | bare => "Item"

def name : Item → String
  | fn d => d.ident
  | struct d => d.ident
  | enum d => d.ident
  | impl d => d.ident
  | const d => d.ident
  | inert ident _ => ident
  | unknown ident _ => ident
  | bare => "Item"

end Item

namespace MacroCall

/-- What follows the last `::`, or `last` if there is none. -/
def afterLastColons (last : List Char) : List Char → List Char
  | [] => last
  | c :: cs => afterLastColons (if c == ':' && cs.head? == some ':' then cs.tail else last) cs

def baseName (m : MacroCall) : String := String.ofList (afterLastColons m.name.toList m.name.toList)

/-- Macros whose expansion is a value worth delivering at the end of a block. -/
def isValue (m : MacroCall) : Bool := m.baseName == "format" || m.baseName == "vec"

end MacroCall

namespace Expr

def stripBorrows : Expr → Expr
  | ref e _ => e.stripBorrows
  | deref e => e.stripBorrows
  | e => e

def stripParens : Expr → Expr
  | paren e => e.stripParens
  | e => e

/-- A name, a literal or a chain of fields on one: evaluating it twice does no harm. -/
def isSimple : Expr → Bool
  | field e _ => e.isSimple
  | ref e _ => e.isSimple
  | deref e => e.isSimple
  | paren e => e.isSimple
  | ident _ => true
  | path _ => true
  | lit _ => true
  | _ => false

mutual

/-- Control flow that has to be emitted as statements. An `if` whose branches all end in a plain
    value can be emitted as a conditional expression instead. -/
def needsStatement : Expr → Bool
  | ifElse _ body orelse => !(hasValue body && elseHasValue orelse)
  | block _ isAsync _ => !isAsync
  | ifLet .. => true
  | matchOn .. => true
  | whileLoop .. => true
  | whileLet .. => true
  | loop .. => true
  | forLoop .. => true
  | ret .. => true
  | brk .. => true
  | cont .. => true
  | _ => false

def hasValue : List Stmt → Bool
  | [.expr e false] => !e.needsStatement
  | [.mac m false] => m.isValue
  | _ => false

/-- Whether there is an `else` and all that it leads to is a single plain value. -/
def elseHasValue : Option Expr → Bool
  | some (ifElse _ body orelse) => hasValue body && elseHasValue orelse
  | some (block body false none) => hasValue body
  | _ => false

end

end Expr

end RustScript
