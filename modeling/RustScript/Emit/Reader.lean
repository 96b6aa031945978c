/-
  Macro calls inside macro calls.

  Emitting a call reads expressions out of its tokens, and these may hold calls again. A reader says
  how to read an expression and how deep calls can nest in a text; a call that nests deeper is a
  fault. The length of the text is such a bound, since the tokens of a call are shorter.
-/
import RustScript.Emit.Tree

namespace RustScript

/-- A way to read expressions out of text. -/
structure Reader where
  read : String → Except Error Expr
  /-- How deep macro calls can nest in the tokens of a call. -/
  depth : String → Nat

namespace Reader

/-- The code of a macro call, in which calls nest up to the depth given. -/
def expandWithin (r : Reader) : (depth : Nat) → MacroCall → Emit Js.Expr
  | 0, _ => throw (.fault .nesting)
  | depth + 1, m =>
    Macro.expand (fun text => do
      let e ← Emit.ofExcept (r.read text)
      Emit.expr (r.expandWithin depth) e .value) m

def expand (r : Reader) (m : MacroCall) : Emit Js.Expr := r.expandWithin (r.depth m.tokens) m

def emit (r : Reader) (e : Expr) (pos : Position) : Emit pos.Code := Emit.expr r.expand e pos

def emitStmt (r : Reader) (s : Stmt) (tail : Option Js.Tail) : Emit (List Js.Stmt) :=
  Emit.stmt r.expand s tail

def emitBlock (r : Reader) (stmts : List Stmt) (tail : Option Js.Tail) : Emit (List Js.Stmt) :=
  Emit.inScope (Emit.block r.expand stmts tail)

def emitFn (r : Reader) (decl : FnDecl) : Emit (List Js.Binding × List Js.Stmt) :=
  Emit.fn r.expand decl

def ofTable (table : List (String × Expr)) : Reader where
  read text :=
    match table.find? fun entry => entry.1 == text with
    | some (_, e) => .ok e
    | none => .error (.mistake (.unread text))
  depth _ := table.length + 2

end Reader

end RustScript
