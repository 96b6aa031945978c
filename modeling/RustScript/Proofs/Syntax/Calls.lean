/-
  The macro calls in a tree.

  `EachCall P` says that `P` holds of every macro call that stands in a tree, at any depth. What
  stands inside the tokens of a call is text and not part of the tree.
-/
import RustScript.Syntax.Tree

namespace RustScript

section

variable (P : MacroCall → Prop)

mutual

/-- Every macro call in the expression is as asked. -/
def Expr.EachCall : Expr → Prop
  | .lit _ | .ident _ | .path _ | .cont _ | .bare => True
  | .mac m => P m
  | .paren e | .unary _ e | .ref e _ | .deref e | .await e | .field e _ | .cast e _ | .tryOp e
  | .closure _ e _ => e.EachCall
  | .binary _ l r | .assign l r _ | .index l r | .arrayRepeat l r => l.EachCall ∧ r.EachCall
  | .call func args | .methodCall func _ args => func.EachCall ∧ Expr.allEachCall args
  | .structLit _ fields base => FieldInit.allEachCall fields ∧ Expr.optionEachCall base
  | .arrayLit elems | .tupleLit elems => Expr.allEachCall elems
  | .block stmts _ _ | .loop stmts _ => Stmt.allEachCall stmts
  | .ifElse cond stmts orelse | .ifLet _ cond stmts orelse =>
    cond.EachCall ∧ Stmt.allEachCall stmts ∧ Expr.optionEachCall orelse
  | .whileLoop cond stmts _ | .whileLet _ cond stmts _ | .forLoop _ cond stmts _ =>
    cond.EachCall ∧ Stmt.allEachCall stmts
  | .matchOn subject arms => subject.EachCall ∧ Arm.allEachCall arms
  | .ret value | .brk _ value => Expr.optionEachCall value
  | .range start stop _ => Expr.optionEachCall start ∧ Expr.optionEachCall stop

def Expr.allEachCall : List Expr → Prop
  | [] => True
  | e :: es => e.EachCall ∧ Expr.allEachCall es

def Expr.optionEachCall : Option Expr → Prop
  | none => True
  | some e => e.EachCall

def FieldInit.allEachCall : List FieldInit → Prop
  | [] => True
  | ⟨_, value⟩ :: fields => value.EachCall ∧ FieldInit.allEachCall fields

def Arm.allEachCall : List Arm → Prop
  | [] => True
  | ⟨_, body, guard⟩ :: arms => body.EachCall ∧ Expr.optionEachCall guard ∧ Arm.allEachCall arms

def Stmt.EachCall : Stmt → Prop
  | .letIn _ init _ none => Expr.optionEachCall init
  | .letIn _ init _ (some orelse) => Expr.optionEachCall init ∧ Stmt.allEachCall orelse
  | .expr e _ => e.EachCall
  | .mac m _ => P m
  | .item i => i.EachCall
  | .bare => True

def Stmt.allEachCall : List Stmt → Prop
  | [] => True
  | s :: ss => s.EachCall ∧ Stmt.allEachCall ss

def Item.EachCall : Item → Prop
  | .fn decl => decl.EachCall
  | .impl ⟨_, fns, _⟩ => FnDecl.allEachCall fns
  | .const ⟨_, value, _, _⟩ => value.EachCall
  | .struct _ | .enum _ | .inert .. | .unknown .. | .bare => True

def FnDecl.EachCall : FnDecl → Prop
  | ⟨_, _, body, _, _, _⟩ => Stmt.allEachCall body

def FnDecl.allEachCall : List FnDecl → Prop
  | [] => True
  | decl :: decls => decl.EachCall ∧ FnDecl.allEachCall decls

end

end

section

variable {P : MacroCall → Prop}

theorem Expr.eachCall_mac {m : MacroCall} : (Expr.mac m).EachCall P ↔ P m := by rw [Expr.EachCall]

theorem Expr.allEachCall_iff {es : List Expr} : Expr.allEachCall P es ↔ ∀ e ∈ es, e.EachCall P := by
  induction es with
  | nil => simp [Expr.allEachCall]
  | cons e es ih => rw [Expr.allEachCall, ih, List.forall_mem_cons]

theorem FieldInit.allEachCall_cons {field : FieldInit} {fields : List FieldInit} :
    FieldInit.allEachCall P (field :: fields) ↔
      field.value.EachCall P ∧ FieldInit.allEachCall P fields := by
  cases field
  rw [FieldInit.allEachCall]

theorem Arm.allEachCall_iff {arms : List Arm} :
    Arm.allEachCall P arms ↔
      ∀ arm ∈ arms, arm.body.EachCall P ∧ Expr.optionEachCall P arm.guard := by
  induction arms with
  | nil => simp [Arm.allEachCall]
  | cons arm arms ih =>
    cases arm
    rw [Arm.allEachCall, ih, List.forall_mem_cons, and_assoc]

theorem Stmt.allEachCall_append {ss ts : List Stmt} :
    Stmt.allEachCall P (ss ++ ts) ↔ Stmt.allEachCall P ss ∧ Stmt.allEachCall P ts := by
  induction ss with
  | nil => simp [Stmt.allEachCall]
  | cons s ss ih => rw [List.cons_append, Stmt.allEachCall, ih, Stmt.allEachCall, and_assoc]

theorem FnDecl.allEachCall_iff {decls : List FnDecl} :
    FnDecl.allEachCall P decls ↔ ∀ decl ∈ decls, decl.EachCall P := by
  induction decls with
  | nil => simp [FnDecl.allEachCall]
  | cons decl decls ih => rw [FnDecl.allEachCall, ih, List.forall_mem_cons]

end

end RustScript
