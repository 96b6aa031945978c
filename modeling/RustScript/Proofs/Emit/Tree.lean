/-
  How the emission of syntax trees conducts itself.

  An expression is tidy, and a statement or a block is contained, if the expansion of macro calls is
  tidy; for sound trees without faults. This is said of an emission that is run side by side with
  itself, at a place that is alike (`Tie.conduct`).
-/
import RustScript.Proofs.Twin.Tree

namespace RustScript

namespace Emit

/-- The tie of a run to one in the same state, at a place that is alike. -/
def Tie.conduct (faults : Prop) : Tie where
  faults := faults
  keeps := True
  places := Place.Alike
  scopes := Eq
  tails := Eq
  alike := id
  view := .eq
  returns := rfl

variable {faults : Prop} {R : State → State → Prop} {α : Type}

theorem Paired.conduct {p : Js.Tail} {Q : α → α → Prop} {x : Emit α}
    (h : Paired (.conduct faults) R p p Q x x) (hQ : ∀ {a b}, Q a b → a = b) :
    Conduct R faults x := by
  have hruns (a b : Place) (hab : a.Alike b) (s : State) :=
    h a b s s hab (.of_scopes p p (s := s) rfl)
  refine ⟨fun a s => ?_, fun a s => (hruns a a ⟨rfl, rfl, fun _ => rfl⟩ s).2, fun a b hab s => ?_⟩
  · have hself := (hruns a a ⟨rfl, rfl, fun _ => rfl⟩ s).1
    generalize x a s = r at hself ⊢
    cases hself with
    | ok _ hst => exact hst.2 trivial
    | error hst => exact hst.2 trivial
  · have hboth := (hruns a b hab s).1
    generalize x a s = r at hboth ⊢
    generalize x b s = r' at hboth ⊢
    cases hboth with
    | ok hresult hst => rw [hQ hresult, hst.1.eq]
    | error hst => rw [hst.1.eq]

theorem Conduct.paired {x : Emit α} (h : Conduct R faults x) {p q : Js.Tail} (hpq : p = q) :
    Paired (.conduct faults) R p q Eq x x := by
  subst hpq
  intro a b s t hab hst
  obtain rfl := hst.eq
  have hruns := h.runs a s
  refine ⟨?_, h.fails a s⟩
  rw [← h.alike a b hab s]
  generalize x a s = r at hruns ⊢
  rcases r with ⟨e | a, u⟩
  · exact .error ⟨.of_scopes p p (s := u) rfl, fun _ => hruns⟩
  · exact .ok rfl ⟨.of_scopes p p (s := u) rfl, fun _ => hruns⟩

section

variable {expand : MacroCall → Emit Js.Expr} (call : MacroCall → Bool)
  (hexpand : ∀ m, (faults ∨ call m = true) → Tidy faults (expand m))

include hexpand

theorem tidy_expr (e : Expr) (pos : Position) (h : faults ∨ e.isSound call = true) :
    Tidy faults (expr expand e pos) :=
  (twins_expr (T := .conduct faults) False (fun _ => True) call
    (fun m h _ _ _ hpq => (hexpand m h).paired hpq) rfl (.refl .ret pos) e h nofun).conduct
    Position.CodeAlike.eq

theorem tidy_exprs (es : List Expr) (h : faults ∨ Expr.allSound call es = true) :
    Tidy faults (exprs expand es) :=
  (twins_exprs (T := .conduct faults) False (fun _ => True) call
    (fun m h _ _ _ hpq => (hexpand m h).paired hpq) (p := .ret) rfl es h nofun).conduct id

theorem tidy_fn (decl : FnDecl) (h : faults ∨ decl.isSound call = true) :
    Tidy faults (fn expand decl) :=
  (twins_fn (T := .conduct faults) False (fun _ => True) call
    (fun m h _ _ _ hpq => (hexpand m h).paired hpq) decl h nofun).conduct (p := .ret) id

theorem contained_block (stmts : List Stmt) (tail : Option Js.Tail)
    (h : faults ∨ Stmt.allSound call stmts = true) : Contained faults (block expand stmts tail) :=
  (twins_block (T := .conduct faults) False (fun _ => True) call
    (fun m h _ _ _ hpq => (hexpand m h).paired hpq) (p := .ret) rfl (.same tail)
    stmts h nofun).conduct fun hab => hab.eq rfl

theorem contained_stmt (s : Stmt) (tail : Option Js.Tail) (h : faults ∨ s.isSound call = true) :
    Contained faults (stmt expand s tail) :=
  (twins_stmt (T := .conduct faults) False (fun _ => True) call
    (fun m h _ _ _ hpq => (hexpand m h).paired hpq) (p := .ret) rfl (.same tail)
    s h nofun).conduct fun hab => hab.eq rfl

end

end Emit

/-! ## Every reader -/

open Emit

namespace Reader

variable {faults : Prop}

theorem tidy_expandWithin (r : Reader) (depth : Nat) (m : MacroCall)
    (h : faults ∨ r.isSoundWithin depth m = true) : Tidy faults (r.expandWithin depth m) :=
  (r.twins_expandWithin (.conduct faults) depth h .ret .ret rfl).conduct id

theorem tidy_expand (r : Reader) (m : MacroCall) (h : faults ∨ r.isSound m = true) :
    Tidy faults (r.expand m) :=
  r.tidy_expandWithin _ m h

theorem tidy_emit (r : Reader) {e : Expr} (h : faults ∨ e.isSound r.isSound = true)
    (pos : Position) : Tidy faults (r.emit e pos) :=
  tidy_expr _ r.tidy_expand e pos h

theorem tidy_emitFn (r : Reader) {decl : FnDecl} (h : faults ∨ decl.isSound r.isSound = true) :
    Tidy faults (r.emitFn decl) :=
  tidy_fn _ r.tidy_expand decl h

end Reader

end RustScript
