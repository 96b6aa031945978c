/-
  Emission leaves its context as it found it, for any tree and reader, and whether it succeeds or
  fails. Only `let` and nested declarations touch the innermost scope.
-/
import RustScript.Proofs.Emit.Tree

namespace RustScript

/-- Whether the statement changes the innermost scope. -/
def Stmt.declares : Stmt → Bool
  | .letIn .. => true
  | .item _ => true
  | _ => false

namespace Emit

section

variable {expand : MacroCall → Emit Js.Expr} (hexpand : ∀ m, Tidy True (expand m))

include hexpand

-- with faults allowed the soundness of trees and calls does not matter

theorem restores_expr (e : Expr) (pos : Position) : Restores (expr expand e pos) :=
  (tidy_expr (fun _ => true) (fun m _ => hexpand m) e pos (.inl trivial)).runs

theorem restores_fn (decl : FnDecl) : Restores (fn expand decl) :=
  (tidy_fn (fun _ => true) (fun m _ => hexpand m) decl (.inl trivial)).runs

theorem keeps_block (stmts : List Stmt) (tail : Option Js.Tail) : Keeps (block expand stmts tail) :=
  (contained_block (fun _ => true) (fun m _ => hexpand m) stmts tail (.inl trivial)).runs

theorem keeps_stmt (s : Stmt) (tail : Option Js.Tail) : Keeps (stmt expand s tail) :=
  (contained_stmt (fun _ => true) (fun m _ => hexpand m) s tail (.inl trivial)).runs

theorem restores_stmt {s : Stmt} (h : s.declares = false) (tail : Option Js.Tail) :
    Restores (stmt expand s tail) := by
  cases s with
  | expr e semi =>
    cases semi with
    | true =>
      rw [stmt]
      exact restores_expr hexpand e _
    | false =>
      rw [stmt]
      exact restores_expr hexpand e _
  | mac m semi =>
    rw [stmt]
    exact (hexpand m).runs.andReturn _
  | bare =>
    rw [stmt]
    exact Runs.refuse _
  | letIn _ _ _ _ => cases h
  | item _ => cases h

end

end Emit

open Emit

theorem Reader.restores_expand (r : Reader) (m : MacroCall) : Tidy True (r.expand m) :=
  r.tidy_expand m (.inl trivial)

/-- Every emission leaves its context as it found it, from any state and for any tree, whether it
    succeeds or fails: the jump targets, the frames and the scopes around the innermost one are the
    same, the counters do not decrease, and the current function may get the mark of `?`. All but a
    `let` and a nested declaration leave the innermost scope as it was too. -/
theorem emission_restores_context (r : Reader) (place : Place) (s : State) :
    (∀ e, Restored s (r.emit e .value place s).2) ∧
    (∀ e tail, Restored s (r.emit e (.statement tail) place s).2) ∧
    (∀ subject arms tail, Restored s (r.emit (.matchOn subject arms) (.statement tail) place s).2) ∧
    (∀ stmts tail, Restored s (r.emitBlock stmts tail place s).2) ∧
    (∀ decl, Restored s (r.emitFn decl place s).2) ∧
    ∀ stmt tail, Kept s (r.emitStmt stmt tail place s).2 ∧
      (stmt.declares = false → Restored s (r.emitStmt stmt tail place s).2) := by
  have hexpr := fun e pos => restores_expr r.restores_expand e pos place s
  refine ⟨fun e => hexpr e _, fun e _ => hexpr e _, fun _ _ _ => hexpr _ _, ?_, ?_, ?_⟩
  · exact fun stmts tail => restores_inScope (keeps_block r.restores_expand stmts tail) place s
  · exact fun decl => restores_fn r.restores_expand decl place s
  · exact fun stmt tail => ⟨keeps_stmt r.restores_expand stmt tail place s,
      fun h => restores_stmt r.restores_expand h tail place s⟩

/-- A jump that leads nowhere fails below two scopes and a labelled block, of which nothing is left
    behind. -/
theorem failed_break_restores_context :
    let body : List Stmt :=
      [.letIn (.ident "x" false false none) (some (.lit (.int 1))) none none,
       .expr (.brk (some "'b") none) true]
    let stmt : Stmt := .expr (.block [.expr (.block body false none) true] false (some "'a")) true
    let run := (Reader.ofTable []).emitStmt stmt none {} {}
    run.1 = .error (.refusal (.unknownLabel .brk "'b")) ∧ stmt.declares = false ∧
      Restored {} run.2 :=
  ⟨rfl, rfl, ((emission_restores_context _ _ _).2.2.2.2.2 _ _).2 rfl⟩

end RustScript
