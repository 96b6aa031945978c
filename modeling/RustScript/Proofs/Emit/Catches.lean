/-
  The handler for `?`.

  The function, closure or asynchronous block that a `?` belongs to has to catch what it throws, and
  one without a `?` of its own has no handler. Arrow functions that only stand for a value are
  passed through.
-/
import RustScript.Proofs.Emit.GivesTree

namespace RustScript

/-- The rule that what `?` throws is caught by the function of the source around it. -/
def Js.Policy.catching : Js.Policy where
  tries := True

theorem Law.serves_catching : ({} : Law).Serves .catching :=
  ⟨nofun, nofun, nofun, nofun, nofun, nofun, nofun, nofun⟩

/-- Whatever function is emitted, in whatever surroundings: its body is inside a handler exactly if
    a `?` of its own is emitted, and every `?` in it is inside the handler of the function that it
    belongs to. A closure that is written as an expression has no `?` of its own. The reader of
    macro arguments is arbitrary, so this speaks of the functions in macro arguments too. -/
theorem functions_catch_tries (r : Reader) (place : Place) (s t : State) :
    (∀ decl params body, r.emitFn decl place s = (.ok (params, body), t) →
      Js.isGuarded body = Stmt.anyTries place.known (r.tries place.known) decl.body ∧
        Js.blockObeys .catching (.body decl.isAsync) body) ∧
    (∀ params body isAsync code,
      r.emit (.closure params body isAsync) .value place s = (.ok code, t) →
        Emit.IsClosure .catching (body.tries place.known (r.tries place.known)) code) ∧
    ∀ stmts label code, r.emit (.block stmts true label) .value place s = (.ok code, t) →
      ∃ body, code = .call (.paren (.arrowBlock .source true [] body)) [] ∧
        Js.isGuarded body = Stmt.anyTries place.known (r.tries place.known) stmts ∧
          Js.blockObeys .catching (.body true) body := by
  have hready : Ready .catching _ s := .of_not_neutral id place s
  have hserves := Law.serves_catching
  have hknows : ({} : Law).Knows place := fun _ _ => rfl
  refine ⟨fun decl params body hrun => ?_, fun params body isAsync code hrun => ?_,
    fun stmts label code hrun => ?_⟩
  · have hfunction := (r.gives_emitFn hserves hknows decl _ nofun).fact hready hrun
    exact ⟨hfunction.guarded, hfunction.body⟩
  · exact (r.gives_emitClosure hserves hknows params body isAsync _ nofun).fact hready hrun
  · obtain ⟨body, hfunction, rfl⟩ :=
      (r.gives_emitAsync hserves hknows stmts label _ nofun).fact hready hrun
    exact ⟨body, rfl, hfunction.guarded, hfunction.body⟩

/-- A function with a `?` in the argument of a macro inside a loop, a closure whose value is one,
    and an asynchronous block that holds the closure and no `?` of its own. -/
theorem tries_in_macros_and_closures_are_caught :
    (∃ f t, (Reader.ofTable [("x?", .tryOp (.ident "x"))]).emitFn
        ⟨"f", [], [.expr (.loop [.mac ⟨"println", "\"\x7b\x7d\", x?"⟩ true] none) true],
          none, none, false⟩ {} {} = (.ok f, t) ∧
      Js.isGuarded f.2 = true ∧ Js.blockObeys .catching (.body false) f.2) ∧
    (∃ code t, (Reader.ofTable []).emit (.closure [] (.tryOp (.ident "x")) false) .value {} {} =
        (.ok code, t) ∧ Emit.IsClosure .catching true code) ∧
    ∃ code t, (Reader.ofTable []).emit
        (.block [.expr (.closure [] (.tryOp (.ident "x")) false) false] true none) .value {} {} =
          (.ok code, t) ∧
      ∃ body, code = .call (.paren (.arrowBlock .source true [] body)) [] ∧
        Js.isGuarded body = false ∧ Js.blockObeys .catching (.body true) body := by
  refine ⟨?_, ?_, ?_⟩
  · exact Emit.exists_run (fun _ t hrun => (functions_catch_tries _ _ _ t).1 _ _ _ hrun) rfl
  · exact Emit.exists_run (fun _ t hrun => (functions_catch_tries _ _ _ t).2.1 _ _ _ _ hrun) rfl
  · exact Emit.exists_run (fun _ t hrun => (functions_catch_tries _ _ _ t).2.2 _ _ _ hrun) rfl

end RustScript
