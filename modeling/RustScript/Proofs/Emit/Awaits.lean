/-
  Where something is awaited.

  Statements that are used as a value become an asynchronous function where the function around them
  is one. Functions that only help the code around them are never asynchronous, though, so what is
  awaited in a value that is repeated, in the start of a range or in a field of `Self` is awaited in
  the wrong function.
-/
import RustScript.Proofs.Emit.GivesTree

namespace RustScript

/-- The rule that what is awaited is awaited directly in an asynchronous JavaScript function. -/
def Js.Policy.awaiting : Js.Policy where
  awaits := True

namespace Law

/-- Nothing is awaited in a function that is not asynchronous. -/
def awaited : Law where
  await mode := mode != .sync

/-- What is awaited is awaited in an asynchronous function of the source, and not in a part that a
    function is emitted around. -/
def awaitedDirectly (selfType : Option String) : Law where
  await mode := mode == .async
  control mode := mode != .helper
  own name := name == "Self" || selfType == some name

variable (place : Place)

theorem serves_awaiting : (awaitedDirectly place.selfType).Serves .awaiting := by
  refine ⟨nofun, nofun, nofun, nofun, nofun, nofun, fun _ mode h => ?_, fun _ => rfl⟩
  simpa [awaitedDirectly] using h

theorem knows_awaitedDirectly : (awaitedDirectly place.selfType).Knows place := by
  rintro name (rfl | h)
  · rfl
  · simp [awaitedDirectly, h]

end Law

/-- Whatever function or method is emitted, in whatever surroundings: if nothing is awaited in a
    part that a function is emitted around, everything is awaited directly in an asynchronous
    function. -/
theorem awaits_stand_in_async_functions (r : Reader) (place : Place) (s t : State) (decl : FnDecl)
    (params : List Js.Binding) (body : List Js.Stmt)
    (h : decl.isLawful (.awaitedDirectly place.selfType)
      (r.isLawful (.awaitedDirectly place.selfType)) = true)
    (hrun : r.emitFn decl place s = (.ok (params, body), t)) :
    Js.blockObeys .awaiting (.body decl.isAsync) body := by
  have hserves := Law.serves_awaiting place
  have hknows := Law.knows_awaitedDirectly place
  have hready : Ready .awaiting _ s := .of_not_neutral id place s
  exact ((r.gives_emitFn hserves hknows decl _ fun _ => h).fact hready hrun).body

/-- A method that awaits in a literal of another type, in a conditional that is used as a value, in
    the argument of a macro, in the bounds of a slice, in those of a range that is counted through,
    and in an asynchronous closure that is repeated. -/
theorem awaits_in_values_and_macros_stand_in_async_functions :
    ∃ f t, (Reader.ofTable [("x.await", .await (.ident "x"))]).emitFn
        ⟨"f", [], [.letIn (.ident "a" false false none)
            (some (.structLit ["Q"] [⟨"x", .await (.ident "x")⟩] none)) none none,
          .expr (.call (.ident "g") [.ifElse (.ident "c") [.expr (.await (.ident "x")) true]
            none]) true, .mac ⟨"println", "\"\x7b\x7d\", x.await"⟩ true,
          .expr (.index (.ident "v") (.range (some (.await (.ident "x"))) none false)) true,
          .expr (.forLoop (.ident "i" false false none)
            (.range (some (.await (.ident "x"))) (some (.ident "n")) false) [] none) true,
          .expr (.arrayRepeat (.closure [] (.await (.ident "x")) true) (.ident "n")) false],
          none, none, true⟩ { selfType := some "P" } {} = (.ok f, t) ∧
      Js.blockObeys .awaiting (.body true) f.2 :=
  Emit.exists_run (fun _ t hrun =>
    awaits_stand_in_async_functions _ _ _ t _ _ _ (by decide +kernel) hrun) (by decide +kernel)

/-- An asynchronous function with the expression for its value. -/
def FnDecl.asyncEnding (e : Expr) : FnDecl := ⟨"f", [], [.expr e false], none, none, true⟩

/-- What is awaited in an asynchronous method of the source, but not in an asynchronous function. -/
def IsMisplaced (e : Expr) : Prop :=
  FnDecl.isLawful .awaited ((Reader.ofTable []).isLawful .awaited) (.asyncEnding e) = true ∧
    ∃ f t, (Reader.ofTable []).emitFn (.asyncEnding e) { selfType := some "P" } {} = (.ok f, t) ∧
      ¬Js.blockObeys .awaiting (.body true) f.2

/-- The fields of a literal of the type that methods belong to, a value that is repeated and the
    start of a range. -/
theorem awaits_in_helpers_are_misplaced :
    IsMisplaced (.structLit ["Self"] [⟨"x", .await (.ident "x")⟩] none) ∧
    IsMisplaced (.arrayRepeat (.await (.ident "x")) (.ident "n")) ∧
    IsMisplaced (.range (some (.await (.ident "x"))) (some (.ident "n")) false) := by
  refine ⟨⟨by decide, ([], [.deliver .ret (.call (.paren (.arrowBlock .helper false [] [
      .declare .const (.name "$obj0") (some (.construct "P" [])),
      .expr (.binary "=" (.member (.atom "$obj0") "x") (.await (.atom "x"))),
      .deliver .ret (.atom "$obj0")])) [])]), _, rfl, ?_⟩,
    ⟨by decide, ([], [.deliver .ret (Macro.repeated (.await (.atom "x")) (.atom "n"))]), _, rfl, ?_⟩,
    ⟨by decide, ([], [.deliver .ret (.call (.atom "Array.from") [
      .object [.pair "length" (.binary "-" (.atom "n") (.await (.atom "x")))],
      .arrow .helper false [.name "$v", .name "$i"] (.binary "+" (.atom "$i")
        (.await (.atom "x")))])]), _, rfl, ?_⟩⟩
  all_goals
    simp [Macro.repeated, Idiom.named, Js.blockObeys, Js.Stmt.Obeys, Js.Expr.Obeys, Js.exprsObey,
      Js.propsObey, Js.Policy.awaiting, Js.Site.value]

end RustScript
