/-
  Jumps stay inside their function.

  Control flow that is used as a value becomes an arrow function, which no jump can leave, so
  whether a jump is legal depends on where the code around it ends up. An empty label is the
  exception: a jump to it is emitted without a label.
-/
import RustScript.Proofs.Emit.GivesTree

namespace RustScript

open Js (Site)

/-- The rule that jumps stay inside the JavaScript function that holds them. -/
def Js.Policy.staying : Js.Policy where
  jumps := True

/-- Every jump that names a label names one that is written. -/
def Law.writtenJumps : Law where
  jump label := labelName label != ""

theorem Law.serves_staying : Law.writtenJumps.Serves .staying := by
  refine ⟨nofun, nofun, nofun, fun _ label h => ?_, nofun, nofun, nofun, nofun⟩
  simpa [Law.writtenJumps] using h

/-- Why a jump without a target is refused. -/
def Jump.unreached (jump : Jump) : Option String → Refusal
  | none => .outsideLoop jump
  | some label => .unknownLabel jump label

/-! ## Jumps that are refused -/

namespace Emit

variable {place : Place} {s : State} {label : Option String}

theorem get_bind {α : Type} (f : State → Emit α) : (get >>= f) place s = f s place s :=
  bind_of_ok (t := s) rfl f

theorem findTarget_unreached (jump : Jump)
    (h : ∀ target ∈ s.targets, JumpTarget.accepts label target = false) :
    findTarget jump label place s = (.error (.refusal (jump.unreached label)), s) := by
  have hnone : s.targets.find? (JumpTarget.accepts label) = none := by
    rw [List.find?_eq_none]
    intro target htarget
    simp [h target htarget]
  unfold findTarget
  rw [get_bind, hnone]
  cases label <;> rfl

theorem returnWith_in_value (value : Option (Emit Js.Expr)) (h : s.frame.valueDepth ≠ 0) :
    returnWith value place s = (.error (.refusal .returnInValue), s) := by
  unfold returnWith
  rw [get_bind, if_pos (by simpa using h)]
  rfl

end Emit

/-- Whatever function is emitted, in whatever surroundings, as long as no jump names an empty label:
    its jumps stay inside it. And a jump that has no target in reach, that would leave an arrow
    function with a `return`, or that stands where a value is needed, is refused. -/
theorem jumps_stay_inside (r : Reader) (place : Place) (s t : State) :
    (∀ decl params body, decl.isLawful .writtenJumps (r.isLawful .writtenJumps) = true →
      r.emitFn decl place s = (.ok (params, body), t) →
        Js.blockObeys .staying (.body decl.isAsync) body) ∧
    (∀ params body isAsync code,
      (Expr.closure params body isAsync).isLawful .writtenJumps (r.isLawful .writtenJumps)
        (.body s.frame.isAsync) = true →
      r.emit (.closure params body isAsync) .value place s = (.ok code, t) →
        code.Obeys .staying {}) ∧
    (∀ stmts label code,
      Stmt.allLawful .writtenJumps (r.isLawful .writtenJumps) .async stmts = true →
      r.emit (.block stmts true label) .value place s = (.ok code, t) → code.Obeys .staying {}) ∧
    (∀ label, (∀ target ∈ s.targets, Emit.JumpTarget.accepts label target = false) → ∀ tail,
      (∀ value, r.emit (.brk label value) (.statement tail) place s =
        (.error (.refusal (Jump.unreached .brk label)), s)) ∧
      r.emit (.cont label) (.statement tail) place s =
        (.error (.refusal (Jump.unreached .cont label)), s)) ∧
    (s.frame.valueDepth ≠ 0 → ∀ value tail,
      r.emit (.ret value) (.statement tail) place s = (.error (.refusal .returnInValue), s)) ∧
    ∀ label value,
      r.emit (.brk label value) .value place s = (.error (.refusal (.jumpAsValue .brk)), s) ∧
      r.emit (.cont label) .value place s = (.error (.refusal (.jumpAsValue .cont)), s) ∧
      r.emit (.ret value) .value place s = (.error (.refusal (.jumpAsValue .ret)), s) := by
  have hready : Ready .staying _ s := .of_not_neutral id place s
  have hserves := Law.serves_staying
  have hknows : Law.writtenJumps.Knows place := fun _ _ => rfl
  refine ⟨fun decl params body h hrun => ?_, fun params body isAsync code h hrun => ?_,
    fun stmts label code h hrun => ?_, fun label h tail => ⟨fun value => ?_, ?_⟩,
    fun h value tail => ?_, fun label value => ⟨?_, ?_, ?_⟩⟩
  · exact ((r.gives_emitFn hserves hknows decl _ fun _ => h).fact hready hrun).body
  · have hclosure := r.gives_emitClosure hserves hknows params body isAsync _ fun _ => h
    exact (hclosure.fact hready hrun).obeys {}
  · obtain ⟨body, hbody, rfl⟩ :=
      (r.gives_emitAsync hserves hknows stmts label _ fun _ => h).fact hready hrun
    simp only [Js.Expr.Obeys, Js.exprsObey, and_true]
    exact ⟨hbody.params, hbody.body⟩
  all_goals
    unfold Reader.emit
    rw [Emit.expr]
  · exact Emit.bind_of_error (Emit.findTarget_unreached .brk h) _
  · exact Emit.bind_of_error (Emit.findTarget_unreached .cont h) _
  · exact Emit.returnWith_in_value _ h
  all_goals rfl

/-- A loop with a label that an inner loop leaves, and a loop that is used as a value, next to jumps
    that have nowhere to go. -/
theorem labelled_and_nested_jumps_stay_inside :
    (∃ f t, (Reader.ofTable []).emitFn ⟨"f", [], [.expr (.loop [
            .expr (.call (.ident "g") [.loop [.expr (.brk none (some (.ident "x"))) true] none]) true,
            .expr (.loop [.expr (.cont (some "'a")) true] none) true,
            .expr (.ret none) true] (some "'a")) true], none, none, false⟩ {} {} = (.ok f, t) ∧
      Js.blockObeys .staying (.body false) f.2) ∧
    (∃ code t, (Reader.ofTable []).emit
        (.closure [] (.loop [.expr (.brk none none) true] none) false) .value {} {} = (.ok code, t) ∧
      code.Obeys .staying {}) ∧
    (∃ code t, (Reader.ofTable []).emit (.block [.expr (.ret none) true] true none) .value {} {} =
        (.ok code, t) ∧ code.Obeys .staying {}) ∧
    ((Reader.ofTable []).emit (.brk (some "'a") none) (.statement none) {}
        { targets := [⟨some "'b", none, false⟩] }).1 =
      .error (.refusal (.unknownLabel .brk "'a")) ∧
    ((Reader.ofTable []).emit (.ret none) (.statement none) {} { frame := { valueDepth := 1 } }).1 =
      .error (.refusal .returnInValue) := by
  refine ⟨?_, ?_, ?_, ?_, ?_⟩
  · exact Emit.exists_run (fun _ t hrun =>
      (jumps_stay_inside _ _ _ t).1 _ _ _ (by decide +kernel) hrun) (by decide +kernel)
  · exact Emit.exists_run (fun _ t hrun =>
      (jumps_stay_inside _ _ _ t).2.1 _ _ _ _ (by decide +kernel) hrun) (by decide +kernel)
  · exact Emit.exists_run (fun _ t hrun =>
      (jumps_stay_inside _ _ _ t).2.2.1 _ _ _ (by decide +kernel) hrun) (by decide +kernel)
  · have hother : ∀ target ∈ [(⟨some "'b", none, false⟩ : JumpTarget)],
        Emit.JumpTarget.accepts (some "'a") target = false := by simp [Emit.JumpTarget.accepts]
    rw [((jumps_stay_inside _ _ _ {}).2.2.2.1 _ hother _).1]
    rfl
  · rw [(jumps_stay_inside _ _ _ {}).2.2.2.2.1 (by decide)]

/-- A block with an empty label is left by a jump that needs a loop, and there is none. -/
theorem empty_label_leaves_no_target :
    ∃ f t, (Reader.ofTable []).emitFn
        ⟨"f", [], [.expr (.block [.expr (.brk (some "") none) true] false (some "")) false],
          none, none, false⟩ {} {} = (.ok f, t) ∧
      ¬Js.blockObeys .staying (.body false) f.2 := by
  refine ⟨([], [.block (some "") [.brk none]]), _, rfl, fun h => ?_⟩
  simp only [Js.blockObeys, Js.Stmt.Obeys] at h
  have hloop : Site.inLoop (.labelled (.body false) (some "")) = true := h.1.2.1.1 trivial
  cases hloop

end RustScript
