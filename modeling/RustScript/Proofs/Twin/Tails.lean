/-
  Emission is parametric in the tail.

  A tail is handed down to where values are computed, and kept with the jump targets for the values
  of a `break`. What is emitted for two tails differs in nothing but the text in front of these
  values.
-/
import RustScript.Proofs.Context.Tree

namespace RustScript

open Emit

/-- The tie of a run to one at the same place, in a state that emission cannot tell apart. -/
def Emit.Tie.unseen : Tie where
  faults := True
  keeps := False
  places := Eq
  scopes := Scopes.Alike
  tails _ _ := True
  alike h := h ▸ ⟨rfl, rfl, fun _ => rfl⟩
  view := .alike
  returns := trivial

theorem State.Alike.eq_of_restored {p q : Js.Tail} {s t u : State}
    (h : t.Alike Scopes.Alike p q u) (ht : Restored s t) (hu : Restored s u) : t = u := by
  have hlayers : t.scopes.layers = u.scopes.layers := by
    unfold Scopes.layers
    rw [ht.inner, ht.outer, hu.inner, hu.outer]
  have hscopes := h.scopes.eq_of_layers hlayers
  have htargets := ht.targets.trans hu.targets.symm
  obtain ⟨-, hdrawn, hframe, hcallers, -⟩ := h
  cases t
  cases u
  cases hscopes
  cases hdrawn
  cases hframe
  cases hcallers
  cases htargets
  rfl

theorem Reader.restored_emit (r : Reader) (e : Expr) (pos : Position) (place : Place) (s : State) :
    Restored s (r.emit e pos place s).2 :=
  restores_expr r.restores_expand e pos place s

/-- In positions that are alike the outcomes are, and the state at the end is the same. -/
theorem Reader.outcomes_emit (r : Reader) (e : Expr) {p q : Js.Tail} {pos pos' : Position}
    (hpos : Position.Alike p q pos pos') (place : Place) (s : State) :
    Outcomes Eq (Position.CodeAlike p q pos pos') (r.emit e pos place s)
      (r.emit e pos' place s) := by
  have htwins := (r.twins_emit .unseen (e := e) (.inl trivial) trivial hpos place place s s rfl
    (.of_scopes p q (s := s) (.refl _))).1
  have hx := r.restored_emit e pos place s
  have hy := r.restored_emit e pos' place s
  generalize r.emit e pos place s = x at htwins hx ⊢
  generalize r.emit e pos' place s = y at htwins hy ⊢
  cases htwins with
  | ok hab htu => exact .ok hab (htu.1.eq_of_restored hx hy)
  | error htu => exact .error (htu.1.eq_of_restored hx hy)

theorem Js.Tail.returns_eq_false {p : Js.Tail} (h : p ≠ .ret) : p.returns = false := by
  refine Bool.eq_false_iff.mpr fun hreturns => h ?_
  obtain ⟨lead⟩ := p
  rw [Js.Tail.ret, show lead = "return " from eq_of_beq hreturns]

theorem Reader.emitStmt_letControl {r : Reader} {e : Expr} (hneeds : e.needsStatement = true)
    {place : Place} {s t : State} {x : String} {lines : List Js.Stmt}
    (h : r.emit e (.statement (some (.into (s.scopes.reserve x).1))) place
      { s with scopes := (s.scopes.reserve x).2 } = (.ok lines, t))
    (isMutable byRef : Bool) (ty : Option String) (tail : Option Js.Tail) :
    r.emitStmt (.letIn (.ident x isMutable byRef none) (some e) ty none) tail place s =
      (.ok (.declare .var (.name (s.scopes.reserve x).1) none :: lines),
        { t with scopes := t.scopes.bind x (s.scopes.reserve x).1 }) := by
  have hreserve : reserve x place s =
      (.ok (s.scopes.reserve x).1, { s with scopes := (s.scopes.reserve x).2 }) := rfl
  unfold Reader.emitStmt
  rw [stmt, if_pos hneeds]
  · unfold letControl
    simp only [Pat.plainName?]
    rw [bind_of_ok hreserve]
    exact bind_of_ok h _
  · simp

/-- What is emitted for two tails that stay in the function is the same line by line, except for the
    text in front of the values that go there. If one of them returns, the statements are still the
    same, except that the values of blocks and of jumps go there; so its lines lack nothing but the
    jump behind the value of a `break` to a target with that tail. Either way both fail with the
    same error or succeed, and the state at the end is the same. So the initialiser of a `let`
    computes what the same expression computes that is returned. -/
theorem emission_is_parametric_in_tails (r : Reader) (e : Expr) (place : Place) (s : State)
    (p : Js.Tail) (hp : p ≠ .ret) :
    (∀ q, q ≠ .ret → Outcomes Eq (fun a b => List.Forall₂ (fun line line' => line = line' ∨
            ∃ code, line = p.lead ++ code ++ ";" ∧ line' = q.lead ++ code ++ ";")
          (Js.blockLines a) (Js.blockLines b))
        (r.emit e (.statement (some p)) place s) (r.emit e (.statement (some q)) place s)) ∧
    Outcomes Eq (Js.StmtsAlike p .ret) (r.emit e (.statement (some p)) place s)
      (r.emit e (.statement (some .ret)) place s) ∧
    ∀ x isMutable byRef ty tail lines t, e.needsStatement = true →
      r.emit e (.statement (some .ret)) place { s with scopes := (s.scopes.reserve x).2 } =
        (.ok lines, t) →
      ∃ init,
        r.emitStmt (.letIn (.ident x isMutable byRef none) (some e) ty none) tail place s =
          (.ok (.declare .var (.name (s.scopes.reserve x).1) none :: init),
            { t with scopes := t.scopes.bind x (s.scopes.reserve x).1 }) ∧
        Js.StmtsAlike (.into (s.scopes.reserve x).1) .ret init lines := by
  refine ⟨fun q hq => ?_, r.outcomes_emit e (.statement .both) place s, ?_⟩
  · refine (r.outcomes_emit e (.statement .both) place s).imp (fun a b hab => ?_) fun _ _ => id
    exact hab.lines (Js.Tail.returns_eq_false hp) (Js.Tail.returns_eq_false hq)
  · intro x isMutable byRef ty tail lines t hneeds hrun
    have houtcomes := r.outcomes_emit e
      (.statement (@TailsAlike.both (.into (s.scopes.reserve x).1) .ret)) place
      { s with scopes := (s.scopes.reserve x).2 }
    rw [hrun] at houtcomes
    rcases hinit : r.emit e (.statement (some (.into (s.scopes.reserve x).1))) place
      { s with scopes := (s.scopes.reserve x).2 } with ⟨e' | init, u⟩ <;> rw [hinit] at houtcomes
    · cases houtcomes
    · cases houtcomes with
      | ok hab hut =>
        subst hut
        exact ⟨init, Reader.emitStmt_letControl hneeds hinit isMutable byRef ty tail, hab⟩

/-- A loop that is left with a value. -/
def loopWithValue : Expr := .loop [.expr (.brk none (some (.ident "n"))) true] none

/-- The value is stored and the loop is left, or it is returned. -/
theorem emission_is_parametric_in_tails_loop :
    Js.Tail.into "x" ≠ .ret ∧
    Except.toOption (((Reader.ofTable []).emit loopWithValue (.statement (some (.into "x")))
        {} {}).1.map Js.blockLines) =
      some ["while (true) \x7b", "x = n;", "break;", "\x7d"] ∧
    Except.toOption (((Reader.ofTable []).emit loopWithValue (.statement (some .ret))
        {} {}).1.map Js.blockLines) =
      some ["while (true) \x7b", "return n;", "\x7d"] ∧
    Outcomes Eq (Js.StmtsAlike (.into "x") .ret)
      ((Reader.ofTable []).emit loopWithValue (.statement (some (.into "x"))) {} {})
      ((Reader.ofTable []).emit loopWithValue (.statement (some .ret)) {} {}) :=
  ⟨by decide, by decide +kernel, by decide +kernel,
    (emission_is_parametric_in_tails (.ofTable []) loopWithValue {} {} (.into "x") (by decide)).2.1⟩

end RustScript
