/-
  Closing a scope.

  Between its opening and its end stand operations that close just the scopes which they opened
  themselves (`Operation.isBalanced`). The layers below stay as they were (`Scopes.RestsOn`).
-/
import RustScript.Proofs.Context.Restore

namespace RustScript

/-- What is done to scopes. -/
inductive Operation where
  | push
  | pop
  | declare (name : String)
  | seed (names : List String)
  | reserve (name : String)
  | bind (name target : String)
  | resolve (name : String)
  deriving DecidableEq, Repr

namespace Operation

/-- The number of scopes that are open after an operation, of those opened since the start. A scope
    from before the start cannot be closed. -/
def depthAfter : Nat → Operation → Option Nat
  | depth, push => some (depth + 1)
  | 0, pop => none
  | depth + 1, pop => some depth
  | depth, _ => some depth

/-- Every scope that is closed was opened before, and every scope that is opened is closed. -/
def isBalanced (ops : List Operation) : Bool := ops.foldlM depthAfter 0 == some 0

end Operation

namespace Scopes

/-- The scopes after an operation; the outermost one cannot be closed. -/
def perform? (s : Scopes) : Operation → Option Scopes
  | .push => some s.push
  | .pop => s.pop?
  | .declare name => some (s.declare name).2
  | .seed names => some (s.seed names).2
  | .reserve name => some (s.reserve name).2
  | .bind name target => some (s.bind name target)
  | .resolve _ => some s

def performAll? (s : Scopes) (ops : List Operation) : Option Scopes := ops.foldlM perform? s

/-- On top of the layers `below` there are `depth` more, and the innermost one. -/
def RestsOn (below : List Layer) (depth : Nat) (s : Scopes) : Prop :=
  ∃ above, s.outer = above ++ below ∧ above.length = depth

section

variable {below : List Layer} {depth depth' : Nat} {s : Scopes} {op : Operation}

theorem RestsOn.perform (h : RestsOn below depth s) (hop : op.depthAfter depth = some depth') :
    ∃ t, s.perform? op = some t ∧ RestsOn below depth' t ∧ s.renames ≤ t.renames := by
  obtain ⟨above, houter, hlength⟩ := h
  -- all operations but two work on the innermost layer alone
  have hinner {t : Scopes} (ht : t.outer = s.outer) (hdepth : depth = depth') :
      RestsOn below depth' t :=
    ⟨above, ht.trans houter, hlength.trans hdepth⟩
  cases op with
  | push =>
    cases hop
    exact ⟨s.push, rfl, ⟨s.inner :: above, congrArg (_ :: ·) houter, by simp [hlength]⟩,
      Nat.le_refl _⟩
  | pop =>
    cases above with
    | nil =>
      subst hlength
      cases hop
    | cons l above =>
      subst hlength
      cases hop
      refine ⟨{ s with inner := l, outer := above ++ below }, ?_, ⟨above, rfl, rfl⟩, Nat.le_refl _⟩
      simp [perform?, pop?, houter]
  | declare name => exact ⟨_, rfl, hinner rfl (Option.some.inj hop), s.renames_le_declare name⟩
  | seed names =>
    exact ⟨_, rfl, hinner (s.seed_outer names) (Option.some.inj hop), s.renames_le_seed names⟩
  | reserve name => exact ⟨_, rfl, hinner rfl (Option.some.inj hop), s.renames_le_reserve name⟩
  | bind name target => exact ⟨_, rfl, hinner rfl (Option.some.inj hop), Nat.le_refl _⟩
  | resolve name => exact ⟨_, rfl, hinner rfl (Option.some.inj hop), Nat.le_refl _⟩

theorem RestsOn.performAll {ops : List Operation} (h : RestsOn below depth s)
    (hops : ops.foldlM Operation.depthAfter depth = some depth') :
    ∃ t, s.performAll? ops = some t ∧ RestsOn below depth' t ∧ s.renames ≤ t.renames := by
  induction ops generalizing s depth with
  | nil =>
    cases hops
    exact ⟨s, rfl, h, Nat.le_refl _⟩
  | cons op ops ih =>
    rw [List.foldlM_cons] at hops
    obtain ⟨next, hop, hops⟩ := Option.bind_eq_some_iff.mp hops
    obtain ⟨t, ht, hrests, hle⟩ := h.perform hop
    obtain ⟨u, hu, hrests, hle'⟩ := ih hrests hops
    refine ⟨u, ?_, hrests, Nat.le_trans hle hle'⟩
    rw [performAll?, List.foldlM_cons, ht]
    exact hu

theorem RestsOn.pop? {around : Scopes} (h : RestsOn around.layers 0 s) :
    s.pop? = some { around with renames := s.renames } := by
  obtain ⟨above, houter, hlength⟩ := h
  obtain rfl := List.eq_nil_of_length_eq_zero hlength
  have houter : s.outer = around.inner :: around.outer := houter
  simp [Scopes.pop?, houter]

end

/-- Whatever is done between the opening of a scope and its end, the end is reached and gives back
    the layers with all that they bind and have taken. Every name is resolved as before, every
    target is live or free as before, and only the count of renames may have grown. -/
theorem closing_undoes_scope (s : Scopes) {ops : List Operation}
    (h : Operation.isBalanced ops = true) :
    ∃ t, s.performAll? (.push :: ops ++ [.pop]) = some t ∧
      t.layers = s.layers ∧ t.taken = s.taken ∧
      (∀ name, t.resolve name = s.resolve name) ∧
      (∀ target, t.isLive target = s.isLive target) ∧
      s.renames ≤ t.renames := by
  have hopen : RestsOn s.layers 0 s.push := ⟨[], rfl, rfl⟩
  obtain ⟨u, hu, hrests, hle⟩ := hopen.performAll (beq_iff_eq.mp h)
  refine ⟨{ s with renames := u.renames }, ?_, rfl, rfl, fun _ => rfl, fun _ => rfl, hle⟩
  rw [performAll?, List.foldlM_append]
  exact Option.bind_eq_some_iff.mpr ⟨u, hu, by simp [perform?, hrests.pop?]⟩

/-- A scope in which names are shadowed, a nested one comes and goes, and a target is bound that
    nobody handed out. -/
theorem closing_undoes_shadowing_scope :
    let s := (({} : Scopes).declare "x").2
    let ops : List Operation := [.declare "x", .push, .reserve "x", .bind "x" "y", .resolve "x", .pop,
      .bind "x" "z", .seed ["x", "y"], .resolve "x"]
    Operation.isBalanced ops = true ∧
    ∃ t, s.performAll? (.push :: ops ++ [.pop]) = some t ∧ t.layers = s.layers ∧
      t.resolve "x" = "x" ∧ t.isLive "x_1" = false ∧ t.isLive "z" = false := by
  intro s ops
  have hbalanced : Operation.isBalanced ops = true := by decide
  obtain ⟨t, ht, hlayers, -, hresolve, hlive, -⟩ := closing_undoes_scope s hbalanced
  refine ⟨hbalanced, t, ht, hlayers, (hresolve "x").trans ?_, (hlive "x_1").trans ?_,
    (hlive "z").trans ?_⟩
  · decide
  · decide
  · decide

end Scopes

end RustScript
