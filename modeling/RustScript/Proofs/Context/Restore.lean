/-
  What emission does to its state.

  `Kept s t` says what every emission from `s` to `t` keeps, and `Restored s t` adds the innermost
  scope. `Keeps x` and `Restores x` say it of all runs of `x`, whether they succeed or fail. A
  bracket restores what its body only keeps.
-/
import RustScript.Emit.Context

namespace RustScript

/-- The stems of temporaries. -/
def Emit.stems : List String := ["tmp", "match", "arms", "obj", "unused", "i"]

/-- The names are those of before and the temporaries drawn since, each numbered by how many there
    were. -/
inductive Emit.Draws (before : List String) : List String → Prop where
  | none : Draws before before
  | draw {stem : String} {names : List String} (known : stem ∈ stems) (h : Draws before names) :
      Draws before (temporary stem names.length :: names)

theorem Emit.Draws.trans {as bs cs : List String} (h : Draws as bs) (k : Draws bs cs) :
    Draws as cs := by
  induction k with
  | none => exact h
  | draw known _ ih => exact .draw known ih

/-- What an emission from `s` to `t` keeps of the state in any case. -/
structure Kept (s t : State) : Prop where
  targets : t.targets = s.targets
  callers : t.callers = s.callers
  isAsync : t.frame.isAsync = s.frame.isAsync
  valueDepth : t.frame.valueDepth = s.frame.valueDepth
  usesTry : s.frame.usesTry = true → t.frame.usesTry = true
  outer : t.scopes.outer = s.scopes.outer
  drawn : Emit.Draws s.drawn t.drawn
  renames : s.scopes.renames ≤ t.scopes.renames

/-- What an emission from `s` to `t` keeps that leaves no name behind. -/
structure Restored (s t : State) : Prop extends Kept s t where
  inner : t.scopes.inner = s.scopes.inner

theorem Kept.refl (s : State) : Kept s s := ⟨rfl, rfl, rfl, rfl, id, rfl, .none, Nat.le_refl _⟩

theorem Kept.trans {s t u : State} (h : Kept s t) (k : Kept t u) : Kept s u where
  targets := k.targets.trans h.targets
  callers := k.callers.trans h.callers
  isAsync := k.isAsync.trans h.isAsync
  valueDepth := k.valueDepth.trans h.valueDepth
  usesTry used := k.usesTry (h.usesTry used)
  outer := k.outer.trans h.outer
  drawn := h.drawn.trans k.drawn
  renames := Nat.le_trans h.renames k.renames

theorem Restored.refl (s : State) : Restored s s := ⟨Kept.refl s, rfl⟩

theorem Restored.trans {s t u : State} (h : Restored s t) (k : Restored t u) : Restored s u :=
  ⟨h.toKept.trans k.toKept, k.inner.trans h.inner⟩

instance : Std.Refl Kept := ⟨Kept.refl⟩

instance : Trans Kept Kept Kept := ⟨Kept.trans⟩

instance : Std.Refl Restored := ⟨Restored.refl⟩

instance : Trans Restored Restored Restored := ⟨Restored.trans⟩

namespace Emit

/-- Every run of `x`, whether it succeeds or fails, goes from a state to one that `R` allows. -/
def Runs (R : State → State → Prop) {α : Type} (x : Emit α) : Prop := ∀ place s, R s (x place s).2

/-- The emission keeps what lies around the innermost scope. -/
abbrev Keeps {α : Type} (x : Emit α) : Prop := Runs Kept x

/-- The emission leaves the state as it found it, up to the counters and the mark of `?`. -/
abbrev Restores {α : Type} (x : Emit α) : Prop := Runs Restored x

/-! ## Steps in sequence -/

theorem bind_of_ok {α β : Type} {x : Emit α} {place : Place} {s t : State} {a : α}
    (h : x place s = (.ok a, t)) (f : α → Emit β) : (x >>= f) place s = f a place t := by
  simp only [bind, ReaderT.bind, ExceptT.bind, ExceptT.mk, StateT.bind, h]
  rfl

theorem bind_of_error {α β : Type} {x : Emit α} {place : Place} {s t : State} {e : Error}
    (h : x place s = (.error e, t)) (f : α → Emit β) : (x >>= f) place s = (.error e, t) := by
  simp only [bind, ReaderT.bind, ExceptT.bind, ExceptT.mk, StateT.bind, h]
  rfl

section Sequence

variable {R : State → State → Prop} {α β : Type} {x : Emit α}

theorem Runs.pure [Std.Refl R] (a : α) : Runs R (pure a : Emit α) := fun _ s => Std.Refl.refl s

theorem Runs.throw [Std.Refl R] (e : Error) : Runs R (throw e : Emit α) :=
  fun _ s => Std.Refl.refl s

theorem Runs.refuse [Std.Refl R] (cause : Refusal) : Runs R (refuse cause : Emit α) := Runs.throw _

theorem Runs.bind [Trans R R R] {f : α → Emit β} (hx : Runs R x) (hf : ∀ a, Runs R (f a)) :
    Runs R (x >>= f) := by
  intro place s
  have hs := hx place s
  rcases h : x place s with ⟨e | a, t⟩
  · rw [bind_of_error h]
    rwa [h] at hs
  · rw [bind_of_ok h]
    rw [h] at hs
    exact Trans.trans hs (hf a place t)

theorem Runs.andReturn [Std.Refl R] [Trans R R R] (hx : Runs R x) (f : α → β) :
    Runs R (do return f (← x)) :=
  hx.bind fun _ => Runs.pure _

end Sequence

/-! ## Names and temporaries -/

theorem restores_fresh {stem : String} (known : stem ∈ stems) : Restores (fresh stem) :=
  fun _ s => { Restored.refl s with drawn := .draw known .none }

theorem kept_of_scopes {s : State} {scopes : Scopes} (houter : scopes.outer = s.scopes.outer)
    (hrenames : s.scopes.renames ≤ scopes.renames) : Kept s { s with scopes } :=
  { Kept.refl s with outer := houter, renames := hrenames }

end Emit

namespace Scopes

@[simp] theorem reserve_outer (s : Scopes) (name : String) : (s.reserve name).2.outer = s.outer :=
  rfl

theorem renames_le_reserve (s : Scopes) (name : String) :
    s.renames ≤ (s.reserve name).2.renames := by
  simp only [reserve]
  split <;> omega

@[simp] theorem declare_outer (s : Scopes) (name : String) : (s.declare name).2.outer = s.outer :=
  rfl

theorem renames_le_declare (s : Scopes) (name : String) : s.renames ≤ (s.declare name).2.renames :=
  s.renames_le_reserve name

@[simp] theorem seed_outer (s : Scopes) (names : List String) :
    (s.seed names).2.outer = s.outer := by
  induction names generalizing s with
  | nil => rfl
  | cons name names ih => exact ih (s.declare name).2

theorem renames_le_seed (s : Scopes) (names : List String) :
    s.renames ≤ (s.seed names).2.renames := by
  induction names generalizing s with
  | nil => exact Nat.le_refl _
  | cons name names ih => exact Nat.le_trans (s.renames_le_declare name) (ih (s.declare name).2)

end Scopes

namespace Emit

theorem keeps_declare (name : String) : Keeps (declare name) :=
  fun _ s => kept_of_scopes (s.scopes.declare_outer name) (s.scopes.renames_le_declare name)

theorem keeps_seed (names : List String) : Keeps (seed names) :=
  fun _ s => kept_of_scopes (s.scopes.seed_outer names) (s.scopes.renames_le_seed names)

theorem keeps_reserve (name : String) : Keeps (reserve name) :=
  fun _ s => kept_of_scopes (s.scopes.reserve_outer name) (s.scopes.renames_le_reserve name)

theorem keeps_bindName (name target : String) : Keeps (bindName name target) :=
  fun _ _ => kept_of_scopes rfl (Nat.le_refl _)

theorem restores_markTry :
    Restores (modify fun state => { state with frame := { state.frame with usesTry := true } }) :=
  fun _ s => { Restored.refl s with usesTry := fun _ => rfl }

end Emit

/-! ## Brackets -/

variable {s t : State}

/-- The layers below the one that was opened are the old layers, so that closing it gives them back
    whatever was declared inside. -/
theorem Kept.closeScope (k : Kept { s with scopes := s.scopes.push } t) :
    Restored s { t with scopes := t.scopes.pop } := by
  have houter : t.scopes.outer = s.scopes.inner :: s.scopes.outer := k.outer
  have hpop : t.scopes.pop =
      { t.scopes with inner := s.scopes.inner, outer := s.scopes.outer } := by
    simp [Scopes.pop, Scopes.pop?, houter]
  rw [hpop]
  exact { k with outer := rfl, inner := rfl }

/-- The frame that is closed is the one that was opened, and the frame below it comes back. -/
theorem Restored.leaveFunction {isAsync : Bool} (k : Restored (s.enterFunction isAsync) t) :
    Restored s (t.leaveFunction s.targets) := by
  have hcallers : t.callers = s.frame :: s.callers := k.callers
  have hleave : t.leaveFunction s.targets =
      { t with frame := s.frame, callers := s.callers, targets := s.targets } := by
    simp [State.leaveFunction, hcallers]
  rw [hleave]
  exact { k with targets := rfl, callers := rfl, isAsync := rfl, valueDepth := rfl, usesTry := id }

theorem Restored.leaveTarget {target : JumpTarget} (k : Restored (s.enterTarget target) t) :
    Restored s t.leaveTarget := by
  have htargets : t.targets = target :: s.targets := k.targets
  exact { k with targets := by simp [State.leaveTarget, htargets] }

theorem Restored.leaveValue (k : Restored s.enterValue t) :
    Restored s (t.leaveValue s.targets) := by
  have hdepth : t.frame.valueDepth = s.frame.valueDepth + 1 := k.valueDepth
  exact { k with targets := rfl, valueDepth := by simp [State.leaveValue, hdepth] }

namespace Emit

theorem restores_inScope {α : Type} {body : Emit α} (h : Keeps body) : Restores (inScope body) :=
  fun place _ => (h place _).closeScope

end Emit

end RustScript
