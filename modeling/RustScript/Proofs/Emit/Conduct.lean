/-
  How emissions conduct themselves.

  `Conduct R faults x` says of every run of `x` where it leads, with which errors it can fail, and
  that of its place it sees no more than the type of the impl block, whether there is a receiver,
  and what single names are looked up to.
-/
import RustScript.Proofs.Context.Restore

namespace RustScript

/-- The places give the same answers to all that is asked of a place. -/
structure Place.Alike (p q : Place) : Prop where
  selfType : p.selfType = q.selfType
  isStatic : p.isStatic = q.isStatic
  lookup : ∀ name, p.structs.lookup name = q.structs.lookup name

/-! ## Failures -/

/-- A computation whose errors are reported, unless faults are allowed. -/
def Fails (faults : Prop) {α : Type} (x : Except Error α) : Prop :=
  ∀ e, x = .error e → faults ∨ e.isReported = true

theorem sound_and {faults : Prop} {a b : Bool} :
    faults ∨ (a && b) = true ↔ (faults ∨ a = true) ∧ (faults ∨ b = true) := by
  rw [Bool.and_eq_true, or_and_left]

namespace Fails

variable {faults : Prop} {α β : Type} {x : Except Error α}

theorem ok (a : α) : Fails faults (.ok a : Except Error α) := fun _ h => nomatch h

theorem error {e : Error} (h : faults ∨ e.isReported = true) :
    Fails faults (.error e : Except Error α) := by
  rintro _ ⟨⟩
  exact h

theorem bind {f : α → Except Error β} (hx : Fails faults x)
    (hf : ∀ a, x = .ok a → Fails faults (f a)) : Fails faults (x >>= f) := by
  cases x with
  | error e => exact fun e' h => hx e' (by cases h; rfl)
  | ok a => exact hf a rfl

theorem andReturn (hx : Fails faults x) (f : α → β) : Fails faults (do return f (← x)) :=
  hx.bind fun _ _ => ok _

theorem map (hx : Fails faults x) (f : α → β) : Fails faults (x.map f) := by
  cases x with
  | error e => exact error (hx e rfl)
  | ok a => exact ok _

end Fails

namespace Emit

/-- What holds of every run of the emission: where it can lead, how it can fail, and what it sees of
    its place. -/
structure Conduct (R : State → State → Prop) (faults : Prop) {α : Type} (x : Emit α) : Prop where
  runs : Runs R x
  fails : ∀ place s, Fails faults (x place s).1
  alike : ∀ p q, p.Alike q → ∀ s, x p s = x q s

/-- The run may declare names in the innermost scope. -/
abbrev Contained (faults : Prop) {α : Type} (x : Emit α) : Prop := Conduct Kept faults x

/-- The run leaves all scopes as they were. -/
abbrev Tidy (faults : Prop) {α : Type} (x : Emit α) : Prop := Conduct Restored faults x

namespace Conduct

variable {R : State → State → Prop} {faults : Prop} {α β : Type} {x : Emit α}

theorem pure [Std.Refl R] (a : α) : Conduct R faults (pure a : Emit α) where
  runs := Runs.pure a
  fails _ _ := Fails.ok a
  alike _ _ _ _ := rfl

theorem bind [Trans R R R] {f : α → Emit β} (hx : Conduct R faults x)
    (hf : ∀ a, Conduct R faults (f a)) : Conduct R faults (x >>= f) where
  runs := hx.runs.bind fun a => (hf a).runs
  fails place s := by
    rcases hr : x place s with ⟨e | a, t⟩
    · rw [bind_of_error hr]
      exact Fails.error (hx.fails place s e (by rw [hr]))
    · rw [bind_of_ok hr]
      exact (hf a).fails place t
  alike p q h s := by
    have hs := hx.alike p q h s
    rcases hr : x p s with ⟨e | a, t⟩
    · rw [bind_of_error hr, bind_of_error (hs ▸ hr)]
    · rw [bind_of_ok hr, bind_of_ok (hs ▸ hr)]
      exact (hf a).alike p q h t

theorem andReturn [Std.Refl R] [Trans R R R] (hx : Conduct R faults x) (f : α → β) :
    Conduct R faults (do return f (← x)) :=
  hx.bind fun _ => pure _

theorem atPlace (h : Conduct R faults x) (place : Place) :
    Conduct R faults (withReader (fun _ => place) x) where
  runs _ s := h.runs place s
  fails _ s := h.fails place s
  alike _ _ _ _ := rfl

end Conduct

end Emit

end RustScript
