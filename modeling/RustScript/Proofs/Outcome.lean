/-
  Results of computations that can fail.

  `Ensures Q x` says that the result of `x`, if there is one, has the property `Q`. The rules follow
  the way such computations are put together.
-/
namespace RustScript

variable {ε α β γ : Type} {b : β}

theorem exists_of_bind_eq_ok {x : Except ε α} {f : α → Except ε β} (h : x >>= f = .ok b) :
    ∃ a, x = .ok a ∧ f a = .ok b := by
  cases x with
  | error e => simp [bind, Except.bind] at h
  | ok a => exact ⟨a, rfl, h⟩

theorem exists_of_return_eq_ok {x : Except ε α} {f : α → β}
    (h : (x >>= fun a => pure (f a)) = .ok b) : ∃ a, x = .ok a ∧ f a = b := by
  obtain ⟨a, ha, hreturn⟩ := exists_of_bind_eq_ok h
  exact ⟨a, ha, Except.ok.inj hreturn⟩

theorem exists_of_both_eq_ok {x : Except ε α} {y : α → Except ε β} {f : α → β → γ} {c : γ}
    (h : (x >>= fun a => y a >>= fun b => pure (f a b)) = .ok c) :
    ∃ a b, x = .ok a ∧ y a = .ok b ∧ f a b = c := by
  obtain ⟨a, ha, h⟩ := exists_of_bind_eq_ok h
  obtain ⟨b, hb, hreturn⟩ := exists_of_return_eq_ok h
  exact ⟨a, b, ha, hb, hreturn⟩

theorem return_eq_ok_iff {x : Except ε α} {f : α → β} :
    (do return f (← x)) = .ok b ↔ ∃ a, x = .ok a ∧ b = f a := by
  constructor
  · intro h
    obtain ⟨a, ha, rfl⟩ := exists_of_return_eq_ok h
    exact ⟨a, ha, rfl⟩
  · rintro ⟨a, rfl, rfl⟩
    rfl

/-- The result, if there is one, has the property. -/
def Ensures (Q : α → Prop) (x : Except ε α) : Prop := ∀ a, x = .ok a → Q a

namespace Ensures

variable {Q : α → Prop} {R : β → Prop} {x : Except ε α} {f : α → Except ε β}

theorem ok {a : α} (h : Q a) : Ensures Q (.ok a : Except ε α) := by
  rintro _ ⟨⟩
  exact h

theorem error (e : ε) : Ensures Q (.error e : Except ε α) := by rintro _ ⟨⟩

theorem bind (hx : Ensures Q x) (hf : ∀ a, Q a → Ensures R (f a)) : Ensures R (x >>= f) := by
  intro b hb
  obtain ⟨a, ha, hb⟩ := exists_of_bind_eq_ok hb
  exact hf a (hx a ha) b hb

theorem map {g : α → β} (hx : Ensures Q x) (hg : ∀ a, Q a → R (g a)) :
    Ensures R (do return g (← x)) :=
  hx.bind fun a ha => ok (hg a ha)

theorem bindAny (hf : ∀ a, Ensures R (f a)) : Ensures R (x >>= f) := by
  intro b hb
  obtain ⟨a, -, hb⟩ := exists_of_bind_eq_ok hb
  exact hf a b hb

theorem mono {Q' : α → Prop} (hx : Ensures Q x) (h : ∀ a, Q a → Q' a) : Ensures Q' x :=
  fun a ha => h a (hx a ha)

end Ensures

end RustScript
