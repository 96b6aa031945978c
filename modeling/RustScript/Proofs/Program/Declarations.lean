/-
  How declarations fail and what they see of each other: what single names are looked up to among
  the structs, and which names are those of enums (`Item.fragments_congr`).
-/
import RustScript.Program.Assemble
import RustScript.Proofs.Emit.Tree

namespace RustScript

open Emit

/-! ## Enums -/

/-- Whether a field has the name of the tag. -/
def Variant.hasTagField (v : Variant) : Bool := v.shape == .named && v.fields.contains "type"

variable {e : Error}

theorem Variant.emit_eq_error {v : Variant} (h : v.emit = .error e) :
    v.hasTagField = true ∧ e = .refusal (.tagField v.name) := by
  obtain ⟨name, shape, fields⟩ := v
  cases shape with
  | named =>
    simp only [emit] at h
    split at h
    · next htag =>
      cases h
      exact ⟨htag, rfl⟩
    · cases h
  | tuple => cases h
  | unit => cases h

theorem exists_error_of_mapM {α β : Type} {f : α → Except Error β} {xs : List α}
    (h : xs.mapM f = .error e) : ∃ x ∈ xs, f x = .error e := by
  induction xs with
  | nil => cases h
  | cons x xs ih =>
    rw [List.mapM_cons] at h
    cases hx : f x with
    | error e' =>
      rw [hx] at h
      cases h
      exact ⟨x, List.mem_cons_self, hx⟩
    | ok y =>
      rw [hx] at h
      cases hxs : xs.mapM f with
      | error e' =>
        rw [hxs] at h
        cases h
        obtain ⟨z, hz, hfz⟩ := ih hxs
        exact ⟨z, List.mem_cons_of_mem _ hz, hfz⟩
      | ok ys =>
        rw [hxs] at h
        cases h

theorem EnumDecl.emit_eq_error {d : EnumDecl} (h : d.emit = .error e) :
    ∃ v ∈ d.variants, v.hasTagField = true ∧ e = .refusal (.tagField v.name) := by
  unfold emit at h
  cases hm : d.variants.mapM Variant.emit with
  | ok members =>
    rw [hm] at h
    cases h
  | error e' =>
    rw [hm] at h
    cases h
    obtain ⟨v, hv, hfail⟩ := exists_error_of_mapM hm
    exact ⟨v, hv, Variant.emit_eq_error hfail⟩

/-! ## Running an emission -/

section

variable {faults : Prop} {R : State → State → Prop} {α : Type} {x : Emit α}

theorem Emit.fails_run (h : Conduct R faults x) (place : Place) : Fails faults (run place x) :=
  h.fails place {}

theorem Emit.run_congr (h : Conduct R faults x) {p q : Place} (hpq : p.Alike q) :
    run p x = run q x := by
  unfold run
  rw [h.alike p q hpq]

end

/-! ## Impl blocks -/

namespace ImplDecl

variable {faults : Prop} {r : Reader}

theorem tidy_method {d : FnDecl} (h : faults ∨ d.isSound r.isSound = true) (structs : Structs)
    (type : String) : Tidy faults (method r structs type d) :=
  ((r.tidy_emitFn h).atPlace _).andReturn _

theorem tidy_methods {ds : List FnDecl}
    (h : faults ∨ (ds.all fun d => d.isSound r.isSound) = true) (structs : Structs)
    (type : String) : Tidy faults (methods r structs type ds) := by
  induction ds with
  | nil => exact Conduct.pure _
  | cons d ds ih =>
    simp only [List.all_cons, sound_and] at h
    exact (tidy_method h.1 structs type).bind fun _ => (ih h.2).andReturn _

theorem fails_emit {d : ImplDecl} (h : faults ∨ (d.fns.all fun f => f.isSound r.isSound) = true)
    (structs : Structs) (enums : Enums) : Fails faults (d.emit r structs enums) := by
  unfold emit
  split
  · exact .error (.inr rfl)
  · exact (fails_run (tidy_methods h structs d.ident) _).andReturn _

variable {structs structs' : Structs}
  (hstructs : ∀ name, structs.lookup name = structs'.lookup name)

include hstructs

theorem method_congr (type : String) (d : FnDecl) :
    method r structs type d = method r structs' type d := by
  have hfn : ∀ isStatic,
      withReader (fun _ => { selfType := some type, isStatic, structs }) (r.emitFn d) =
        withReader (fun _ => { selfType := some type, isStatic, structs := structs' })
          (r.emitFn d) := by
    intro isStatic
    have hplace : Place.Alike { selfType := some type, isStatic, structs }
        { selfType := some type, isStatic, structs := structs' } :=
      ⟨rfl, rfl, hstructs⟩
    funext place s
    exact (r.tidy_emitFn (.inl trivial)).alike _ _ hplace s
  simp only [method, hfn]

theorem methods_congr (type : String) (ds : List FnDecl) :
    methods r structs type ds = methods r structs' type ds := by
  induction ds with
  | nil => rfl
  | cons d ds ih => simp only [methods, method_congr hstructs, ih]

theorem emit_congr {enums enums' : Enums}
    (henums : ∀ name, enums.contains name = enums'.contains name) (d : ImplDecl) :
    d.emit r structs enums = d.emit r structs' enums' := by
  have hplace : Place.Alike { structs } { structs := structs' } := ⟨rfl, rfl, hstructs⟩
  have htidy : Tidy True (methods r structs' d.ident d.fns) := tidy_methods (.inl trivial) _ _
  have hrun := run_congr htidy hplace
  simp only [emit, henums, methods_congr hstructs, hrun]

end ImplDecl

/-! ## All declarations -/

namespace Item

variable {r : Reader}

/-- A declaration that is sound fails with a reported error only. -/
theorem fails_fragments {faults : Prop} {i : Item} (h : faults ∨ i.isSound r.isSound = true)
    (structs : Structs) (enums : Enums) : Fails faults (i.fragments r structs enums) := by
  cases i with
  | struct d => exact .ok _
  | enum d =>
    refine .andReturn (fun e he => ?_) _
    obtain ⟨v, -, -, rfl⟩ := EnumDecl.emit_eq_error he
    exact .inr rfl
  | fn d =>
    refine .andReturn ?_ _
    unfold FnDecl.emit
    split
    · exact .error (.inr rfl)
    · exact (fails_run (r.tidy_emitFn h) _).andReturn _
  | impl d => exact ImplDecl.fails_emit h structs enums
  | const d => exact .andReturn ((fails_run (r.tidy_emit h .value) _).andReturn _) _
  | inert ident what => exact .ok _
  | unknown ident what => exact .error (.inr rfl)
  | bare => exact .error (.inr rfl)

/-- Tables with the same entries give the same fragments, or the same error. -/
theorem fragments_congr {structs structs' : Structs} {enums enums' : Enums}
    (hstructs : ∀ name, structs.lookup name = structs'.lookup name)
    (henums : ∀ name, enums.contains name = enums'.contains name) (i : Item) :
    i.fragments r structs enums = i.fragments r structs' enums' := by
  have hplace : Place.Alike { structs } { structs := structs' } := ⟨rfl, rfl, hstructs⟩
  cases i with
  | fn d =>
    have htidy : Tidy True (r.emitFn d) := r.tidy_emitFn (.inl trivial)
    have hrun := run_congr htidy hplace
    simp only [fragments, FnDecl.emit, hrun]
  | const d =>
    have htidy : Tidy True (r.emit d.value .value) := r.tidy_emit (.inl trivial) _
    have hrun := run_congr htidy hplace
    simp only [fragments, ConstDecl.emit, hrun]
  | impl d => exact ImplDecl.emit_congr hstructs henums d
  | struct _ | enum _ | inert _ _ | unknown _ _ | bare => rfl

end Item

end RustScript
