/-
  Free names among the targets of locals.

  A name that no scope binds stands for itself, and nobody keeps count of such names. The target of
  a local may be how a free name of the source is spelled. `Accounted` says where the live targets
  of a chain of scopes come from.
-/
import RustScript.Proofs.Scope.Renaming

namespace RustScript.Scopes

/-- Some layer made the target visible under the name, shadowed since or not. -/
def Declares (s : Scopes) (name target : String) : Prop :=
  ∃ l ∈ s.layers, (name, target) ∈ l.bindings

/-- One operation on scopes in which what is handed out becomes visible at once. -/
inductive DeclareStep : Scopes → Scopes → Prop where
  | push (s : Scopes) : DeclareStep s s.push
  | pop {s t : Scopes} (h : s.pop? = some t) : DeclareStep s t
  | declare (s : Scopes) (name : String) : DeclareStep s (s.declare name).2
  | seed (s : Scopes) (names : List String) : DeclareStep s (s.seed names).2

/-- The scopes come about by opening, closing and declaring. -/
def ReachedByDeclaring (s : Scopes) : Prop := Relation.ReflTransGen DeclareStep {} s

/-! ## Where a target comes from -/

/-- One of the layers has taken the target. -/
def TakenIn (ls : List Layer) (target : String) : Prop := ∃ l ∈ ls, target ∈ l.taken

/-- A target of the name: its own, or its own with a number behind it, and then its own and those
    with a smaller number are taken. -/
def TargetOf (ls : List Layer) (name target : String) : Prop :=
  target = Name.target name ∨
  ∃ n, 1 ≤ n ∧ target = suffixed (Name.target name) n ∧ TakenIn ls (Name.target name) ∧
    ∀ m, 1 ≤ m → m < n → TakenIn ls (suffixed (Name.target name) m)

/-- Each layer has taken what it binds and nothing else, and each target stands for its name in view
    of the layers from there on outwards. -/
inductive Accounted : List Layer → Prop where
  | nil : Accounted []
  | cons {l : Layer} {ls : List Layer}
      (taken : ∀ t, t ∈ l.taken ↔ ∃ name, (name, t) ∈ l.bindings)
      (targets : ∀ name t, (name, t) ∈ l.bindings → TargetOf (l :: ls) name t)
      (outer : Accounted ls) : Accounted (l :: ls)

theorem TakenIn.mono {ls ks : List Layer} {t : String} (h : TakenIn ls t)
    (hsub : ∀ l ∈ ls, ∃ k ∈ ks, l.taken ⊆ k.taken) : TakenIn ks t := by
  obtain ⟨l, hl, ht⟩ := h
  obtain ⟨k, hk, hlk⟩ := hsub l hl
  exact ⟨k, hk, hlk ht⟩

variable {name : String} {s : Scopes}

theorem TargetOf.mono {ls ks : List Layer} {t : String} (h : TargetOf ls name t)
    (hsub : ∀ l ∈ ls, ∃ k ∈ ks, l.taken ⊆ k.taken) : TargetOf ks name t := by
  rcases h with hown | ⟨n, hn, hsuf, hbase, hbelow⟩
  · exact .inl hown
  · exact .inr ⟨n, hn, hsuf, hbase.mono hsub, fun m hm hlt => (hbelow m hm hlt).mono hsub⟩

theorem targetOf_fresh (s : Scopes) (name : String) : TargetOf s.layers name (s.fresh name) := by
  have hnext := s.isNext_fresh name
  unfold IsNext at hnext
  split at hnext
  · next hlive =>
    obtain ⟨n, hn, hsuf, -, hbelow⟩ := hnext
    exact .inr ⟨n, hn, hsuf, isLive_iff.mp hlive, fun m hm hlt => isLive_iff.mp (hbelow m hm hlt)⟩
  · exact .inl hnext

namespace Accounted

variable {ls : List Layer} {s : Scopes}

theorem empty (h : Accounted ls) : Accounted ({} :: ls) :=
  .cons (fun t => by simp) (fun name t hbound => by simp at hbound) h

theorem declare (h : Accounted s.layers) (name : String) : Accounted (s.declare name).2.layers := by
  -- the layers stay, and the innermost has taken one more target
  have hsub : ∀ l ∈ s.layers, ∃ k ∈ (s.declare name).2.layers, l.taken ⊆ k.taken := by
    intro l hl
    rcases List.mem_cons.mp hl with rfl | hl
    · exact ⟨_, List.mem_cons_self, fun t ht => List.mem_cons_of_mem _ (List.mem_cons_of_mem _ ht)⟩
    · exact ⟨l, List.mem_cons_of_mem _ hl, List.Subset.refl _⟩
  cases h with
  | cons taken targets outer =>
    refine .cons (fun t => ?_) (fun other t hbound => ?_) outer
    · show t ∈ s.fresh name :: s.fresh name :: s.inner.taken ↔
        ∃ other, (other, t) ∈ (name, s.fresh name) :: s.inner.bindings
      constructor
      · intro ht
        rcases List.mem_cons.mp ht with rfl | ht
        · exact ⟨name, List.mem_cons_self⟩
        rcases List.mem_cons.mp ht with rfl | ht
        · exact ⟨name, List.mem_cons_self⟩
        obtain ⟨other, hother⟩ := (taken t).mp ht
        exact ⟨other, List.mem_cons_of_mem _ hother⟩
      · rintro ⟨other, hother⟩
        rcases List.mem_cons.mp hother with heq | hother
        · exact (Prod.mk.inj heq).2 ▸ List.mem_cons_self
        · exact List.mem_cons_of_mem _ (List.mem_cons_of_mem _ ((taken t).mpr ⟨other, hother⟩))
    · rcases List.mem_cons.mp hbound with heq | hbound
      · cases heq
        exact (targetOf_fresh s _).mono hsub
      · exact (targets other t hbound).mono hsub

theorem seed (h : Accounted s.layers) (names : List String) :
    Accounted (s.seed names).2.layers := by
  induction names generalizing s with
  | nil => exact h
  | cons name names ih => exact ih (h.declare name)

theorem step {t : Scopes} (h : Accounted s.layers) (hstep : DeclareStep s t) :
    Accounted t.layers := by
  cases hstep with
  | push => exact h.empty
  | pop hpop =>
    cases h with
    | cons _ _ outer => exact outer_of_pop? hpop ▸ outer
  | declare name => exact h.declare name
  | seed names => exact h.seed names

/-- What a layer binds is a target of its name in view of all layers. -/
theorem targetOf (h : Accounted ls) {l : Layer} (hl : l ∈ ls) {name t : String}
    (hbound : (name, t) ∈ l.bindings) : TargetOf ls name t := by
  induction h with
  | nil => cases hl
  | cons _ targets outer ih =>
    rcases List.mem_cons.mp hl with rfl | hl
    · exact targets name t hbound
    · exact (ih hl).mono fun k hk => ⟨k, List.mem_cons_of_mem _ hk, List.Subset.refl _⟩

theorem takenIn_iff (h : Accounted ls) {t : String} :
    TakenIn ls t ↔ ∃ name, ∃ l ∈ ls, (name, t) ∈ l.bindings := by
  induction h with
  | nil => simp [TakenIn]
  | cons taken _ _ ih =>
    simp only [TakenIn, List.mem_cons, exists_eq_or_imp, taken t, exists_or] at ih ⊢
    rw [ih]

end Accounted

theorem ReachedByDeclaring.accounted (h : s.ReachedByDeclaring) : Accounted s.layers := by
  induction h with
  | refl => exact .empty .nil
  | tail _ hstep ih => exact ih.step hstep

/-! ## What a free name stands for -/

theorem lookup_eq_none_iff : lookup name s.layers = none ↔ ¬ s.IsBound name := by
  constructor
  · rintro hnone ⟨i, t, l, hl, hbound⟩
    have hsome := isSome_lookup_of_binds hl hbound
    rw [hnone] at hsome
    cases hsome
  · intro hfree
    cases hlookup : lookup name s.layers with
    | none => rfl
    | some target =>
      obtain ⟨i, l, hl, hbound⟩ := binds_of_lookup hlookup
      exact absurd ⟨i, target, l, hl, hbound⟩ hfree

theorem resolve_of_not_isBound (h : ¬ s.IsBound name) : s.resolve name = Name.target name := by
  rw [resolve, lookup_eq_none_iff.mpr h, Option.getD_none]

theorem isBound_of_declares {target : String} (h : s.Declares name target) : s.IsBound name := by
  obtain ⟨l, hl, hmem⟩ := h
  obtain ⟨i, hi⟩ := List.mem_iff_getElem?.mp hl
  cases hlookup : l.bindings.lookup name with
  | none => exact absurd rfl (bne_iff_ne.mp (List.lookup_eq_none_iff.mp hlookup _ hmem))
  | some t => exact ⟨i, t, l, hi, hlookup⟩

/-- A name that no layer binds stands for its own target. That target is live exactly if it was
    handed out for another name. Either the two names have the same own target, or the free name
    is spelled like that of the other with a number behind it. Where no bound name is such, what the
    free name stands for is not live. -/
theorem isLive_resolve_of_free_iff {s : Scopes} {b : String} (h : s.ReachedByDeclaring)
    (hb : ¬ s.IsBound b) :
    (s.isLive (s.resolve b) = true ↔ ∃ name, name ≠ b ∧ s.Declares name (Name.target b) ∧
        (Name.target name = Name.target b ∨
          ∃ n, 1 ≤ n ∧ Name.target b = suffixed (Name.target name) n ∧
            s.isLive (Name.target name) = true ∧
            ∀ m, 1 ≤ m → m < n → s.isLive (suffixed (Name.target name) m) = true)) ∧
    ((∀ name, s.IsBound name → Name.target name ≠ Name.target b ∧
        ∀ n, 1 ≤ n → Name.target b ≠ suffixed (Name.target name) n) →
      s.isLive (s.resolve b) = false) := by
  have hacc := h.accounted
  have hiff : s.isLive (s.resolve b) = true ↔
      ∃ name, name ≠ b ∧ s.Declares name (Name.target b) ∧
        TargetOf s.layers name (Name.target b) := by
    rw [resolve_of_not_isBound hb, isLive_iff]
    constructor
    · intro hlive
      obtain ⟨name, l, hl, hmem⟩ := hacc.takenIn_iff.mp hlive
      refine ⟨name, ?_, ⟨l, hl, hmem⟩, hacc.targetOf hl hmem⟩
      rintro rfl
      exact hb (isBound_of_declares ⟨l, hl, hmem⟩)
    · rintro ⟨name, -, ⟨l, hl, hmem⟩, -⟩
      exact hacc.takenIn_iff.mpr ⟨name, l, hl, hmem⟩
  constructor
  · simpa only [TargetOf, TakenIn, ← isLive_iff, eq_comm] using hiff
  · intro hfar
    rw [← Bool.not_eq_true, hiff]
    rintro ⟨name, -, hdecl, hown | ⟨n, hn, hsuf, -⟩⟩
    · exact (hfar name (isBound_of_declares hdecl)).1 hown.symm
    · exact (hfar name (isBound_of_declares hdecl)).2 n hn hsuf

/-- Scopes in which `x` was declared twice and, in a block, `r#new` once. -/
def capturing : Scopes := ((({} : Scopes).seed ["x", "x"]).2.push.declare "r#new").2

theorem reachedByDeclaring_capturing : capturing.ReachedByDeclaring :=
  ((Relation.ReflTransGen.refl.tail (.seed _ ["x", "x"])).tail (.push _)).tail (.declare _ "r#new")

/-- The free name `new` is taken for the raw one, and `x_2` is not taken for an `x`. -/
theorem isLive_resolve_of_free_iff_capturing :
    (∃ name, name ≠ "new" ∧ capturing.Declares name "new_") ∧
      capturing.isLive (capturing.resolve "x_2") = false := by
  have hnew := (isLive_resolve_of_free_iff reachedByDeclaring_capturing
    (lookup_eq_none_iff.mp (by decide +kernel : lookup "new" capturing.layers = none))).1.mp
    (by decide +kernel)
  have hx := (isLive_resolve_of_free_iff reachedByDeclaring_capturing
    (lookup_eq_none_iff.mp (by decide +kernel : lookup "x_2" capturing.layers = none))).1
  obtain ⟨name, hne, hdecl, -⟩ := hnew
  refine ⟨⟨name, hne, hdecl⟩, ?_⟩
  rw [← Bool.not_eq_true, hx]
  rintro ⟨other, -, ⟨l, hl, hmem⟩, -⟩
  have hall : capturing.layers.all (fun l => l.bindings.all fun b => b.2 != "x_2") = true := by
    decide +kernel
  have hl' := List.all_eq_true.mp (List.all_eq_true.mp hall l hl) _ hmem
  exact absurd rfl (bne_iff_ne.mp hl')

/-- After two declarations of `x` the free name `x_1` stands for the second of them. -/
theorem free_name_taken_for_a_suffixed_local :
    let s := (({} : Scopes).declare "x").2.declare "x"
    s.2.ReachedByDeclaring ∧ ¬ s.2.IsBound "x_1" ∧ s.1 = "x_1" ∧ s.2.resolve "x_1" = "x_1" ∧
      s.2.isLive "x_1" = true := by
  intro s
  have hfree : lookup "x_1" s.2.layers = none := by decide +kernel
  exact ⟨(Relation.ReflTransGen.refl.tail (.declare _ "x")).tail (.declare _ "x"),
    lookup_eq_none_iff.mp hfree, by decide +kernel⟩

end RustScript.Scopes
