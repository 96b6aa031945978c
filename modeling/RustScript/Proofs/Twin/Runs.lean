/-
  Two runs side by side.

  `Paired T R p q Q x y` says that `x` and `y` do the same from places and states that the tie `T`
  relates, except that a jump target of the one may hand its value to `p` where that of the other
  hands it to `q`. The weakest relation of states leaves open how bindings are stored
  (`Scopes.Alike`).
-/
import Mathlib.Data.List.Forall2
import RustScript.Proofs.Emit.Sound

namespace RustScript

/-! ## Scopes that are alike -/

namespace Scopes

/-- What a name is resolved to in the layers. -/
def meaning (name : String) (ls : List Layer) : String := (lookup name ls).getD (Name.target name)

/-- Layer by layer the same targets are taken, and from each layer on outwards names mean the
    same. -/
inductive LayersAlike : List Layer → List Layer → Prop where
  | nil : LayersAlike [] []
  | cons {l k : Layer} {ls ks : List Layer} (taken : l.taken = k.taken)
      (means : ∀ name, meaning name (l :: ls) = meaning name (k :: ks))
      (outer : LayersAlike ls ks) : LayersAlike (l :: ls) (k :: ks)

/-- Scopes that emission cannot tell apart. -/
structure Alike (a b : Scopes) : Prop where
  layers : LayersAlike a.layers b.layers
  renames : a.renames = b.renames

theorem meaning_cons (name : String) (l : Layer) (ls : List Layer) :
    meaning name (l :: ls) = (l.bindings.lookup name).getD (meaning name ls) := by
  rw [meaning, lookup]
  split <;> next h => simp [h, meaning]

theorem LayersAlike.refl : ∀ ls : List Layer, LayersAlike ls ls
  | [] => .nil
  | _ :: ls => .cons rfl (fun _ => rfl) (refl ls)

theorem Alike.refl (a : Scopes) : Alike a a := ⟨.refl _, rfl⟩

/-- What a name gets next depends on which targets are taken, and on nothing else. -/
theorem fresh_of_taken {a b : Scopes} (h : a.taken = b.taken) (name : String) :
    a.fresh name = b.fresh name := by
  have hlive : a.isLive = b.isLive := funext fun t => by rw [isLive, isLive, h]
  have hfirst : ∀ (base : String) (n tries : Nat),
      a.firstFree base n tries = b.firstFree base n tries := by
    intro base n tries
    induction tries generalizing n with
    | zero => rfl
    | succ tries ih => rw [firstFree, firstFree, hlive, ih]
  rw [fresh, fresh, hlive, h, hfirst]

namespace Alike

variable {a b : Scopes}

section

variable (h : Alike a b)

include h

theorem resolve (name : String) : a.resolve name = b.resolve name := by
  cases h.layers with
  | cons _ means _ => exact means name

theorem taken : a.taken = b.taken := by
  have htaken : ∀ {ls ks : List Layer}, LayersAlike ls ks →
      ls.flatMap Layer.taken = ks.flatMap Layer.taken := by
    intro ls ks h
    induction h with
    | nil => rfl
    | cons taken _ _ ih => rw [List.flatMap_cons, List.flatMap_cons, taken, ih]
  exact htaken h.layers

theorem fresh (name : String) : a.fresh name = b.fresh name := fresh_of_taken h.taken name

theorem push : Alike a.push b.push :=
  ⟨.cons rfl (fun name => by rw [meaning_cons, meaning_cons]; exact h.resolve name) h.layers,
    h.renames⟩

theorem pop : Alike a.pop b.pop := by
  obtain ⟨ai, ao, ar⟩ := a
  obtain ⟨bi, bo, br⟩ := b
  obtain ⟨hlayers, hrenames⟩ := h
  cases hlayers with
  | cons taken means outer =>
    cases outer with
    | nil => exact ⟨.cons taken means .nil, hrenames⟩
    | cons taken' means' outer' => exact ⟨.cons taken' means' outer', hrenames⟩

theorem reserve (name : String) :
    (a.reserve name).1 = (b.reserve name).1 ∧ Alike (a.reserve name).2 (b.reserve name).2 := by
  refine ⟨h.fresh name, ?_, ?_⟩
  · cases h.layers with
    | cons taken means outer =>
      refine .cons ?_ (fun other => ?_) outer
      · exact congrArg₂ List.cons (h.fresh name) taken
      · have hmeans := means other
        simp only [meaning_cons] at hmeans ⊢
        exact hmeans
  · simp only [Scopes.reserve, h.fresh name, h.renames]

theorem bind (name target : String) : Alike (a.bind name target) (b.bind name target) := by
  refine ⟨?_, h.renames⟩
  cases h.layers with
  | cons taken means outer =>
    refine .cons (congrArg (target :: ·) taken) (fun other => ?_) outer
    have hmeans := means other
    simp only [meaning_cons, Scopes.bind, List.lookup_cons] at hmeans ⊢
    cases other == name
    · exact hmeans
    · rfl

theorem eq_of_layers (hlayers : a.layers = b.layers) : a = b := by
  obtain ⟨ai, ao, ar⟩ := a
  obtain ⟨bi, bo, br⟩ := b
  cases hlayers
  obtain rfl : ar = br := h.renames
  rfl

end

end Alike

/-- A relation of scopes that operations keep and that names cannot tell apart. -/
structure View (V : Scopes → Scopes → Prop) : Prop where
  resolve {a b : Scopes} : V a b → ∀ name, a.resolve name = b.resolve name
  push {a b : Scopes} : V a b → V a.push b.push
  pop {a b : Scopes} : V a b → V a.pop b.pop
  reserve {a b : Scopes} : V a b → ∀ name,
    (a.reserve name).1 = (b.reserve name).1 ∧ V (a.reserve name).2 (b.reserve name).2
  bind {a b : Scopes} : V a b → ∀ name target, V (a.bind name target) (b.bind name target)

namespace View

theorem alike : View Alike := ⟨Alike.resolve, Alike.push, Alike.pop, Alike.reserve, Alike.bind⟩

theorem eq : View Eq :=
  ⟨fun h _ => h ▸ rfl, fun h => h ▸ rfl, fun h => h ▸ rfl, fun h _ => h ▸ ⟨rfl, rfl⟩,
    fun h _ _ => h ▸ rfl⟩

variable {V : Scopes → Scopes → Prop} (view : View V) {a b : Scopes}

include view

theorem declare (h : V a b) (name : String) :
    (a.declare name).1 = (b.declare name).1 ∧ V (a.declare name).2 (b.declare name).2 := by
  obtain ⟨htarget, hscopes⟩ := view.reserve h name
  exact ⟨htarget, by simpa only [Scopes.declare, htarget] using view.bind hscopes name _⟩

theorem seed (h : V a b) (names : List String) :
    (a.seed names).1 = (b.seed names).1 ∧ V (a.seed names).2 (b.seed names).2 := by
  induction names generalizing a b with
  | nil => exact ⟨rfl, h⟩
  | cons name names ih =>
    obtain ⟨htarget, hscopes⟩ := view.declare h name
    obtain ⟨htargets, hrest⟩ := ih hscopes
    exact ⟨congrArg₂ List.cons htarget htargets, hrest⟩

end View

end Scopes

/-! ## States that are alike -/

/-- The same tail, or `p` on the one side and `q` on the other. -/
inductive TailsAlike (p q : Js.Tail) : Option Js.Tail → Option Js.Tail → Prop where
  | same (tail : Option Js.Tail) : TailsAlike p q tail tail
  | both : TailsAlike p q (some p) (some q)

/-- Targets that the same jumps go to. -/
structure JumpTarget.Alike (p q : Js.Tail) (a b : JumpTarget) : Prop where
  label : a.label = b.label
  tail : TailsAlike p q a.tail b.tail
  isBlock : a.isBlock = b.isBlock

/-- States that are the same, up to scopes that `V` relates and to the tails of jump targets. -/
structure State.Alike (V : Scopes → Scopes → Prop) (p q : Js.Tail) (s t : State) : Prop where
  scopes : V s.scopes t.scopes
  drawn : s.drawn = t.drawn
  frame : s.frame = t.frame
  callers : s.callers = t.callers
  targets : List.Forall₂ (JumpTarget.Alike p q) s.targets t.targets

theorem State.Alike.of_scopes {V : Scopes → Scopes → Prop} (p q : Js.Tail) {s : State}
    {scopes : Scopes} (h : V s.scopes scopes) : State.Alike V p q s { s with scopes } where
  scopes := h
  drawn := rfl
  frame := rfl
  callers := rfl
  targets := List.forall₂_same.mpr fun _ _ => ⟨rfl, .same _, rfl⟩

namespace State.Alike

variable {V : Scopes → Scopes → Prop} {p q p' q' : Js.Tail} {s t u v : State}

/-- Without a choice of scopes and tails the states are the same. -/
theorem eq (h : s.Alike Eq p p t) : s = t := by
  have htarget {a b : JumpTarget} (hab : JumpTarget.Alike p p a b) : a = b := by
    obtain ⟨label, tail, isBlock⟩ := a
    obtain ⟨label', tail', isBlock'⟩ := b
    obtain ⟨rfl : label = label', htail, rfl : isBlock = isBlock'⟩ := hab
    cases htail <;> rfl
  have htargets : s.targets = t.targets := List.forall₂_eq_eq_eq ▸ h.targets.imp fun _ _ => htarget
  obtain ⟨hscopes, hdrawn, hframe, hcallers, -⟩ := h
  cases s
  cases t
  cases hscopes
  cases hdrawn
  cases hframe
  cases hcallers
  cases htargets
  rfl

theorem enterTarget (h : s.Alike V p q t) {a b : JumpTarget} (hab : JumpTarget.Alike p q a b) :
    State.Alike V p q (s.enterTarget a) (t.enterTarget b) :=
  ⟨h.scopes, h.drawn, h.frame, h.callers, .cons hab h.targets⟩

theorem leaveTarget (h : s.Alike V p q t) : State.Alike V p q s.leaveTarget t.leaveTarget := by
  refine ⟨h.scopes, h.drawn, h.frame, h.callers, ?_⟩
  obtain ⟨-, -, -, -, htargets⟩ := h
  unfold State.leaveTarget
  cases hs : s.targets with
  | nil =>
    rw [hs, List.forall₂_nil_left_iff] at htargets
    rw [htargets]
    exact .nil
  | cons a as =>
    rw [hs] at htargets
    obtain ⟨b, bs, -, hrest, ht⟩ := List.forall₂_cons_left_iff.mp htargets
    rw [ht]
    exact hrest

/-- No jump leaves a function, so that the tails outside do not matter inside. -/
theorem enterFunction (h : s.Alike V p q t) (isAsync : Bool) :
    State.Alike V p' q' (s.enterFunction isAsync) (t.enterFunction isAsync) :=
  ⟨h.scopes, h.drawn, rfl, congrArg₂ List.cons h.frame h.callers, .nil⟩

theorem leaveFunction (h : u.Alike V p' q' v)
    (htargets : List.Forall₂ (JumpTarget.Alike p q) s.targets t.targets) :
    State.Alike V p q (u.leaveFunction s.targets) (v.leaveFunction t.targets) := by
  unfold State.leaveFunction
  rw [← h.callers]
  cases hu : u.callers with
  | nil => exact ⟨h.scopes, h.drawn, h.frame, rfl, htargets⟩
  | cons frame callers => exact ⟨h.scopes, h.drawn, rfl, rfl, htargets⟩

theorem enterValue (h : s.Alike V p q t) : State.Alike V p' q' s.enterValue t.enterValue :=
  ⟨h.scopes, h.drawn, by simp only [State.enterValue, h.frame], h.callers, .nil⟩

theorem leaveValue (h : u.Alike V p' q' v)
    (htargets : List.Forall₂ (JumpTarget.Alike p q) s.targets t.targets) :
    State.Alike V p q (u.leaveValue s.targets) (v.leaveValue t.targets) :=
  ⟨h.scopes, h.drawn, by simp only [State.leaveValue, h.frame], h.callers, htargets⟩

end State.Alike

namespace Emit

/-! ## Runs side by side -/

/-- What is asked of two runs besides that they do the same. -/
structure Tie where
  /-- They may fail with errors that are not reported. -/
  faults : Prop
  /-- The first one keeps its state. -/
  keeps : Prop
  places : Place → Place → Prop
  scopes : Scopes → Scopes → Prop
  tails : Js.Tail → Js.Tail → Prop
  alike {a b : Place} : places a b → a.Alike b
  view : Scopes.View scopes
  /-- Inside a function all values are returned. -/
  returns : tails .ret .ret

/-- The check holds, unless faults are allowed. -/
abbrev Tie.Allows (T : Tie) (check : Bool) : Prop := T.faults ∨ check = true

/-- Outcomes of two runs: the same error, or results that are related. -/
inductive Outcomes (R : State → State → Prop) {α β : Type} (Q : α → β → Prop) :
    Except Error α × State → Except Error β × State → Prop where
  | ok {a : α} {b : β} {s t : State} : Q a b → R s t → Outcomes R Q (.ok a, s) (.ok b, t)
  | error {e : Error} {s t : State} : R s t → Outcomes R Q (.error e, s) (.error e, t)

theorem Outcomes.imp {R R' : State → State → Prop} {α β : Type} {Q Q' : α → β → Prop}
    {x : Except Error α × State} {y : Except Error β × State} (h : Outcomes R Q x y)
    (hQ : ∀ a b, Q a b → Q' a b) (hR : ∀ s t, R s t → R' s t) : Outcomes R' Q' x y := by
  cases h with
  | ok hab hst => exact .ok (hQ _ _ hab) (hR _ _ hst)
  | error hst => exact .error (hR _ _ hst)

/-- From related places and states the two emissions fail alike or give related results, and end in
    related states. -/
def Paired (T : Tie) (R : State → State → Prop) (p q : Js.Tail) {α β : Type} (Q : α → β → Prop)
    (x : Emit α) (y : Emit β) : Prop :=
  ∀ a b s t, T.places a b → s.Alike T.scopes p q t →
    Outcomes (fun u v => u.Alike T.scopes p q v ∧ (T.keeps → R s u)) Q (x a s) (y b t) ∧
      Fails T.faults (x a s).1

/-- Paired emissions of which the first restores the innermost scope. -/
abbrev Twins (T : Tie) (p q : Js.Tail) {α β : Type} (Q : α → β → Prop) (x : Emit α) (y : Emit β) :
    Prop :=
  Paired T Restored p q Q x y

/-- Paired emissions of which the first keeps what lies around the innermost scope. -/
abbrev LooseTwins (T : Tie) (p q : Js.Tail) {α β : Type} (Q : α → β → Prop) (x : Emit α)
    (y : Emit β) : Prop :=
  Paired T Kept p q Q x y

namespace Paired

variable {T : Tie} {R : State → State → Prop} {p q : Js.Tail} {α β γ δ : Type} {Q : α → β → Prop}

/-! ## Steps that leave the state alone -/

theorem result [Std.Refl R] {g : Place → State → Except Error α}
    (hfails : ∀ a s, Fails T.faults (g a s))
    (h : ∀ a b s t, T.places a b → s.Alike T.scopes p q t → g a s = g b t) :
    Paired T R p q Eq (fun a s => (g a s, s)) fun a s => (g a s, s) := by
  intro a b s t hab hst
  refine ⟨?_, hfails a s⟩
  dsimp only
  rw [← h a b s t hab hst]
  cases g a s with
  | error e => exact .error ⟨hst, fun _ => Std.Refl.refl s⟩
  | ok a => exact .ok rfl ⟨hst, fun _ => Std.Refl.refl s⟩

theorem ofExcept [Std.Refl R] {result : Except Error α} (h : Fails T.faults result) :
    Paired T R p q Eq (ofExcept result) (ofExcept result) :=
  Paired.result (fun _ _ => h) fun _ _ _ _ _ _ => rfl

theorem pure [Std.Refl R] {a : α} {b : β} (h : Q a b) : Paired T R p q Q (pure a) (pure b) :=
  fun _ _ s _ _ hst => ⟨.ok h ⟨hst, fun _ => Std.Refl.refl s⟩, Fails.ok a⟩

theorem throw [Std.Refl R] {e : Error} (h : T.Allows e.isReported) :
    Paired T R p q Q (throw e) (throw e) :=
  fun _ _ s _ _ hst => ⟨.error ⟨hst, fun _ => Std.Refl.refl s⟩, Fails.error h⟩

theorem refuse [Std.Refl R] (cause : Refusal) : Paired T R p q Q (refuse cause) (refuse cause) :=
  throw (.inr rfl)

theorem ident [Std.Refl R] (name : String) : Paired T R p q Eq (ident name) (ident name) := by
  refine Paired.result (fun a s => ?_) fun a b s t hab hst => ?_
  · split
    · split
      · exact .error (.inr rfl)
      · exact .ok _
    · split
      · exact .ok _
      · exact .error (.inr rfl)
    · exact .ok _
    · exact .ok _
  · simp only [(T.alike hab).selfType, (T.alike hab).isStatic, T.view.resolve hst.scopes]

theorem typeName [Std.Refl R] (name : String) :
    Paired T R p q Eq (typeName name) (typeName name) := by
  unfold Emit.typeName
  split
  · exact ident _
  · exact pure rfl

/-! ## Steps in sequence -/

variable {x : Emit α} {y : Emit β} {Q' : γ → δ → Prop} {f : α → Emit γ} {g : α → Emit δ}

theorem mono {Q' : α → β → Prop} (h : Paired T R p q Q x y) (hQ : ∀ a b, Q a b → Q' a b) :
    Paired T R p q Q' x y :=
  fun a b s t hab hst => ⟨(h a b s t hab hst).1.imp hQ fun _ _ => id, (h a b s t hab hst).2⟩

theorem loose (h : Twins T p q Q x y) : LooseTwins T p q Q x y :=
  fun a b s t hab hst =>
    ⟨(h a b s t hab hst).1.imp (fun _ _ => id) fun _ _ huv => ⟨huv.1, fun hk => (huv.2 hk).toKept⟩,
      (h a b s t hab hst).2⟩

theorem bind [Trans R R R] {g : β → Emit δ} (h : Paired T R p q Q x y)
    (hfg : ∀ a b, Q a b → Paired T R p q Q' (f a) (g b)) :
    Paired T R p q Q' (x >>= f) (y >>= g) := by
  intro place place' s t hplace hst
  obtain ⟨hxy, hfails⟩ := h place place' s t hplace hst
  rcases hx : x place s with ⟨e | a, u⟩ <;> rcases hy : y place' t with ⟨e' | b, v⟩ <;>
    rw [hx, hy] at hxy
  · rw [bind_of_error hx, bind_of_error hy]
    cases hxy with
    | error huv => exact ⟨.error huv, Fails.error (hfails e (by rw [hx]))⟩
  · cases hxy
  · cases hxy
  · rw [bind_of_ok hx, bind_of_ok hy]
    cases hxy with
    | ok hab huv =>
      obtain ⟨hnext, hfails⟩ := hfg a b hab place place' u v hplace huv.1
      refine ⟨hnext.imp (fun _ _ => id) fun _ _ hwz => ⟨hwz.1, fun hk => ?_⟩, hfails⟩
      exact Trans.trans (huv.2 hk) (hwz.2 hk)

theorem bindEq [Trans R R R] {y : Emit α} (h : Paired T R p q Eq x y)
    (hfg : ∀ a, Paired T R p q Q' (f a) (g a)) : Paired T R p q Q' (x >>= f) (y >>= g) :=
  h.bind fun a _ hab => hab ▸ hfg a

theorem ofExceptBind [Std.Refl R] {result : Except Error α} (hfails : Fails T.faults result)
    (h : ∀ a, result = .ok a → Paired T R p q Q' (f a) (g a)) :
    Paired T R p q Q' (Emit.ofExcept result >>= f) (Emit.ofExcept result >>= g) := by
  cases result with
  | error e => exact throw (hfails e rfl)
  | ok a => exact h a rfl

theorem andReturn [Std.Refl R] [Trans R R R] {f : α → γ} {g : β → δ} (h : Paired T R p q Q x y)
    (hfg : ∀ a b, Q a b → Q' (f a) (g b)) :
    Paired T R p q Q' (do return f (← x)) (do return g (← y)) :=
  h.bind fun a b hab => pure (hfg a b hab)

theorem andReturnEq [Std.Refl R] [Trans R R R] {y : Emit α} (h : Paired T R p q Eq x y)
    (f : α → γ) : Paired T R p q Eq (do return f (← x)) (do return f (← y)) :=
  h.andReturn fun _ _ hab => congrArg f hab

theorem readBind {f : Place → Emit α} {g : Place → Emit β}
    (h : ∀ a b, a.Alike b → Paired T R p q Q (f a) (g b)) :
    Paired T R p q Q (read >>= f) (read >>= g) :=
  fun a b s t hab hst => h a b (T.alike hab) a b s t hab hst

theorem getBind {f : State → Emit α} {g : State → Emit β}
    (h : ∀ s t, s.Alike T.scopes p q t → Paired T R p q Q (f s) (g t)) :
    Paired T R p q Q (get >>= f) (get >>= g) :=
  fun a b s t hab hst => h s t hst a b s t hab hst

end Paired

namespace Twins

variable {T : Tie} {p q : Js.Tail} {α β : Type} {Q : α → β → Prop} {x : Emit α} {y : Emit β}
  {p' q' : Js.Tail}

/-! ## Names and temporaries -/

theorem fresh {stem : String} (known : stem ∈ stems) :
    Twins T p q Eq (fresh stem) (fresh stem) := by
  intro a _ s t _ hst
  have hname : temporary stem s.temps = temporary stem t.temps := by
    rw [State.temps, hst.drawn, State.temps]
  exact ⟨.ok hname ⟨{ hst with drawn := congrArg₂ List.cons hname hst.drawn },
    fun _ => restores_fresh known a s⟩, Fails.ok _⟩

theorem declare (name : String) : LooseTwins T p q Eq (declare name) (declare name) := by
  intro a _ s _ _ hst
  obtain ⟨htarget, hscopes⟩ := T.view.declare hst.scopes name
  exact ⟨.ok htarget ⟨{ hst with scopes := hscopes }, fun _ => keeps_declare name a s⟩, Fails.ok _⟩

theorem seed (names : List String) : LooseTwins T p q Eq (seed names) (seed names) := by
  intro a _ s _ _ hst
  obtain ⟨htargets, hscopes⟩ := T.view.seed hst.scopes names
  exact ⟨.ok htargets ⟨{ hst with scopes := hscopes }, fun _ => keeps_seed names a s⟩, Fails.ok _⟩

theorem reserve (name : String) : LooseTwins T p q Eq (reserve name) (reserve name) := by
  intro a _ s _ _ hst
  obtain ⟨htarget, hscopes⟩ := T.view.reserve hst.scopes name
  exact ⟨.ok htarget ⟨{ hst with scopes := hscopes }, fun _ => keeps_reserve name a s⟩, Fails.ok _⟩

theorem bindName (name target : String) :
    LooseTwins T p q Eq (bindName name target) (bindName name target) :=
  fun a _ s _ _ hst => ⟨.ok rfl ⟨{ hst with scopes := T.view.bind hst.scopes name target },
    fun _ => keeps_bindName name target a s⟩, Fails.ok _⟩

theorem markTry : Twins T p q Eq
    (modify fun state => { state with frame := { state.frame with usesTry := true } })
    (modify fun state => { state with frame := { state.frame with usesTry := true } }) :=
  fun a _ s _ _ hst => ⟨.ok rfl ⟨{ hst with frame := by simp only [hst.frame] },
    fun _ => restores_markTry a s⟩, Fails.ok _⟩

/-! ## Brackets -/

theorem inScope (h : LooseTwins T p q Q x y) : Twins T p q Q (inScope x) (inScope y) := by
  intro a b s t hab hst
  have hpush : State.Alike T.scopes p q { s with scopes := s.scopes.push }
      { t with scopes := t.scopes.push } :=
    { hst with scopes := T.view.push hst.scopes }
  obtain ⟨hxy, hfails⟩ := h a b _ _ hab hpush
  refine ⟨?_, hfails⟩
  unfold Emit.inScope
  generalize x a { s with scopes := s.scopes.push } = r at hxy
  generalize y b { t with scopes := t.scopes.push } = r' at hxy
  have hleave {u v : State} (huv : u.Alike T.scopes p q v) :
      State.Alike T.scopes p q { u with scopes := u.scopes.pop } { v with scopes := v.scopes.pop } :=
    { huv with scopes := T.view.pop huv.scopes }
  cases hxy with
  | ok hQ huv => exact .ok hQ ⟨hleave huv.1, fun hk => (huv.2 hk).closeScope⟩
  | error huv => exact .error ⟨hleave huv.1, fun hk => (huv.2 hk).closeScope⟩

theorem inTarget {target target' : JumpTarget} (htarget : JumpTarget.Alike p q target target')
    (h : Twins T p q Q x y) : Twins T p q Q (inTarget target x) (inTarget target' y) := by
  intro a b s t hab hst
  obtain ⟨hxy, hfails⟩ := h a b _ _ hab (hst.enterTarget htarget)
  refine ⟨?_, hfails⟩
  unfold Emit.inTarget
  generalize x a (s.enterTarget target) = r at hxy
  generalize y b (t.enterTarget target') = r' at hxy
  cases hxy with
  | ok hQ huv => exact .ok hQ ⟨huv.1.leaveTarget, fun hk => (huv.2 hk).leaveTarget⟩
  | error huv => exact .error ⟨huv.1.leaveTarget, fun hk => (huv.2 hk).leaveTarget⟩

theorem inFunction {x y : Emit α} (h : Twins T p' q' Eq x y) (isAsync : Bool) :
    Twins T p q Eq (inFunction isAsync x) (inFunction isAsync y) := by
  intro a b s t hab hst
  obtain ⟨hxy, hfails⟩ := h a b _ _ hab (hst.enterFunction isAsync)
  refine ⟨?_, hfails.map _⟩
  unfold Emit.inFunction
  generalize x a (s.enterFunction isAsync) = r at hxy
  generalize y b (t.enterFunction isAsync) = r' at hxy
  cases hxy with
  | ok hQ huv =>
    exact .ok (by rw [hQ, huv.1.frame])
      ⟨huv.1.leaveFunction hst.targets, fun hk => (huv.2 hk).leaveFunction⟩
  | error huv => exact .error ⟨huv.1.leaveFunction hst.targets, fun hk => (huv.2 hk).leaveFunction⟩

theorem asValue {x y : Emit (List Js.Stmt)} (h : Twins T p' q' Eq x y) :
    Twins T p q Eq (asValue x) (asValue y) := by
  intro a b s t hab hst
  obtain ⟨hxy, hfails⟩ := h a b _ _ hab hst.enterValue
  refine ⟨?_, hfails.map _⟩
  unfold Emit.asValue
  generalize x a s.enterValue = r at hxy
  generalize y b t.enterValue = r' at hxy
  cases hxy with
  | ok hQ huv =>
    exact .ok (by rw [hQ, hst.frame])
      ⟨huv.1.leaveValue hst.targets, fun hk => (huv.2 hk).leaveValue⟩
  | error huv => exact .error ⟨huv.1.leaveValue hst.targets, fun hk => (huv.2 hk).leaveValue⟩

end Twins

end Emit

end RustScript
