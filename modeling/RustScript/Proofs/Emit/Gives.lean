/-
  What emissions give.

  `Gives P here tries x Q` is the rule that all emissions are proved by: what a run of `x` that
  succeeds does to the state, and what its result is like at every site that fits the state at its
  end. A site fits a state if the handlers, loops, labels and functions are there that the state
  counts on.
-/
import RustScript.Proofs.Layout.Plain

namespace RustScript

open Js (Policy Around Site)
open Layout (Neutral isPlainText isPlainText_append)

/-! ## Names under a policy -/

/-- The text is plain if it has to be neutral. -/
def Js.Policy.Plain (P : Policy) (text : String) : Prop := P.neutral → isPlainText text = true

/-- The rules that the source can break. -/
def Js.Policy.Asks (P : Policy) : Prop := P.neutral ∨ P.jumps ∨ P.awaits

/-- The check holds, unless the source can break no rule. -/
abbrev Js.Policy.Lets (P : Policy) (check : Bool) : Prop := P.Asks → check = true

theorem lets_and {P : Policy} {a b : Bool} : P.Lets (a && b) ↔ P.Lets a ∧ P.Lets b := by
  simp only [Js.Policy.Lets, Bool.and_eq_true, imp_and]

/-- The law asks all that the policy needs to know of a tree. -/
structure Law.Serves (law : Law) (P : Policy) : Prop where
  name : P.neutral → ∀ name, law.name name = true → isPlainText name = true
  label : P.neutral → ∀ label, law.label label = true → isPlainText (labelName label) = true
  jump : P.neutral → ∀ label, law.jump label = true → isPlainText (labelName label) = true
  written : P.jumps → ∀ label, law.jump label = true → labelName label ≠ ""
  cast : P.neutral → ∀ ty, law.cast ty = true →
    Neutral ("/* as " ++ Text.strip ty ++ " */").toList
  sum : P.neutral → ∀ row, law.sum row = true → Js.joinsSafely row = true
  await : P.awaits → ∀ mode, law.await mode = true → mode = .async
  control : P.awaits → law.control .helper = false

/-- The type of the impl block is one that the law calls own. -/
def Law.Knows (law : Law) (place : Place) : Prop :=
  ∀ name, name = "Self" ∨ place.selfType = some name → law.own name = true

namespace Js.Policy

variable {P : Policy}

theorem Plain.text {text : String} (h : P.Plain text) : P.Text text :=
  fun hP => .of_plainText (h hP)

theorem Plain.target {name : String} (h : P.Plain name) : P.Plain (Name.target name) :=
  fun hP => Name.isPlainText_target (h hP)

end Js.Policy

/-! ## States -/

/-- Where code is emitted, and whether something can be awaited there. -/
structure Setting where
  place : Place
  mode : Mode

/-- The setting inside a function that helps the code around it. -/
def Setting.inHelper (here : Setting) : Setting := { here with mode := here.mode.inHelper }

/-- All targets that names have are fit to be written. -/
def Scopes.Fit (P : Policy) (s : Scopes) : Prop :=
  ∀ layer ∈ s.layers, ∀ entry ∈ layer.bindings, P.Plain entry.2

/-- The names that can get into the code from the place and the state are fit to be written, and
    the function is of the kind that the mode says. -/
structure Ready (P : Policy) (here : Setting) (s : State) : Prop where
  selfType : ∀ type ∈ here.place.selfType, P.Plain type
  scopes : s.scopes.Fit P
  tails : ∀ target ∈ s.targets, ∀ tail ∈ target.tail, P.Text tail.lead
  isAsync : s.frame.isAsync = here.mode.isAsync

/-- Where texts need not be neutral, any names will do. -/
theorem Ready.of_not_neutral {P : Policy} (h : ¬P.neutral) (place : Place) (s : State) :
    Ready P ⟨place, .body s.frame.isAsync⟩ s :=
  ⟨fun _ _ hP => absurd hP h, fun _ _ _ _ hP => absurd hP h, fun _ _ _ _ hP => absurd hP h,
    (Mode.isAsync_body _).symm⟩

/-- What an emission does to frames and targets that marks the use of `?` or does not. -/
structure Follows (tries : Bool) (s t : State) : Prop where
  targets : t.targets = s.targets
  callers : t.callers = s.callers
  frame : t.frame = { s.frame with usesTry := s.frame.usesTry || tries }

/-- What the state counts on is there. -/
structure Fits (here : Setting) (s : State) (site : Site) : Prop where
  caught : s.frame.usesTry = true → site.caught = true
  inLoop : ∀ target ∈ s.targets, target.isBlock = false → site.inLoop = true
  labels : ∀ target ∈ s.targets, ∀ label ∈ target.label, label ≠ "" →
    labelName label ∈ site.labels
  inValue : site.inValue = true → s.frame.valueDepth ≠ 0
  isAsync : here.mode = .async → site.isAsync = true

variable {here : Setting}

theorem Follows.refl (s : State) : Follows false s s := ⟨rfl, rfl, by simp⟩

variable {a : Bool} {s t : State} {site : Site}

theorem Follows.trans {b : Bool} {u : State} (h : Follows a s t) (k : Follows b t u) :
    Follows (a || b) s u :=
  ⟨k.targets.trans h.targets, k.callers.trans h.callers, by rw [k.frame, h.frame, Bool.or_assoc]⟩

theorem Follows.valueDepth (h : Follows a s t) : t.frame.valueDepth = s.frame.valueDepth := by
  rw [h.frame]

theorem Fits.of_follows (h : Fits here t site) (k : Follows a s t) : Fits here s site where
  caught used := h.caught (by rw [k.frame, used, Bool.true_or])
  inLoop := by
    rw [← k.targets]
    exact h.inLoop
  labels := by
    rw [← k.targets]
    exact h.labels
  inValue used := by
    rw [← k.valueDepth]
    exact h.inValue used
  isAsync := h.isAsync

theorem Fits.inner (h : Fits here s site) : Fits here s site.inner :=
  ⟨h.caught, h.inLoop, h.labels, h.inValue, h.isAsync⟩

theorem Fits.labelled (h : Fits here s site) (label : Option String) :
    Fits here s (site.labelled label) :=
  ⟨h.caught, h.inLoop, fun target htarget name hname hne =>
    List.mem_append_right _ (h.labels target htarget name hname hne), h.inValue, h.isAsync⟩

theorem exists_fits (here : Setting) (s : State) : ∃ site, Fits here s site := by
  refine ⟨{ caught := true, isAsync := true, inLoop := true,
            labels := s.targets.flatMap fun t => t.label.toList.map labelName }, ?_⟩
  refine ⟨fun _ => rfl, fun _ _ _ => rfl, fun target htarget label hlabel _ => ?_,
    (nofun), fun _ => rfl⟩
  exact List.mem_flatMap.mpr ⟨target, htarget, List.mem_map.mpr ⟨label, by simpa using hlabel, rfl⟩⟩

namespace Scopes.Fit

variable {P : Policy} {s : Scopes} {name target : String}

theorem push (h : s.Fit P) : s.push.Fit P := by
  rintro layer (_ | ⟨_, hlayer⟩)
  · intro entry hentry
    cases hentry
  · exact h layer hlayer

theorem pop (h : s.Fit P) : s.pop.Fit P := by
  unfold Scopes.pop Scopes.pop?
  split
  · exact h
  · next l ls houter =>
    intro layer hlayer
    refine h layer (List.mem_cons_of_mem _ ?_)
    rw [houter]
    exact hlayer

theorem reserve (h : s.Fit P) (name : String) : (s.reserve name).2.Fit P := by
  rintro layer (_ | ⟨_, hlayer⟩)
  · exact h s.inner List.mem_cons_self
  · exact h layer (List.mem_cons_of_mem _ hlayer)

theorem bind (h : s.Fit P) (htarget : P.Plain target) : (s.bind name target).Fit P := by
  rintro layer (_ | ⟨_, hlayer⟩)
  · rintro entry (_ | ⟨_, hentry⟩)
    · exact htarget
    · exact h s.inner List.mem_cons_self entry hentry
  · exact h layer (List.mem_cons_of_mem _ hlayer)

theorem plain_reserve (s : Scopes) (hname : P.Plain name) : P.Plain (s.reserve name).1 :=
  fun hP => s.isPlainText_fresh (hname hP)

theorem declare (h : s.Fit P) (hname : P.Plain name) : (s.declare name).2.Fit P :=
  (h.reserve name).bind (plain_reserve s hname)

theorem seed (h : s.Fit P) {names : List String} (hnames : ∀ name ∈ names, P.Plain name) :
    (∀ target ∈ (s.seed names).1, P.Plain target) ∧ (s.seed names).2.Fit P := by
  induction names generalizing s with
  | nil => exact ⟨by simp [Scopes.seed], h⟩
  | cons name names ih =>
    have hname := hnames name List.mem_cons_self
    have hrest := ih (h.declare hname) fun n hn => hnames n (List.mem_cons_of_mem name hn)
    refine ⟨?_, hrest.2⟩
    rintro target (_ | ⟨_, htarget⟩)
    · exact plain_reserve s hname
    · exact hrest.1 target htarget

theorem lookup {layers : List Layer}
    (h : ∀ layer ∈ layers, ∀ entry ∈ layer.bindings, P.Plain entry.2)
    (hfound : Scopes.lookup name layers = some target) : P.Plain target := by
  induction layers with
  | nil => cases hfound
  | cons layer layers ih =>
    rw [Scopes.lookup] at hfound
    split at hfound
    · next found hbound =>
      cases hfound
      obtain ⟨before, after, hlist, -⟩ := List.lookup_eq_some_iff.mp hbound
      refine h layer List.mem_cons_self (name, target) ?_
      rw [hlist]
      exact List.mem_append_right _ List.mem_cons_self
    · exact ih (fun l hl => h l (List.mem_cons_of_mem layer hl)) hfound

theorem resolve (h : s.Fit P) (hname : P.Plain name) : P.Plain (s.resolve name) := by
  unfold Scopes.resolve
  cases hfound : Scopes.lookup name s.layers with
  | none => exact hname.target
  | some target => exact lookup h hfound

end Scopes.Fit

/-! ## Emissions -/

/-- What holds of every run of the emission at the place that succeeds. -/
structure Emit.Gives (P : Policy) (here : Setting) (tries : Bool) {α : Type} (x : Emit α)
    (Q : Site → α → Prop) : Prop where
  run : ∀ s a t, Ready P here s → x here.place s = (.ok a, t) →
    Ready P here t ∧ Follows tries s t ∧ ∀ site, Fits here t site → Q site a

/-- What the code of a value gives: code that keeps the rules. -/
abbrev Emit.GivesValue (P : Policy) (here : Setting) (tries : Bool) (x : Emit Js.Expr) : Prop :=
  Gives P here tries x fun site code => code.Obeys P site.toAround

/-- What statements give: statements that keep the rules. -/
abbrev Emit.GivesLines (P : Policy) (here : Setting) (tries : Bool) (x : Emit (List Js.Stmt)) :
    Prop :=
  Gives P here tries x (Js.blockObeys P)

theorem Emit.exists_run {α : Type} {x : Emit α} {place : Place} {Q : α → Prop}
    (h : ∀ a t, x place s = (.ok a, t) → Q a) (hok : (x place s).1.toBool = true) :
    ∃ a t, x place s = (.ok a, t) ∧ Q a := by
  rcases hrun : x place s with ⟨_ | a, t⟩
  · rw [hrun] at hok
    cases hok
  · exact ⟨a, t, rfl, h a t hrun⟩

namespace Emit.Gives

variable {P : Policy} {here : Setting} {tries tries' : Bool} {α β : Type}
  {Q Q' : Site → α → Prop} {R : Site → β → Prop}

variable {x : Emit α} {F : α → Prop} {f : α → Emit β} {name : String}

theorem mono (h : Gives P here tries x Q) (hQ : ∀ site a, Q site a → Q' site a) :
    Gives P here tries x Q' := by
  refine ⟨fun s a t hs hrun => ?_⟩
  obtain ⟨hready, hfollows, hgives⟩ := h.run s a t hs hrun
  exact ⟨hready, hfollows, fun site hsite => hQ site a (hgives site hsite)⟩

/-- What holds at every site that fits holds at a site inside one, as long as nothing is taken away
    there that the state counts on. -/
theorem within (h : Gives P here tries x Q) (inside : Site → Site)
    (hinside : ∀ s site, Fits here s site → Fits here s (inside site)) :
    Gives P here tries x fun site a => Q (inside site) a := by
  refine ⟨fun s a t hs hrun => ?_⟩
  obtain ⟨hready, hfollows, hgives⟩ := h.run s a t hs hrun
  exact ⟨hready, hfollows, fun site hsite => hgives _ (hinside t site hsite)⟩

theorem inHelper (h : Gives P here.inHelper tries x Q) :
    Gives P here tries x fun site a => ∀ isAsync, Q { site with isAsync } a := by
  have hmode : here.inHelper.mode.isAsync = here.mode.isAsync := Mode.isAsync_inHelper here.mode
  refine ⟨fun s a t hs hrun => ?_⟩
  have hstart : Ready P here.inHelper s :=
    ⟨hs.selfType, hs.scopes, hs.tails, hs.isAsync.trans hmode.symm⟩
  obtain ⟨hready, hfollows, hgives⟩ := h.run s a t hstart hrun
  refine ⟨⟨hready.selfType, hready.scopes, hready.tails, hready.isAsync.trans hmode⟩, hfollows, ?_⟩
  refine fun site hsite isAsync =>
    hgives _ ⟨hsite.caught, hsite.inLoop, hsite.labels, hsite.inValue, fun hasync => ?_⟩
  cases hm : here.mode <;> simp [Setting.inHelper, Mode.inHelper, hm] at hasync

theorem whereAsync (h : Gives P here tries x Q) :
    Gives P here tries x fun site a => (here.mode = .async → site.isAsync = true) ∧ Q site a := by
  refine ⟨fun s a t hs hrun => ?_⟩
  obtain ⟨hready, hfollows, hgives⟩ := h.run s a t hs hrun
  exact ⟨hready, hfollows, fun site hsite => ⟨hsite.isAsync, hgives site hsite⟩⟩

theorem fact (h : Gives P here tries x fun _ a => F a) {a : α} (hs : Ready P here s)
    (hrun : x here.place s = (.ok a, t)) : F a := by
  obtain ⟨-, -, hF⟩ := h.run s a t hs hrun
  obtain ⟨site, hsite⟩ := exists_fits here t
  exact hF site hsite

/-! ## Steps that leave the state alone -/

theorem result {g : Place → State → Except Error α}
    (h : ∀ s a, Ready P here s → g here.place s = .ok a → ∀ site, Fits here s site → Q site a) :
    Gives P here false (fun p s => (g p s, s)) Q := by
  refine ⟨fun s a t hs hrun => ?_⟩
  obtain ⟨hok, rfl⟩ := Prod.mk.inj hrun
  exact ⟨hs, Follows.refl s, h s a hs hok⟩

theorem ofExcept {result : Except Error α} (h : ∀ a, result = .ok a → ∀ site, Q site a) :
    Gives P here false (ofExcept result) Q :=
  Gives.result fun _ a _ hok site _ => h a hok site

theorem pure {a : α} (h : ∀ site, Q site a) : Gives P here false (pure a : Emit α) Q :=
  ofExcept fun b hb site => by
    cases hb
    exact h site

theorem throw (e : Error) : Gives P here tries (throw e : Emit α) Q :=
  ⟨fun _ _ _ _ hrun => by cases hrun⟩

theorem refuse (cause : Refusal) : Gives P here tries (refuse cause : Emit α) Q := throw _

/-! ## Steps in sequence -/

theorem bindWith (hx : Gives P here tries x Q) (hF : ∀ site a, Q site a → F a)
    (hf : ∀ a, F a → Gives P here tries' (f a) fun site b => Q site a → R site b) :
    Gives P here (tries || tries') (x >>= f) R := by
  refine ⟨fun s b u hs hrun => ?_⟩
  obtain ⟨a, t, hxa, hfb⟩ := exists_of_bind hrun
  obtain ⟨ht, hst, hQ⟩ := hx.run s a t hs hxa
  obtain ⟨site, hsite⟩ := exists_fits here t
  obtain ⟨hu, htu, hR⟩ := (hf a (hF site a (hQ site hsite))).run t b u ht hfb
  exact ⟨hu, hst.trans htu, fun site hsite => hR site hsite (hQ site (hsite.of_follows htu))⟩

theorem bind (hx : Gives P here tries x Q)
    (hf : ∀ a, Gives P here tries' (f a) fun site b => Q site a → R site b) :
    Gives P here (tries || tries') (x >>= f) R :=
  hx.bindWith (F := fun _ => True) (fun _ _ _ => trivial) fun a _ => hf a

theorem bindFact (hx : Gives P here tries x fun _ a => F a)
    (hf : ∀ a, F a → Gives P here tries' (f a) R) : Gives P here (tries || tries') (x >>= f) R :=
  hx.bindWith (fun _ _ h => h) fun a ha => (hf a ha).mono fun _ _ h _ => h

theorem map (hx : Gives P here tries x Q) {f : α → β} (hf : ∀ site a, Q site a → R site (f a)) :
    Gives P here tries (do return f (← x)) R := by
  have h : Gives P here (tries || false) (x >>= fun a => Pure.pure (f a)) R :=
    hx.bind fun a => pure fun site hQ => hf site a hQ
  rwa [Bool.or_false] at h

theorem ofExceptBind {result : Except Error α}
    (hf : ∀ a, result = .ok a → Gives P here tries (f a) R) :
    Gives P here tries (Emit.ofExcept result >>= f) R :=
  (ofExcept (Q := fun _ a => result = .ok a) fun _ ha _ => ha).bindFact hf

theorem readBind {f : Place → Emit α} (hf : Gives P here tries (f here.place) Q) :
    Gives P here tries (read >>= f) Q :=
  ⟨fun s a t hs hrun => hf.run s a t hs hrun⟩

theorem congr (h : Gives P here tries x Q) (heq : tries = tries') : Gives P here tries' x Q :=
  heq ▸ h

/-! ## Names and temporaries -/

theorem ofScopes (h : ∀ s a t, s.scopes.Fit P → x here.place s = (.ok a, t) →
    t.scopes.Fit P ∧ t = { s with scopes := t.scopes, drawn := t.drawn } ∧ ∀ site, Q site a) :
    Gives P here false x Q := by
  refine ⟨fun s a t hs hrun => ?_⟩
  obtain ⟨hscopes, ht, hQ⟩ := h s a t hs.scopes hrun
  rw [ht]
  exact ⟨⟨hs.selfType, hscopes, hs.tails, hs.isAsync⟩, ⟨rfl, rfl, by rw [Bool.or_false]⟩,
    fun site _ => hQ site⟩

theorem fresh (stem : String) (hstem : isPlainText stem = true) :
    Gives P here false (fresh stem) fun _ name => P.Plain name := by
  refine ofScopes fun s a t hs hrun => ?_
  cases hrun
  refine ⟨hs, rfl, fun _ _ => ?_⟩
  rw [temporary, isPlainText_append, isPlainText_append, hstem, isPlainText_toString]
  decide

theorem declare (hname : P.Plain name) :
    Gives P here false (declare name) fun _ target => P.Plain target := by
  refine ofScopes fun s a t hs hrun => ?_
  cases hrun
  exact ⟨hs.declare hname, rfl, fun _ => Scopes.Fit.plain_reserve s.scopes hname⟩

theorem seed {names : List String} (hnames : ∀ name ∈ names, P.Plain name) :
    Gives P here false (seed names) fun _ targets => ∀ target ∈ targets, P.Plain target := by
  refine ofScopes fun s a t hs hrun => ?_
  cases hrun
  exact ⟨(hs.seed hnames).2, rfl, fun _ => (hs.seed hnames).1⟩

theorem reserve (hname : P.Plain name) :
    Gives P here false (reserve name) fun _ target => P.Plain target := by
  refine ofScopes fun s a t hs hrun => ?_
  cases hrun
  exact ⟨hs.reserve name, rfl, fun _ => Scopes.Fit.plain_reserve s.scopes hname⟩

theorem bindName (name : String) {target : String} (htarget : P.Plain target) :
    Gives P here false (bindName name target) fun _ _ => True := by
  refine ofScopes fun s a t hs hrun => ?_
  cases hrun
  exact ⟨hs.bind htarget, rfl, fun _ => trivial⟩

theorem ident (hname : P.Plain name) :
    Gives P here false (ident name) fun _ text => P.Plain text := by
  refine Gives.result fun s a hs hok _ _ => ?_
  split at hok
  · split at hok
    · cases hok
    · cases hok
      exact fun _ => by decide
  · split at hok
    · next type htype =>
      cases hok
      exact hs.selfType _ htype
    · cases hok
  · cases hok
    exact fun _ => by decide
  · cases hok
    exact hs.scopes.resolve hname

/-- A type is written as it is named, unless the name stands for the type that methods belong
    to. -/
theorem typeName (hname : P.Plain name) :
    Gives P here false (typeName name) fun _ text =>
      P.Plain text ∧ (name = "Self" ∨ text = name) := by
  unfold Emit.typeName
  split
  · next hself =>
    have hplain : P.Plain "Self" := fun _ => by decide
    exact (ident hplain).mono fun _ _ htext => ⟨htext, .inl (by simpa using hself)⟩
  · exact pure fun _ => ⟨hname, .inr rfl⟩

/-! ## Brackets -/

theorem inScope (h : Gives P here tries x Q) : Gives P here tries (inScope x) Q := by
  refine ⟨fun s a t hs hrun => ?_⟩
  rcases hx : x here.place { s with scopes := s.scopes.push } with ⟨result, after⟩
  simp only [Emit.inScope, hx] at hrun
  cases hrun
  have hstart : Ready P here { s with scopes := s.scopes.push } :=
    ⟨hs.selfType, hs.scopes.push, hs.tails, hs.isAsync⟩
  obtain ⟨hready, hfollows, hQ⟩ := h.run _ a after hstart hx
  refine ⟨⟨hready.selfType, hready.scopes.pop, hready.tails, hready.isAsync⟩,
    ⟨hfollows.targets, hfollows.callers, hfollows.frame⟩, fun site hsite => hQ site ?_⟩
  exact ⟨hsite.caught, hsite.inLoop, hsite.labels, hsite.inValue, hsite.isAsync⟩

/-- The body of a function starts afresh: it has its own mark for `?`, and no jump leaves it. -/
theorem inFunction {isAsync : Bool} (h : Gives P { here with mode := .body isAsync } tries x Q) :
    Gives P here false (inFunction isAsync x) fun _ result =>
      result.2 = tries ∧ ∀ site : Site, (tries = true → site.caught = true) →
        site.inValue = false → site.isAsync = isAsync → Q site result.1 := by
  refine ⟨fun s a t hs hrun => ?_⟩
  rcases hx : x here.place (s.enterFunction isAsync) with ⟨result, after⟩
  simp only [Emit.inFunction, hx] at hrun
  cases result with
  | error e => cases hrun
  | ok value =>
    have hstart : Ready P { here with mode := .body isAsync } (s.enterFunction isAsync) :=
      ⟨hs.selfType, hs.scopes, fun _ htarget => absurd htarget List.not_mem_nil,
        (Mode.isAsync_body isAsync).symm⟩
    obtain ⟨hready, hfollows, hQ⟩ := h.run _ value after hstart hx
    obtain ⟨ha, rfl⟩ := Prod.mk.inj hrun
    cases ha
    have hcallers : after.callers = s.frame :: s.callers := hfollows.callers
    have htargets : after.targets = [] := hfollows.targets
    have hframe : after.frame = { isAsync, usesTry := tries } := hfollows.frame
    have hleave : after.leaveFunction s.targets =
        { after with frame := s.frame, callers := s.callers, targets := s.targets } := by
      simp [State.leaveFunction, hcallers]
    rw [hleave]
    refine ⟨⟨hs.selfType, hready.scopes, hs.tails, hs.isAsync⟩, ⟨rfl, rfl, by rw [Bool.or_false]⟩,
      fun _ _ => ⟨by rw [hframe], fun site hcaught hvalue hasync => hQ site ?_⟩⟩
    have hoff : site.inValue ≠ true := by rw [hvalue]; exact Bool.false_ne_true
    refine ⟨by rw [hframe]; exact hcaught, ?_, ?_, fun h => absurd h hoff, ?_⟩
    rotate_left 2
    · intro (hmode : Mode.body isAsync = .async)
      rw [hasync, ← Mode.isAsync_body isAsync, hmode]
      rfl
    all_goals
      · rw [htargets]
        intro target htarget
        cases htarget

/-- Inside a target the code stands where a jump can reach what carries the target's label. -/
theorem inTarget (h : Gives P here tries x Q) (target : JumpTarget)
    (htail : ∀ tail ∈ target.tail, P.Text tail.lead) :
    Gives P here tries (inTarget target x) fun site a => ∀ inner : Site,
      inner.toAround = site.toAround → inner.inValue = site.inValue →
      (target.isBlock = false ∨ site.inLoop = true → inner.inLoop = true) →
      (∀ label ∈ target.label, label ≠ "" → labelName label ∈ inner.labels) →
      site.labels ⊆ inner.labels → Q inner a := by
  refine ⟨fun s a t hs hrun => ?_⟩
  rcases hx : x here.place (s.enterTarget target) with ⟨result, after⟩
  simp only [Emit.inTarget, hx] at hrun
  cases hrun
  have hstart : Ready P here (s.enterTarget target) := ⟨hs.selfType, hs.scopes, by
    rintro other (_ | ⟨_, hother⟩)
    · exact htail
    · exact hs.tails other hother, hs.isAsync⟩
  obtain ⟨hready, hfollows, hQ⟩ := h.run _ a after hstart hx
  have htargets : after.targets = target :: s.targets := hfollows.targets
  have hleave : after.leaveTarget = { after with targets := s.targets } := by
    simp [State.leaveTarget, htargets]
  rw [hleave]
  refine ⟨⟨hs.selfType, hready.scopes, hs.tails, hready.isAsync⟩,
    ⟨rfl, hfollows.callers, hfollows.frame⟩, ?_⟩
  intro site hsite inner haround hvalue hloop hlabel hlabels
  refine hQ inner ⟨?_, ?_, ?_, ?_, ?_⟩
  · rw [haround]
    exact hsite.caught
  · rw [htargets]
    rintro other (_ | ⟨_, hother⟩) hblock
    · exact hloop (.inl hblock)
    · exact hloop (.inr (hsite.inLoop other hother hblock))
  · rw [htargets]
    rintro other (_ | ⟨_, hother⟩) label hmem hne
    · exact hlabel label hmem hne
    · exact hlabels (hsite.labels other hother label hmem hne)
  · rw [hvalue]
    exact hsite.inValue
  · rw [haround]
    exact hsite.isAsync

/-- Statements that are used as a value: no jump leaves them, but `?` belongs to the function
    around. In an asynchronous function the value is awaited. -/
theorem asValue {x : Emit (List Js.Stmt)} (h : GivesLines P here tries x)
    (hmode : P.awaits → here.mode ≠ .helper) : GivesValue P here tries (asValue x) := by
  refine ⟨fun s a t hs hrun => ?_⟩
  rcases hx : x here.place s.enterValue with ⟨result, after⟩
  simp only [Emit.asValue, hx] at hrun
  cases result with
  | error e => cases hrun
  | ok lines =>
    have hstart : Ready P here s.enterValue :=
      ⟨hs.selfType, hs.scopes, (fun _ htarget => absurd htarget List.not_mem_nil), hs.isAsync⟩
    obtain ⟨hready, hfollows, hQ⟩ := h.run _ lines after hstart hx
    obtain ⟨ha, rfl⟩ := Prod.mk.inj hrun
    cases ha
    have htargets : after.targets = [] := hfollows.targets
    have hdepth : after.frame.valueDepth = s.frame.valueDepth + 1 := hfollows.valueDepth
    have hframe : (after.leaveValue s.targets).frame =
        { s.frame with usesTry := s.frame.usesTry || tries } := by
      simp [State.leaveValue, hfollows.frame, State.enterValue]
    refine ⟨⟨hs.selfType, hready.scopes, hs.tails, hready.isAsync⟩,
      ⟨rfl, hfollows.callers, hframe⟩, ?_⟩
    intro site hsite
    have hlines : Js.blockObeys P (.value site.toAround s.frame.isAsync) lines := by
      refine hQ _ ⟨hsite.caught, ?_, ?_, fun _ => by rw [hdepth]; exact Nat.succ_ne_zero _, ?_⟩
      rotate_left 2
      · intro hasync
        rw [hs.isAsync, hasync]
        rfl
      all_goals
        rw [htargets]
        intro target htarget
        cases htarget
    have hempty : P.Text (Js.paramsText []) := .code (by decide)
    -- The value is awaited in an asynchronous function only, where it does not stand in a helper.
    have hawait : s.frame.isAsync = true → P.awaits → site.isAsync = true := by
      intro hasync hP
      rw [hs.isAsync] at hasync
      refine hsite.isAsync ?_
      cases hm : here.mode with
      | sync =>
        rw [hm] at hasync
        cases hasync
      | async => rfl
      | helper => exact absurd hm (hmode hP)
    unfold Emit.calledArrow
    split
    case isTrue hasync =>
      simp only [Js.Expr.Obeys, Js.exprsObey, and_true]
      exact ⟨hawait hasync, hempty, hlines⟩
    case isFalse =>
      simp only [Js.Expr.Obeys, Js.exprsObey, and_true]
      exact ⟨hempty, hlines⟩

end Emit.Gives

end RustScript
