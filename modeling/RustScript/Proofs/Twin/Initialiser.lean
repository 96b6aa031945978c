/-
  What the initialiser of a `let` sees.

  The initialiser is emitted before the name becomes visible, so that every name in it means what it
  meant before. Whether the new variable is another one than the name stood for is a different
  question: a name that no scope binds is not live (`fresh_ne_resolve_iff`).
-/
import RustScript.Proofs.Scope.Capture
import RustScript.Proofs.Twin.Tails

namespace RustScript

namespace Scopes

/-! ## Scopes that can be reached -/

/-- One operation on scopes; to declare a name is to reserve a target and to bind it. -/
inductive Step : Scopes → Scopes → Prop where
  | push (s : Scopes) : Step s s.push
  | pop (s : Scopes) : Step s s.pop
  | reserve (s : Scopes) (name : String) : Step s (s.reserve name).2
  | bind (s : Scopes) (name target : String) : Step s (s.bind name target)

/-- The scopes come about by the operations of emission. -/
def Reachable (s : Scopes) : Prop := Relation.ReflTransGen Step {} s

/-- Every layer has taken what it binds. -/
def Tracked (s : Scopes) : Prop := ∀ l ∈ s.layers, ∀ b ∈ l.bindings, b.2 ∈ l.taken

variable {s : Scopes}

theorem Tracked.step {t : Scopes} (h : s.Tracked) (hstep : Step s t) : t.Tracked := by
  cases hstep with
  | push => exact List.forall_mem_cons.mpr ⟨fun _ hb => absurd hb List.not_mem_nil, h⟩
  | pop =>
    unfold pop
    cases hs : s.pop? with
    | none => exact h
    | some t =>
      intro l hl
      exact h l (List.mem_cons_of_mem _ (outer_of_pop? hs ▸ hl))
  | reserve name =>
    obtain ⟨hinner, houter⟩ := List.forall_mem_cons.mp h
    exact List.forall_mem_cons.mpr
      ⟨fun b hb => List.mem_cons_of_mem _ (hinner b hb), houter⟩
  | bind name target =>
    obtain ⟨hinner, houter⟩ := List.forall_mem_cons.mp h
    refine List.forall_mem_cons.mpr ⟨fun b hb => ?_, houter⟩
    rcases List.mem_cons.mp hb with rfl | hb
    · exact List.mem_cons_self
    · exact List.mem_cons_of_mem _ (hinner b hb)

theorem Reachable.tracked (h : s.Reachable) : s.Tracked := by
  induction h with
  | refl => simp [Tracked, layers]
  | tail _ hstep ih => exact ih.step hstep

theorem Tracked.isLive_of_isBound (h : s.Tracked) {name : String} (hbound : s.IsBound name) :
    s.isLive (s.resolve name) = true := by
  obtain ⟨i, l, hl, hlookup⟩ := hbound.binds_resolve
  have hmem := List.mem_of_getElem? hl
  exact isLive_iff.mpr ⟨l, hmem, h l hmem _ (mem_of_lookup_eq_some hlookup)⟩

/-- The target that a name gets is another one than the name stands for, if the name is bound or
    its own target is live, and not otherwise. -/
theorem fresh_ne_resolve_iff (h : s.Tracked) (name : String) :
    s.fresh name ≠ s.resolve name ↔ s.IsBound name ∨ s.isLive (Name.target name) = true := by
  have hfree := (isNext_fresh s name).isLive_eq_false
  constructor
  · intro hne
    by_contra hno
    obtain ⟨hunbound, hdead⟩ := not_or.mp hno
    refine hne ?_
    rw [resolve_of_not_isBound hunbound, fresh, if_neg hdead]
  · intro hcases heq
    have hlive : s.isLive (s.resolve name) = true := by
      by_cases hbound : s.IsBound name
      · exact h.isLive_of_isBound hbound
      · rw [resolve_of_not_isBound hbound]
        exact hcases.resolve_left hbound
    rw [← heq, hfree] at hlive
    cases hlive

/-! ## What names mean -/

/-- The scopes, with the name bound to a text in the innermost layer. -/
def pin (s : Scopes) (name text : String) : Scopes :=
  { s with inner := { s.inner with bindings := (name, text) :: s.inner.bindings } }

/-- To bind a name to what it means changes nothing that emission sees. -/
theorem alike_pin (s : Scopes) (name : String) : Alike s (s.pin name (s.resolve name)) := by
  refine ⟨.cons rfl (fun other => ?_) (.refl _), rfl⟩
  rw [meaning_cons, meaning_cons]
  dsimp only [pin]
  rw [List.lookup_cons]
  cases hother : other == name with
  | false => rfl
  | true =>
    rw [eq_of_beq hother, ← meaning_cons]
    rfl

theorem resolve_reserve (s : Scopes) (name other : String) :
    (s.reserve name).2.resolve other = s.resolve other := by
  have hmeans : meaning other (s.reserve name).2.layers = meaning other s.layers := by
    unfold layers
    rw [meaning_cons, meaning_cons]
    rfl
  exact hmeans

theorem resolve_bind (s : Scopes) (name target : String) :
    (s.bind name target).resolve name = target := by
  have hmeans : meaning name (s.bind name target).layers = target := by
    unfold layers
    rw [meaning_cons, bind, List.lookup_cons_self, Option.getD_some]
  exact hmeans

end Scopes

open Emit

variable {s : State} {place : Place} {t : State} {r : Reader}

/-- What is emitted depends on no more of the state than what emission can tell apart. -/
theorem Reader.emit_eq_of_alike (r : Reader) (e : Expr) (pos : Position) (place : Place)
    (h : s.Alike Scopes.Alike .ret .ret t) :
    (r.emit e pos place s).1 = (r.emit e pos place t).1 := by
  have htwins := (r.twins_emit .unseen (e := e) (.inl trivial) trivial (.refl .ret pos) place place
    s t rfl h).1
  generalize r.emit e pos place s = x at htwins ⊢
  generalize r.emit e pos place t = y at htwins ⊢
  cases htwins with
  | ok hab _ => rw [hab.eq]
  | error _ => rfl

/-! ## The variable of a `let` -/

/-- A variable of this name gets a target that is not what the name is emitted as. Some words are
    not looked up in the scopes. -/
def State.KeepsApart (s : State) (place : Place) (name : String) : Prop :=
  match name with
  | "self" => True
  | "None" => True
  | "Self" => place.selfType ≠ some (s.scopes.fresh name)
  | _ => s.scopes.IsBound name ∨ s.scopes.isLive (Name.target name) = true

theorem Emit.fresh_ne_ident_iff (hs : s.scopes.Tracked) {name text : String}
    (h : (Emit.ident name place s).1 = .ok text) :
    s.scopes.fresh name ≠ text ↔ s.KeepsApart place name := by
  have hreserved := (Scopes.isNext_fresh s.scopes name).notMem_reserved
  have hword {word : String} (hmem : word ∈ Name.reserved) : s.scopes.fresh name ≠ word :=
    fun heq => hreserved (heq ▸ hmem)
  unfold Emit.ident at h
  unfold State.KeepsApart
  split at h
  · split at h
    · cases h
    · cases h
      exact iff_of_true (hword (by decide)) trivial
  · cases htype : place.selfType with
    | none => simp [htype] at h
    | some type =>
      simp only [htype, Except.ok.injEq] at h
      subst h
      exact ⟨fun hne heq => hne (Option.some.inj heq).symm, fun hne heq => hne (heq ▸ rfl)⟩
  · cases h
    exact iff_of_true (hword (by decide)) trivial
  · next hself htype hnone =>
    cases h
    split
    · exact absurd rfl hself
    · exact absurd rfl hnone
    · exact absurd rfl htype
    · exact Scopes.fresh_ne_resolve_iff hs name

theorem Reader.lines_of_let {x : String} {isMutable byRef : Bool} {init : Expr}
    {ty : Option String} {tail : Option Js.Tail} {lines : List Js.Stmt}
    (hrun : r.emitStmt (.letIn (.ident x isMutable byRef none) (some init) ty none) tail place s =
      (.ok lines, t)) :
    t.scopes.resolve x = s.scopes.fresh x ∧
    if init.needsStatement then
      ∃ code, (r.emit init (.statement (some (.into (s.scopes.fresh x)))) place
          { s with scopes := (s.scopes.reserve x).2 }).1 = .ok code ∧
        lines = .declare .var (.name (s.scopes.fresh x)) none :: code
    else
      ∃ code, (r.emit init .value place s).1 = .ok code ∧
        lines = [.declare (.of isMutable) (.name (s.scopes.fresh x)) (some code)] := by
  unfold Reader.emitStmt at hrun
  rw [stmt] at hrun
  · split at hrun
    · next hneeds =>
      rw [if_pos hneeds]
      unfold letControl at hrun
      simp only [Pat.plainName?] at hrun
      obtain ⟨target, u, hreserve, hrun⟩ := exists_of_bind hrun
      cases hreserve
      obtain ⟨code, v, hinit, hrun⟩ := exists_of_bind hrun
      cases hrun
      refine ⟨Scopes.resolve_bind _ _ _, code, ?_, rfl⟩
      exact congrArg Prod.fst hinit
    · next hneeds =>
      rw [if_neg hneeds]
      obtain ⟨code, u, hinit, hrun⟩ := exists_of_bind hrun
      have hrestored := r.restored_emit init .value place s
      have hu : (r.emit init .value place s).2 = u := congrArg Prod.snd hinit
      rw [hu] at hrestored
      -- the initialiser gives back every target that it took
      have htarget : u.scopes.fresh x = s.scopes.fresh x := by
        refine Scopes.fresh_of_taken ?_ x
        rw [Scopes.taken, Scopes.taken, Scopes.layers, Scopes.layers, hrestored.inner,
          hrestored.outer]
      obtain ⟨binding, v, hbinding, hrun⟩ := exists_of_bind hrun
      rw [destructure] at hbinding
      obtain ⟨target, w, hdeclare, hbinding⟩ := exists_of_bind hbinding
      cases hdeclare
      cases hbinding
      cases hrun
      refine ⟨?_, code, congrArg Prod.fst hinit, ?_⟩
      · rw [← htarget]
        exact Scopes.resolve_bind _ _ _
      · rw [← htarget]
        rfl
  · simp

/-- The code of an expression, which is the same with the name bound to the text. -/
def Reader.EmitsWith (r : Reader) (name text : String) (e : Expr) (pos : Position) (place : Place)
    (s : State) (code : pos.Code) : Prop :=
  (r.emit e pos place s).1 = .ok code ∧
    (r.emit e pos place { s with scopes := s.scopes.pin name text }).1 = .ok code

theorem Reader.emitsWith_resolve {e : Expr} {pos : Position} {code : pos.Code}
    (h : (r.emit e pos place s).1 = .ok code) (name : String) :
    r.EmitsWith name (s.scopes.resolve name) e pos place s code := by
  have halike := State.Alike.of_scopes .ret .ret (s.scopes.alike_pin name)
  exact ⟨h, (r.emit_eq_of_alike e pos place halike).symm.trans h⟩

/-- The initialiser of `let x = …` is emitted from a state in which every name is emitted as before,
    and its code is what it is with `x` bound to its previous meaning. The variable that is declared
    is another one than `x` was emitted as exactly if `x` is bound or its own target is live: a
    free name, such as that of a function, is taken for the variable itself. -/
theorem let_variable_is_kept_apart_iff {r : Reader} {place : Place} {s t : State} {x : String}
    {isMutable byRef : Bool} {init : Expr} {ty : Option String} {tail : Option Js.Tail}
    {lines : List Js.Stmt} (hs : s.scopes.Reachable)
    (hrun : r.emitStmt (.letIn (.ident x isMutable byRef none) (some init) ty none) tail place s =
      (.ok lines, t)) :
    (if init.needsStatement then
      ∃ code, r.EmitsWith x (s.scopes.resolve x) init (.statement (some (.into (s.scopes.fresh x))))
          place { s with scopes := (s.scopes.reserve x).2 } code ∧
        lines = .declare .var (.name (s.scopes.fresh x)) none :: code
    else
      ∃ code, r.EmitsWith x (s.scopes.resolve x) init .value place s code ∧
        lines = [.declare (.of isMutable) (.name (s.scopes.fresh x)) (some code)]) ∧
    (∀ name, (Emit.ident name place { s with scopes := (s.scopes.reserve x).2 }).1 =
      (Emit.ident name place s).1) ∧
    t.scopes.resolve x = s.scopes.fresh x ∧
    ∀ text, (Emit.ident x place s).1 = .ok text →
      (s.scopes.fresh x ≠ text ↔ s.KeepsApart place x) := by
  obtain ⟨hresolve, hlines⟩ := r.lines_of_let hrun
  have hreserve := s.scopes.resolve_reserve x
  refine ⟨?_, fun name => ?_, hresolve, fun text htext => Emit.fresh_ne_ident_iff hs.tracked htext⟩
  · split at hlines
    · next hneeds =>
      obtain ⟨code, hinit, hlines⟩ := hlines
      rw [if_pos hneeds, ← hreserve x]
      exact ⟨code, Reader.emitsWith_resolve hinit x, hlines⟩
    · next hneeds =>
      obtain ⟨code, hinit, hlines⟩ := hlines
      rw [if_neg hneeds]
      exact ⟨code, Reader.emitsWith_resolve hinit x, hlines⟩
  · unfold Emit.ident
    simp only [hreserve]

def withLocal : State where
  scopes := (({} : Scopes).declare "x").2

def letShadowing : Stmt :=
  .letIn (.ident "x" false false none) (some (.binary "+" (.ident "x") (.lit (.int 1)))) none none

/-- A second `x` is kept apart from the first, which its initialiser reads. -/
theorem let_variable_is_kept_apart_iff_shadowing :
    withLocal.scopes.Reachable ∧
    ∃ lines t,
      (Reader.ofTable []).emitStmt letShadowing none {} withLocal = (.ok lines, t) ∧
      Js.blockLines lines = ["const x_1 = x + 1;"] ∧
      t.scopes.resolve "x" = withLocal.scopes.fresh "x" ∧ withLocal.scopes.fresh "x" ≠ "x" := by
  have hreach : withLocal.scopes.Reachable :=
    (Relation.ReflTransGen.refl.tail (.reserve _ "x")).tail (.bind _ "x" "x")
  obtain ⟨-, -, hresolve, hapart⟩ := let_variable_is_kept_apart_iff hreach
    (rfl : (Reader.ofTable []).emitStmt letShadowing none {} withLocal = (.ok _, _))
  refine ⟨hreach, _, _, rfl, by decide +kernel, hresolve, ?_⟩
  exact (hapart "x" rfl).mpr (.inr (by decide +kernel))

/-- The free name `area` is taken for the variable: its initialiser calls the variable itself. -/
theorem let_of_a_free_name_reads_itself :
    ({} : State).scopes.Reachable ∧ ({} : State).scopes.resolve "area" = "area" ∧
    Except.toOption (((Reader.ofTable []).emitStmt (.letIn (.ident "area" false false none)
          (some (.call (.ident "area") [.ident "s"])) none none) none {} {}).1.map Js.blockLines) =
      some ["const area = area(s);"] :=
  ⟨.refl, by decide +kernel, by decide +kernel⟩

end RustScript
