/-
  Which arm of a `match` runs.

  A pair of arms for `Some` and for `None` is emitted as one question: is there a value that the
  first of them takes? That keeps the order unless no arm matches, or both do and the arm for `None`
  stands first.
-/
import RustScript.Emit.Reader
import RustScript.Proofs.Context.Restore
import RustScript.Proofs.Pattern.Adequate

namespace RustScript

/-! ## Running branches -/

namespace Js

/-- What a conditional runs: the body of the first branch whose condition is true. -/
inductive Chooses (env : Env) (otherwise : Option (List Stmt)) :
    List Branch → Option (List Stmt) → Prop where
  | otherwise : Chooses env otherwise [] otherwise
  | yes {cond : Expr} {body : List Stmt} {branches : List Branch} :
      Yields env cond.text (.bool true) →
      Chooses env otherwise (.mk cond body :: branches) (some body)
  | no {cond : Expr} {body : List Stmt} {branches : List Branch} {run : Option (List Stmt)} :
      Yields env cond.text (.bool false) → Chooses env otherwise branches run →
      Chooses env otherwise (.mk cond body :: branches) run

/-- What statements run that are a conditional, a plain block or nothing. -/
inductive Enters (env : Env) : List Stmt → Option (List Stmt) → Prop where
  | nothing : Enters env [] none
  | block (body : List Stmt) : Enters env [.block none body] (some body)
  | branch {branches : List Branch} {otherwise run : Option (List Stmt)} :
      Chooses env otherwise branches run → Enters env [.branch branches otherwise] run

theorem Yields.unique {env : Env} {text : String} {v w : Val} (hv : Yields env text v)
    (hw : Yields env text w) : v = w := by
  obtain ⟨t, ht⟩ := hv.1
  exact Option.some.inj ((hv.2 t ht).symm.trans (hw.2 t ht))

end Js

open Js (Env Yields Chooses Enters Test)

variable {place : Place} {p : Pat} {α β : Type}

theorem Emit.exists_of_bind {x : Emit α} {f : α → Emit β} {s t : State} {b : β}
    (h : (x >>= f) place s = (.ok b, t)) :
    ∃ a u, x place s = (.ok a, u) ∧ f a place u = (.ok b, t) := by
  rcases hx : x place s with ⟨e | a, u⟩
  · rw [Emit.bind_of_error hx] at h
    cases h
  · rw [Emit.bind_of_ok hx] at h
    exact ⟨a, u, rfl, h⟩

theorem Emit.exists_of_return {x : Emit α} {f : α → β} {s t : State} {b : β}
    (h : (do return f (← x) : Emit β) place s = (.ok b, t)) :
    ∃ a, x place s = (.ok a, t) ∧ f a = b := by
  obtain ⟨a, u, ha, hreturn⟩ := exists_of_bind h
  cases hreturn
  exact ⟨a, ha, rfl⟩

theorem Emit.exists_of_both {γ : Type} {x : Emit α} {y : α → Emit β} {f : α → β → γ} {s t : State}
    {c : γ} (h : (x >>= fun a => do return f a (← y a)) place s = (.ok c, t)) :
    ∃ a b u, x place s = (.ok a, u) ∧ y a place u = (.ok b, t) ∧ f a b = c := by
  obtain ⟨a, u, ha, h⟩ := exists_of_bind h
  obtain ⟨b, hb, hreturn⟩ := exists_of_return h
  exact ⟨a, b, u, ha, hb, hreturn⟩

theorem Emit.compile_of_matcher {subject : String} {s t : State} {m : Matcher}
    (h : Emit.matcher p subject place s = (.ok m, t)) :
    p.compile ⟨⟨place.selfType, place.structs⟩, s.scopes⟩ (.root subject) = .ok m :=
  congrArg Prod.fst h

/-- An arm with this pattern counts as one for a value that is there. -/
def Pat.takesSome : Pat → Bool
  | tupleStruct segments elems => segments.getLast? == some "Some" && elems.length == 1
  | _ => false

/-- Whether the pattern takes an absent value. -/
def Pat.takesNone : Pat → Bool
  | path segments => segments.getLast? == some "None"
  | wild => true
  | ident name _ _ _ => name == "None"
  | _ => false

theorem Pat.takesNone_of_takesSome (h : p.takesSome = true) : p.takesNone = false := by
  cases p with
  | tupleStruct segments elems => rfl
  | _ => cases h

/-! ## Arms in order -/

namespace ArmPlan

variable {subject : String} {tail : Option Js.Tail} {place : Place} {env : Env}
  {matched : Pat → Bool}

/-- What runs is the code that was emitted for the arm of this number, or nothing. The code binds
    what the pattern of the arm binds in the scopes it is emitted in; the arm for an absent value
    binds nothing. -/
inductive Runs (place : Place) (subject : String) (tail : Option Js.Tail)
    (plans : List ArmPlan) : Option (List Js.Stmt) → Option Nat → Prop where
  | none : Runs place subject tail plans none none
  | arm {number : Nat} {a : ArmPlan} {m : Matcher} {s t : State} {body : List Js.Stmt} :
      plans[number]? = some a → Emit.matcher a.pat subject place s = (.ok m, s) →
      a.emit m tail [] place s = (.ok body, t) →
      Runs place subject tail plans (some body) (some number)
  | absent {number : Nat} {a : ArmPlan} {s t : State} {body : List Js.Stmt} :
      plans[number]? = some a → a.pat.takesNone = true →
      a.emit {} tail [] place s = (.ok body, t) →
      Runs place subject tail plans (some body) (some number)

theorem Runs.cons {plans : List ArmPlan} {run : Option (List Js.Stmt)} {number : Option Nat}
    (a : ArmPlan) (h : Runs place subject tail plans run number) :
    Runs place subject tail (a :: plans) run (number.map (· + 1)) := by
  cases h with
  | none => exact .none
  | arm hget hm hemit => exact .arm (by simpa using hget) hm hemit
  | absent hget hnone hemit => exact .absent (by simpa using hget) hnone hemit

/-- Whatever the scopes are, the condition of the pattern says whether it matches. -/
def Decided (place : Place) (env : Env) (subject : String) (p : Pat) (b : Bool) : Prop :=
  ∀ scopes m, p.compile ⟨⟨place.selfType, place.structs⟩, scopes⟩ (.root subject) = .ok m →
    Yields env (Test.condition m.tests) (.bool b)

variable {b : Bool} {plans : List ArmPlan} {s t : State} {lines : List Js.Stmt} {a : ArmPlan}
  {branches : List Js.Branch}

theorem eq_true_of_isIrrefutable {m : Matcher} (h : m.isIrrefutable = true)
    (hb : Yields env (Test.condition m.tests) (.bool b)) : b = true := by
  have hread : Test.AllReadable [] := trivial
  have htrue : Yields env (Test.condition []) (.bool true) :=
    (Test.written_condition hread).yields rfl
  rw [List.isEmpty_iff.mp h] at hb
  exact Js.Val.bool.inj (hb.unique htrue)

theorem chain_runs {otherwise : Option (List Js.Stmt)}
    (h : chain subject tail plans place s = (.ok (branches, otherwise), t))
    (hmatched : ∀ a ∈ plans, Decided place env subject a.pat (matched a.pat)) :
    ∃ run, Chooses env otherwise branches run ∧
      Runs place subject tail plans run (plans.findIdx? fun a => matched a.pat) := by
  induction plans generalizing s branches otherwise with
  | nil =>
    cases h
    exact ⟨_, .otherwise, .none⟩
  | cons a plans ih =>
    obtain ⟨hfirst, hmore⟩ := List.forall_mem_cons.mp hmatched
    rw [chain] at h
    obtain ⟨m, u, hm, hrest⟩ := Emit.exists_of_bind h
    obtain rfl : s = u := congrArg Prod.snd hm
    obtain ⟨body, w, hbody, hrest⟩ := Emit.exists_of_bind hrest
    have hcond := hfirst _ m (Emit.compile_of_matcher hm)
    rw [List.findIdx?_cons]
    cases hirr : m.isIrrefutable with
    | true =>
      rw [hirr, if_pos rfl] at hrest
      cases hrest
      rw [eq_true_of_isIrrefutable hirr hcond, if_pos rfl]
      exact ⟨_, .otherwise, .arm rfl hm hbody⟩
    | false =>
      rw [hirr, if_neg Bool.false_ne_true] at hrest
      obtain ⟨⟨more, last⟩, hmore', ⟨⟩⟩ := Emit.exists_of_return hrest
      obtain ⟨run, hchoose, hruns⟩ := ih hmore' hmore
      cases htruth : matched a.pat with
      | true =>
        rw [htruth] at hcond
        exact ⟨_, .yes hcond, .arm rfl hm hbody⟩
      | false =>
        rw [htruth] at hcond
        exact ⟨run, .no hcond hchoose, hruns.cons a⟩

theorem Chooses.enters {otherwise run : Option (List Js.Stmt)}
    (h : Chooses env otherwise branches run) : Enters env (branchStmts branches otherwise) run := by
  cases h with
  | otherwise =>
    cases otherwise with
    | none => exact .nothing
    | some body => exact .block body
  | yes hcond => exact .branch (.yes hcond)
  | no hcond hrest => exact .branch (.no hcond hrest)

theorem ladder_runs (hguard : ∀ a ∈ plans, a.guard = none)
    (h : ladder subject tail plans place s = (.ok lines, t))
    (hmatched : ∀ a ∈ plans, Decided place env subject a.pat (matched a.pat)) :
    ∃ run, Enters env lines run ∧
      Runs place subject tail plans run (plans.findIdx? fun a => matched a.pat) := by
  have hnone : (plans.any fun a => a.guard.isSome) = false := by
    rw [List.any_eq_false]
    intro a ha
    simp [hguard a ha]
  rw [ladder, hnone, if_neg Bool.false_ne_true] at h
  obtain ⟨⟨branches, otherwise⟩, hchain, rfl⟩ := Emit.exists_of_return h
  obtain ⟨run, hchoose, hruns⟩ := chain_runs hchain hmatched
  exact ⟨run, Chooses.enters hchoose, hruns⟩

/-! ## Pairs -/

theorem pair_runs (plans : List ArmPlan) {present absent : ArmPlan} {i j : Nat}
    (hpresent : plans[i]? = some present) (habsent : plans[j]? = some absent)
    (hnone : absent.pat.takesNone = true)
    (h : pair subject tail present absent place s = (.ok lines, t))
    (hdecided : Decided place env subject present.pat b) :
    ∃ run, Enters env lines run ∧
      Runs place subject tail plans run (some (if b then i else j)) := by
  rw [pair] at h
  obtain ⟨m, u, hm, hrest⟩ := Emit.exists_of_bind h
  obtain rfl : s = u := congrArg Prod.snd hm
  obtain ⟨yes, no, w, hyes, hno, rfl⟩ := Emit.exists_of_both hrest
  have hcond := hdecided _ m (Emit.compile_of_matcher hm)
  cases b with
  | true => exact ⟨_, .branch (.yes hcond), .arm hpresent hm hyes⟩
  | false => exact ⟨_, .branch (.no hcond .otherwise), .absent habsent hnone hno⟩

/-- The arms are one for a value that is there and one for a value that is not, without guards. -/
def formPair (a b : ArmPlan) : Bool :=
  (a.guard.isNone && a.pat.takesSome) && (b.guard.isNone && b.pat.takesNone)

theorem takesSome_eq_ok (h : a.takesSome = .ok b) : (a.guard.isNone && a.pat.takesSome) = b := by
  obtain ⟨p, guard, body⟩ := a
  cases p with
  | tupleStruct segments elems =>
    obtain ⟨name, hname, rfl⟩ := exists_of_return_eq_ok h
    simp [Pat.takesSome, Path.getLast?_of_last hname, Bool.and_comm]
  | _ => simpa [Pat.takesSome] using Except.ok.inj h

theorem takesNone_eq_ok (h : a.takesNone = .ok b) : (a.guard.isNone && a.pat.takesNone) = b := by
  obtain ⟨p, _ | guard, body⟩ := a
  · cases p with
    | path segments =>
      obtain ⟨name, hname, rfl⟩ := exists_of_return_eq_ok h
      simp [Pat.takesNone, Path.getLast?_of_last hname]
    | _ => exact Except.ok.inj h
  · exact Except.ok.inj h

theorem isPair_eq_ok {b : ArmPlan} {c : Bool} (h : isPair a b = .ok c) : formPair a b = c := by
  obtain ⟨some, hsome, hrest⟩ := exists_of_bind_eq_ok h
  rw [formPair, takesSome_eq_ok hsome]
  cases some with
  | true => exact takesNone_eq_ok hrest
  | false => exact Except.ok.inj hrest

theorem optionPair?_eq_ok {found : Option (ArmPlan × ArmPlan)} (h : optionPair? plans = .ok found) :
    (∃ a b, plans = [a, b] ∧ found = some (a, b) ∧ formPair a b = true) ∨
    (∃ a b, plans = [a, b] ∧ found = some (b, a) ∧ formPair b a = true) ∨
    (found = none ∧ ∀ a b, plans = [a, b] → formPair a b = false ∧ formPair b a = false) := by
  unfold optionPair? at h
  split at h
  · next first second =>
    obtain ⟨straight, hstraight, hrest⟩ := exists_of_bind_eq_ok h
    have hforms := isPair_eq_ok hstraight
    cases straight with
    | true => exact .inl ⟨first, second, rfl, (Except.ok.inj hrest).symm, hforms⟩
    | false =>
      obtain ⟨turned, hturned, hrest⟩ := exists_of_bind_eq_ok hrest
      have hforms' := isPair_eq_ok hturned
      cases turned with
      | true => exact .inr (.inl ⟨first, second, rfl, (Except.ok.inj hrest).symm, hforms'⟩)
      | false =>
        refine .inr (.inr ⟨(Except.ok.inj hrest).symm, fun a b hab => ?_⟩)
        cases hab
        exact ⟨hforms, hforms'⟩
  · next hlen =>
    cases h
    exact .inr (.inr ⟨rfl, fun a b hab => absurd hab (hlen a b)⟩)

theorem formPair_of_guard {b : ArmPlan} (ha : a.guard = none) (hb : b.guard = none) :
    formPair a b = (a.pat.takesSome && b.pat.takesNone) := by
  simp [formPair, ha, hb]

/-- The arms are a pair for a value that is there and one that is not, and no arm matches, or both
    do although the arm for the absent value stands first. -/
def deviates (matched : Pat → Bool) : List Pat → Bool
  | [p, q] =>
    p.takesSome && q.takesNone && !matched p && !matched q ||
      p.takesNone && q.takesSome && matched p == matched q
  | _ => false

/-- The first arm that matches runs unless the arms are a pair that deviates. -/
theorem arms_runs (hguard : ∀ a ∈ plans, a.guard = none)
    (h : arms subject tail plans place s = (.ok lines, t))
    (hmatched : ∀ a ∈ plans, Decided place env subject a.pat (matched a.pat)) :
    ∃ run taken, Enters env lines run ∧ Runs place subject tail plans run taken ∧
      (taken = (plans.findIdx? fun a => matched a.pat) ↔
        deviates matched (plans.map ArmPlan.pat) = false) := by
  rw [arms] at h
  obtain ⟨found, u, hfound, hrest⟩ := Emit.exists_of_bind h
  obtain ⟨a, b, rfl, rfl, hforms⟩ | ⟨a, b, rfl, rfl, hforms⟩ | ⟨rfl, hforms⟩ :=
    optionPair?_eq_ok (congrArg Prod.fst hfound)
  · rw [formPair_of_guard (hguard a (by simp)) (hguard b (by simp)), Bool.and_eq_true] at hforms
    obtain ⟨run, henters, hruns⟩ :=
      pair_runs [a, b] (i := 0) (j := 1) rfl rfl hforms.2 hrest (hmatched a (by simp))
    refine ⟨run, _, henters, hruns, ?_⟩
    cases hma : matched a.pat <;> cases hmb : matched b.pat <;>
      simp [deviates, List.findIdx?_cons, hforms, hma, hmb, Pat.takesNone_of_takesSome hforms.1]
  · rw [formPair_of_guard (hguard b (by simp)) (hguard a (by simp)), Bool.and_eq_true] at hforms
    obtain ⟨run, henters, hruns⟩ :=
      pair_runs [a, b] (i := 1) (j := 0) rfl rfl hforms.2 hrest (hmatched b (by simp))
    refine ⟨run, _, henters, hruns, ?_⟩
    cases hma : matched a.pat <;> cases hmb : matched b.pat <;>
      simp [deviates, List.findIdx?_cons, hforms, hma, hmb, Pat.takesNone_of_takesSome hforms.1]
  · obtain ⟨run, henters, hruns⟩ := ladder_runs hguard hrest hmatched
    refine ⟨run, _, henters, hruns, iff_of_true rfl ?_⟩
    rcases plans with _ | ⟨a, _ | ⟨b, _ | ⟨c, more⟩⟩⟩
    · rfl
    · rfl
    · have hforms := hforms a b rfl
      rw [formPair_of_guard (hguard a (by simp)) (hguard b (by simp)),
        formPair_of_guard (hguard b (by simp)) (hguard a (by simp))] at hforms
      simp [deviates, hforms, Bool.and_comm a.pat.takesNone]
    · rfl

end ArmPlan

/-! ## Matches -/

theorem map_pat_armPlans (expand : MacroCall → Emit Js.Expr) (arms : List Arm) :
    (Emit.armPlans expand arms).map ArmPlan.pat = arms.map Arm.pat := by
  induction arms with
  | nil => rw [Emit.armPlans]; rfl
  | cons a arms ih =>
    obtain ⟨p, body, guard⟩ := a
    rw [Emit.armPlans, List.map_cons, List.map_cons, ih]

theorem guard_armPlans {expand : MacroCall → Emit Js.Expr} {arms : List Arm}
    (h : ∀ a ∈ arms, a.guard = none) : ∀ a ∈ Emit.armPlans expand arms, a.guard = none := by
  induction arms with
  | nil => rw [Emit.armPlans]; simp
  | cons a arms ih =>
    obtain ⟨hfirst, hmore⟩ := List.forall_mem_cons.mp h
    obtain ⟨p, body, guard⟩ := a
    obtain rfl : guard = none := hfirst
    rw [Emit.armPlans]
    exact List.forall_mem_cons.mpr ⟨by rw [Emit.action], ih hmore⟩

/-- The name of the temporary that holds the subject of a `match`. -/
def matchTemp (s : State) : String := "$match" ++ toString s.temps

theorem isBindable_matchTemp (s : State) : Name.isBindable (matchTemp s) := by
  have hname : Js.isName (matchTemp s) :=
    Name.isName_append (by decide) (List.all_eq_true.mpr (Js.toString_chars s.temps).2)
  have hplain : ∀ w ∈ Name.reserved, w.toList.head? ≠ some '$' := by decide
  have hfree : matchTemp s ∉ Name.reserved := fun hmem => hplain _ hmem (by simp [matchTemp])
  simp [Name.isBindable, hname, hfree]

/-- Whether a pattern matches the subject: by its meaning if it has one, and otherwise by what the
    condition says that is compiled for it. -/
inductive Matches (decls : Declarations) (place : Place) (env : Env) (subject : String) :
    Pat → Bool → Prop where
  | meaning {p : Pat} {t : Ty} {v : Value} :
      p.Fits decls ⟨place.selfType, place.structs⟩ t → v.HasType decls t →
      env subject = some v.encode → Matches decls place env subject p (p.match? v).isSome
  | condition {p : Pat} {b : Bool} :
      ArmPlan.Decided place env subject p b → Matches decls place env subject p b

theorem Matches.decided {decls : Declarations} {env : Env} {subject : String} {b : Bool}
    (hsubject : Name.isBindable subject) (harray : env "Array" = none)
    (h : Matches decls place env subject p b) : ArmPlan.Decided place env subject p b := by
  cases h with
  | meaning hfits hv henv =>
    intro scopes m hcompile
    have hplace : (Js.Access.root subject).Readable := Name.isOperand_of_isBindable hsubject
    exact (p.adequate hplace hfits hcompile).yields hsubject hv henv harray
  | condition h => exact h

theorem findIdx?_armPlans (expand : MacroCall → Emit Js.Expr) (arms : List Arm)
    (matched : Pat → Bool) :
    ((Emit.armPlans expand arms).findIdx? fun a => matched a.pat) =
      arms.findIdx? fun a => matched a.pat := by
  calc
    (Emit.armPlans expand arms).findIdx? (fun a => matched a.pat)
      = ((Emit.armPlans expand arms).map ArmPlan.pat).findIdx? matched := List.findIdx?_map.symm
    _ = (arms.map Arm.pat).findIdx? matched := by rw [map_pat_armPlans]
    _ = arms.findIdx? (fun a => matched a.pat) := List.findIdx?_map

/-- A `match` without guards holds its subject in a temporary and then runs the first arm whose
    pattern matches, or nothing if none does, exactly if its arms are not a pair that deviates. The
    variables have the values of `env` once the temporary is declared. -/
theorem match_runs_first_arm_iff {r : Reader} {decls : Declarations} {subject : Expr}
    {arms : List Arm} {tail : Option Js.Tail} {place : Place} {s t : State}
    {lines : List Js.Stmt} {env : Env} {matched : Pat → Bool} (hguard : ∀ a ∈ arms, a.guard = none)
    (hemit : r.emit (.matchOn subject arms) (.statement tail) place s = (.ok lines, t))
    (harray : env "Array" = none)
    (hmatched : ∀ a ∈ arms, Matches decls place env (matchTemp s) a.pat (matched a.pat)) :
    ∃ code rest run taken,
      lines = .declare .const (.name (matchTemp s)) (some code) :: rest ∧
      Enters env rest run ∧
      ArmPlan.Runs place (matchTemp s) tail (Emit.armPlans r.expand arms) run taken ∧
      (taken = (arms.findIdx? fun a => matched a.pat) ↔
        ArmPlan.deviates matched (arms.map Arm.pat) = false) := by
  rw [Reader.emit, Emit.expr] at hemit
  obtain ⟨temp, u, htemp, hrest⟩ := Emit.exists_of_bind hemit
  obtain ⟨code, rest, w, hcode, harms, rfl⟩ := Emit.exists_of_both hrest
  cases htemp
  have hplans : ∀ a ∈ Emit.armPlans r.expand arms,
      ArmPlan.Decided place env (matchTemp s) a.pat (matched a.pat) := by
    intro a ha
    have hmem : a.pat ∈ arms.map Arm.pat := by
      rw [← map_pat_armPlans r.expand]
      exact List.mem_map_of_mem ha
    obtain ⟨b, hb, hpat⟩ := List.mem_map.mp hmem
    rw [← hpat]
    exact (hmatched b hb).decided (isBindable_matchTemp s) harray
  obtain ⟨run, taken, henters, hruns, hiff⟩ :=
    ArmPlan.arms_runs (guard_armPlans hguard) harms hplans
  rw [findIdx?_armPlans, map_pat_armPlans] at hiff
  exact ⟨code, rest, run, taken, rfl, henters, hruns, hiff⟩

/-- The subject is seven. -/
def someSeven : Env := fun w => if w = "$match0" then some (.num 7) else none

/-- `None => 1, Some(y) => 2` -/
def noneBeforeSome : List Arm :=
  [⟨.path ["None"], .lit (.int 1), none⟩,
   ⟨.tupleStruct ["Some"] [.ident "y" false false none], .lit (.int 2), none⟩]

theorem noneBeforeSome_runs_second :
    ∃ code rest run,
      ((Reader.ofTable []).emit (.matchOn (.ident "x") noneBeforeSome) (.statement (some .ret))
        {} {}).1 = .ok (.declare .const (.name "$match0") (some code) :: rest) ∧
      Enters someSeven rest run ∧
      ArmPlan.Runs {} "$match0" (some .ret)
        (Emit.armPlans (Reader.ofTable []).expand noneBeforeSome) run (some 1) := by
  have hv : (Value.present (.int 7)).HasType {} (.option .int) := .present (.int 7 (by decide)) rfl
  have hnone : (Pat.path ["None"]).Fits {} ⟨none, []⟩ (.option .int) := .absent rfl
  have hsome : (Pat.tupleStruct ["Some"] [.ident "y" false false none]).Fits {} ⟨none, []⟩
      (.option .int) :=
    ⟨⟨Nat.zero_le 1, by decide⟩, [_], _, by decide, .present rfl, rfl,
      .inr (by decide : Name.isConstant "y" = false), trivial⟩
  obtain ⟨code, rest, run, taken, hlines, henters, hruns, hiff⟩ :=
    @match_runs_first_arm_iff (Reader.ofTable []) {} (.ident "x") noneBeforeSome (some .ret) {} {}
      _ _ someSeven (fun p => (p.match? (.present (.int 7))).isSome)
      (by simp [noneBeforeSome]) rfl rfl
      (List.forall_mem_cons.mpr ⟨.meaning hnone hv rfl,
        List.forall_mem_cons.mpr ⟨.meaning hsome hv rfl, by simp⟩⟩)
  obtain rfl := hiff.mpr rfl
  exact ⟨code, rest, run, congrArg Except.ok hlines, henters, hruns⟩

/-- `_ => 1, Some(y) => 2` -/
def wildBeforeSome : List Arm :=
  [⟨.wild, .lit (.int 1), none⟩,
   ⟨.tupleStruct ["Some"] [.ident "y" false false none], .lit (.int 2), none⟩]

/-- The first arm matches anything, and still the second one runs. -/
theorem wildBeforeSome_runs_second :
    (wildBeforeSome.findIdx? fun a => (a.pat.match? (.present (.int 7))).isSome) = some 0 ∧
    ∃ rest,
      ((Reader.ofTable []).emit (.matchOn (.ident "x") wildBeforeSome) (.statement (some .ret))
        {} {}).1 = .ok (.declare .const (.name "$match0") (some (.atom "x")) :: rest) ∧
      Enters someSeven rest (some
        [.declare .const (.name "y") (some (.atom "$match0")), .deliver .ret (.atom "2")]) := by
  have hread : Test.AllReadable [.notNull (.root "$match0")] :=
    ⟨(by decide : Js.isOperand "$match0"), trivial⟩
  exact ⟨rfl, _, rfl, .branch (.yes ((Test.written_condition hread).yields rfl))⟩

end RustScript
