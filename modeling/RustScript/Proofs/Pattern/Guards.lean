/-
  Which arm of a `match` with guards runs.

  Statements are run in a world of which nothing is assumed (`Js.World`, `Js.Stmt.Runs`). An arm of
  the block either hands over to the next one, or it runs its value and leaves the block, or it ends
  before that with a failure (`ArmCode.runs_statement`).
-/
import RustScript.Proofs.Pattern.Arms

namespace RustScript

/-! ## Running statements -/

namespace Js

/-- How statements end. -/
inductive Completion where
  | normal
  | leaving (label : String)
  /-- By a return, a failure or a jump to a loop. -/
  | abrupt
  deriving DecidableEq

/-- What is left to do after the block with the label, which catches the jumps to its end. -/
def Completion.outOf (label : String) (k : Completion) : Completion :=
  if k = .leaving label then .normal else k

/-- What conditions and plain statements do to states. -/
structure World (σ : Type) where
  /-- How a condition comes out; `none` if it fails. -/
  asks : Expr → σ → Option Bool → σ → Prop
  does : Stmt → σ → Completion → σ → Prop

section Running

variable {σ : Type} (w : World σ)

mutual

/-- The statement runs from one state of the world to another and completes in this way. -/
def Stmt.Runs : Stmt → σ → Completion → σ → Prop
  | .block none body, s, k, t => blockRuns body s k t
  | .block (some label) body, s, k, t => ∃ j, blockRuns body s j t ∧ k = j.outOf label
  | .branch branches otherwise, s, k, t => branchRuns branches (otherwiseRuns otherwise) s k t
  | .leave label, s, k, t => k = .leaving label ∧ t = s
  | stmt, s, k, t => w.does stmt s k t

/-- A run of statements: each starts where the one before it ended normally. -/
def blockRuns : List Stmt → σ → Completion → σ → Prop
  | [], s, k, t => k = .normal ∧ t = s
  | stmt :: stmts, s, k, t =>
    (∃ u, stmt.Runs s .normal u ∧ blockRuns stmts u k t) ∨ (k ≠ .normal ∧ stmt.Runs s k t)

def otherwiseRuns : Option (List Stmt) → σ → Completion → σ → Prop
  | none, s, k, t => k = .normal ∧ t = s
  | some body, s, k, t => blockRuns body s k t

/-- The branches are asked in order. -/
def branchRuns : List Branch → (σ → Completion → σ → Prop) → σ → Completion → σ → Prop
  | [], otherwise, s, k, t => otherwise s k t
  | .mk cond body :: branches, otherwise, s, k, t =>
    (∃ u, w.asks cond s (some true) u ∧ blockRuns body u k t) ∨
    (∃ u, w.asks cond s (some false) u ∧ branchRuns branches otherwise u k t) ∨
    (w.asks cond s none t ∧ k = .abrupt)

end

variable {w} {s t : σ} {k : Completion}

theorem blockRuns_append (xs ys : List Stmt) :
    blockRuns w (xs ++ ys) s k t ↔
      (∃ u, blockRuns w xs s .normal u ∧ blockRuns w ys u k t) ∨
        (k ≠ .normal ∧ blockRuns w xs s k t) := by
  induction xs generalizing s with
  | nil =>
    simp only [List.nil_append, blockRuns]
    grind
  | cons x xs ih =>
    simp only [List.cons_append, blockRuns, ih]
    grind

theorem blockRuns_singleton (stmt : Stmt) : blockRuns w [stmt] s k t ↔ stmt.Runs w s k t := by
  simp only [blockRuns]
  by_cases hk : k = .normal <;> simp [hk]

theorem blockRuns_leave (xs : List Stmt) (label : String) :
    blockRuns w (xs ++ [.leave label]) s k t ↔
      ∃ j, blockRuns w xs s j t ∧ k = if j = .normal then .leaving label else j := by
  rw [blockRuns_append]
  simp only [blockRuns_singleton, Stmt.Runs]
  constructor
  · rintro (⟨u, hxs, rfl, rfl⟩ | ⟨hk, hxs⟩)
    · exact ⟨.normal, hxs, rfl⟩
    · exact ⟨k, hxs, (if_neg hk).symm⟩
  · rintro ⟨j, hxs, rfl⟩
    by_cases hj : j = .normal
    · subst hj
      exact .inl ⟨t, hxs, rfl, rfl⟩
    · rw [if_neg hj]
      exact .inr ⟨hj, hxs⟩

end Running

end Js

open Js (World Completion blockRuns)

/-! ## The code of an arm -/

/-- The parts of an arm's code: the tests of its pattern, its bindings, its guard and its value. -/
structure ArmCode where
  tests : List Js.Test
  bindings : List Js.Stmt
  guard : Option Js.Expr
  value : List Js.Stmt

namespace ArmCode

/-- The pattern fits whatever the subject is, and there is no guard. -/
def isLast (c : ArmCode) : Bool := c.tests.isEmpty && c.guard.isNone

/-- What an arm does if its pattern fits. -/
def body (c : ArmCode) (label : String) : List Js.Stmt :=
  match c.guard with
  | none => c.bindings ++ c.value ++ [.leave label]
  | some cond => c.bindings ++ [.branch [.mk cond (c.value ++ [.leave label])] none]

/-- The statement of an arm in the block. -/
def statement (c : ArmCode) (label : String) : Js.Stmt :=
  if c.tests.isEmpty then .block none (c.body label)
  else .branch [.mk (.tests c.tests) (c.body label)] none

section Runs

variable {σ : Type} (w : World σ) (c : ArmCode)

/-- How the test of the pattern comes out. Without tests the pattern fits. -/
def Fits (s : σ) (outcome : Option Bool) (t : σ) : Prop :=
  if c.tests.isEmpty then outcome = some true ∧ t = s else w.asks (.tests c.tests) s outcome t

/-- How the guard comes out. A missing guard holds. -/
def Passes (s : σ) (outcome : Option Bool) (t : σ) : Prop :=
  match c.guard with
  | none => outcome = some true ∧ t = s
  | some cond => w.asks cond s outcome t

/-- The pattern fits, the bindings are made, and the guard comes out like this. -/
def Decides (s : σ) (outcome : Option Bool) (t : σ) : Prop :=
  ∃ u v, c.Fits w s (some true) u ∧ blockRuns w c.bindings u .normal v ∧ c.Passes w v outcome t

/-- The pattern does not fit, or the guard says no. -/
def Rejects (s t : σ) : Prop := c.Fits w s (some false) t ∨ c.Decides w s (some false) t

/-- The arm ends before its guard has said yes. -/
def Breaks (s : σ) (k : Completion) (t : σ) : Prop :=
  (k = .abrupt ∧ c.Fits w s none t) ∨
  (k ≠ .normal ∧ ∃ u, c.Fits w s (some true) u ∧ blockRuns w c.bindings u k t) ∨
  (k = .abrupt ∧ c.Decides w s none t)

end Runs

end ArmCode

/-- A run of arms: those before the one with the number are passed over, since pattern or guard do
    not hold, and that one makes its bindings and runs its value. There is no number if no arm is
    taken, or if a test, a binding or a guard fails before. -/
inductive ArmCode.RunsFirst {σ : Type} (w : World σ) :
    List ArmCode → σ → Option Nat → Completion → σ → Prop where
  | none {s : σ} : RunsFirst w [] s none .normal s
  | taken {c : ArmCode} {cs : List ArmCode} {s u t : σ} {k : Completion} :
      c.Decides w s (some true) u → blockRuns w c.value u k t →
      RunsFirst w (c :: cs) s (some 0) k t
  | later {c : ArmCode} {cs : List ArmCode} {s u t : σ} {number : Option Nat} {k : Completion} :
      c.Rejects w s u → RunsFirst w cs u number k t →
      RunsFirst w (c :: cs) s (number.map (· + 1)) k t
  | broken {c : ArmCode} {cs : List ArmCode} {s t : σ} {k : Completion} :
      c.Breaks w s k t → RunsFirst w (c :: cs) s none k t

namespace ArmCode

section Runs

variable {σ : Type} {w : World σ} {c : ArmCode} {s t : σ} {k : Completion} {label : String}

/-- How the value of an arm ends that leaves the block afterwards. -/
def leaving (label : String) (k : Completion) : Completion :=
  if k = .normal then .leaving label else k

theorem leaving_ne_normal (label : String) (k : Completion) : leaving label k ≠ .normal := by
  unfold leaving
  split
  · exact Completion.noConfusion
  · assumption

theorem outOf_leaving (label : String) (k : Completion) :
    (leaving label k).outOf label = k.outOf label := by
  unfold leaving
  split
  · next hk =>
    subst hk
    exact if_pos rfl
  · rfl

theorem Breaks.ne_normal (h : c.Breaks w s k t) : k ≠ .normal := by
  rcases h with ⟨rfl, -⟩ | ⟨hk, -⟩ | ⟨rfl, -⟩
  · exact Completion.noConfusion
  · exact hk
  · exact Completion.noConfusion

theorem runs_body :
    blockRuns w (c.body label) s k t ↔
      (k ≠ .normal ∧ blockRuns w c.bindings s k t) ∨
      ∃ u, blockRuns w c.bindings s .normal u ∧
        ((k = .normal ∧ c.Passes w u (some false) t) ∨ (k = .abrupt ∧ c.Passes w u none t) ∨
          ∃ v j, c.Passes w u (some true) v ∧ blockRuns w c.value v j t ∧ k = leaving label j) := by
  unfold body Passes leaving
  cases c.guard with
  | none =>
    rw [List.append_assoc, Js.blockRuns_append]
    simp only [Js.blockRuns_leave]
    grind
  | some cond =>
    rw [Js.blockRuns_append]
    simp only [Js.blockRuns_singleton, Js.Stmt.Runs, Js.branchRuns, Js.otherwiseRuns,
      Js.blockRuns_leave]
    grind

/-- An arm hands over to the next one, runs its value and leaves the block, or fails. -/
theorem runs_statement :
    (c.statement label).Runs w s k t ↔
      (k = .normal ∧ c.Rejects w s t) ∨
      (∃ u j, c.Decides w s (some true) u ∧ blockRuns w c.value u j t ∧ k = leaving label j) ∨
      c.Breaks w s k t := by
  unfold statement Rejects Breaks Decides Fits
  split
  · rw [Js.Stmt.Runs, runs_body]
    grind
  · simp only [Js.Stmt.Runs, Js.branchRuns, Js.otherwiseRuns, runs_body]
    grind

end Runs

end ArmCode

/-! ## Arms one after the other -/

theorem Emit.exists_of_inScope {α : Type} {x : Emit α} {place : Place} {s t : State} {a : α}
    (h : Emit.inScope x place s = (.ok a, t)) :
    ∃ u, x place { s with scopes := s.scopes.push } = (.ok a, u) := by
  have hok : (x place { s with scopes := s.scopes.push }).1 = .ok a := congrArg Prod.fst h
  exact ⟨_, Prod.ext hok rfl⟩

namespace ArmPlan

variable {label subject : String} {tail : Option Js.Tail} {place : Place} {s t : State}

/-- The code of a guard, if there is one. -/
inductive GuardCode (place : Place) :
    Option (Emit Js.Expr) → State → Option Js.Expr → State → Prop where
  | none {s : State} : GuardCode place none s none s
  | some {guard : Emit Js.Expr} {cond : Js.Expr} {s t : State} :
      guard place s = (.ok cond, t) → GuardCode place (some guard) s (some cond) t

/-- The parts of the code are emitted for the arm in this order: the tests of its pattern and then,
    in a scope of its own, its bindings, its guard and its value. -/
def Emitted (place : Place) (tail : Option Js.Tail) (subject : String) (a : ArmPlan)
    (c : ArmCode) : Prop :=
  ∃ (s u v t : State) (m : Matcher),
    Emit.matcher a.pat subject place s = (.ok m, s) ∧ c.tests = m.tests ∧
    Emit.bindMatched m.bindings place { s with scopes := s.scopes.push } = (.ok c.bindings, u) ∧
    GuardCode place a.guard u c.guard v ∧
    a.body tail place v = (.ok c.value, t)

/-- The codes of the arms in their order. Only what comes after an arm without a guard whose pattern
    always fits is left out. -/
inductive Kept (place : Place) (tail : Option Js.Tail) (subject : String) :
    List ArmPlan → List ArmCode → Prop where
  | nil : Kept place tail subject [] []
  | last {a : ArmPlan} {plans : List ArmPlan} {c : ArmCode} :
      Emitted place tail subject a c → c.isLast = true → Kept place tail subject (a :: plans) [c]
  | cons {a : ArmPlan} {plans : List ArmPlan} {c : ArmCode} {cs : List ArmCode} :
      Emitted place tail subject a c → c.isLast = false → Kept place tail subject plans cs →
      Kept place tail subject (a :: plans) (c :: cs)

theorem exists_emitted {a : ArmPlan} {m : Matcher} {body : List Js.Stmt}
    (hm : Emit.matcher a.pat subject place s = (.ok m, s))
    (h : a.emit m tail [.leave label] place s = (.ok body, t)) :
    ∃ c, Emitted place tail subject a c ∧ c.tests = m.tests ∧ c.guard.isNone = a.guard.isNone ∧
      body = c.body label := by
  rw [emit] at h
  obtain ⟨inner, hinner⟩ := Emit.exists_of_inScope h
  obtain ⟨bindings, u, hbind, hrest⟩ := Emit.exists_of_bind hinner
  cases hguard : a.guard with
  | none =>
    rw [hguard] at hrest
    obtain ⟨value, hvalue, rfl⟩ := Emit.exists_of_return hrest
    exact ⟨⟨m.tests, bindings, none, value⟩,
      ⟨s, u, u, _, m, hm, rfl, hbind, hguard ▸ .none, hvalue⟩, rfl, rfl, rfl⟩
  | some guard =>
    rw [hguard] at hrest
    obtain ⟨cond, value, v, hcond, hvalue, rfl⟩ := Emit.exists_of_both hrest
    exact ⟨⟨m.tests, bindings, some cond, value⟩,
      ⟨s, u, v, _, m, hm, rfl, hbind, hguard ▸ .some hcond, hvalue⟩, rfl, rfl, rfl⟩

theorem exists_kept {plans : List ArmPlan} {stmts : List Js.Stmt}
    (h : sequence label subject tail plans place s = (.ok stmts, t)) :
    ∃ cs, Kept place tail subject plans cs ∧ stmts = cs.map (ArmCode.statement · label) := by
  induction plans generalizing s stmts with
  | nil =>
    cases h
    exact ⟨[], .nil, rfl⟩
  | cons a plans ih =>
    rw [sequence] at h
    obtain ⟨m, u, hm, hrest⟩ := Emit.exists_of_bind h
    obtain ⟨body, v, hbody, hrest⟩ := Emit.exists_of_bind hrest
    -- compiling a pattern leaves the state as it is
    obtain rfl : u = s := (congrArg Prod.snd hm).symm
    obtain ⟨c, hc, htests, hguard, rfl⟩ := exists_emitted hm hbody
    have hirr : m.isIrrefutable = c.tests.isEmpty := by rw [htests]; rfl
    have hlast : c.isLast = (m.isIrrefutable && a.guard.isNone) := by
      rw [ArmCode.isLast, hirr, hguard]
    cases hm' : m.isIrrefutable with
    | false =>
      rw [hm', if_neg Bool.false_ne_true] at hrest
      obtain ⟨more, hmore, rfl⟩ := Emit.exists_of_return hrest
      obtain ⟨cs, hcs, rfl⟩ := ih hmore
      refine ⟨c :: cs, .cons hc (by rw [hlast, hm', Bool.false_and]) hcs, ?_⟩
      rw [List.map_cons, ArmCode.statement, ← hirr, hm', if_neg Bool.false_ne_true, htests]
    | true =>
      have hstatement : Js.Stmt.block none (c.body label) = c.statement label := by
        rw [ArmCode.statement, ← hirr, hm', if_pos rfl]
      rw [hm', if_pos rfl] at hrest
      cases hnone : a.guard.isNone with
      | true =>
        rw [hnone, if_pos rfl] at hrest
        cases hrest
        exact ⟨[c], .last hc (by rw [hlast, hm', hnone, Bool.true_and]), by rw [hstatement]; rfl⟩
      | false =>
        rw [hnone, if_neg Bool.false_ne_true] at hrest
        obtain ⟨more, hmore, rfl⟩ := Emit.exists_of_return hrest
        obtain ⟨cs, hcs, rfl⟩ := ih hmore
        exact ⟨c :: cs, .cons hc (by rw [hlast, hnone, Bool.and_false]) hcs,
          by rw [hstatement]; rfl⟩

end ArmPlan

/-- Statements for arms run the first arm whose pattern and guard hold. -/
theorem ArmCode.runs_statements {σ : Type} {w : World σ} {label : String} {s t : σ}
    {k : Completion} (cs : List ArmCode) :
    blockRuns w (cs.map (ArmCode.statement · label)) s k t ↔
      ∃ number j, RunsFirst w cs s number j t ∧
        k = if number.isSome then leaving label j else j := by
  induction cs generalizing s with
  | nil =>
    constructor
    · rintro ⟨rfl, rfl⟩
      exact ⟨none, .normal, .none, rfl⟩
    · rintro ⟨number, j, hruns, rfl⟩
      cases hruns
      exact ⟨rfl, rfl⟩
  | cons c cs ih =>
    rw [List.map_cons, blockRuns]
    simp only [ArmCode.runs_statement, ih]
    constructor
    · rintro (⟨u, hfirst, number, j, hmore, rfl⟩ | ⟨hk, hfirst⟩)
      · -- only an arm that is passed over ends normally
        rcases hfirst with ⟨-, hrejects⟩ | ⟨v, i, -, -, hleaves⟩ | hbreaks
        · refine ⟨number.map (· + 1), j, .later hrejects hmore, ?_⟩
          rw [Option.isSome_map]
        · exact absurd hleaves.symm (leaving_ne_normal label i)
        · exact absurd rfl hbreaks.ne_normal
      · rcases hfirst with ⟨hnormal, -⟩ | ⟨v, j, hdecides, hvalue, rfl⟩ | hbreaks
        · exact absurd hnormal hk
        · exact ⟨some 0, j, .taken hdecides hvalue, rfl⟩
        · exact ⟨none, k, .broken hbreaks, rfl⟩
    · rintro ⟨number, j, hruns, rfl⟩
      cases hruns with
      | taken hdecides hvalue =>
        exact .inr ⟨leaving_ne_normal label j, .inr (.inl ⟨_, j, hdecides, hvalue, rfl⟩)⟩
      | later hrejects hmore =>
        rw [Option.isSome_map]
        exact .inl ⟨_, .inl ⟨trivial, hrejects⟩, _, j, hmore, rfl⟩
      | broken hbreaks => exact .inr ⟨hbreaks.ne_normal, .inr (.inr hbreaks)⟩

/-! ## Matches -/

theorem isSome_guard_armPlans (expand : MacroCall → Emit Js.Expr) (arms : List Arm) :
    ((Emit.armPlans expand arms).any fun a => a.guard.isSome) =
      arms.any fun a => a.guard.isSome := by
  induction arms with
  | nil => rw [Emit.armPlans]; rfl
  | cons a arms ih =>
    obtain ⟨p, body, guard⟩ := a
    rw [Emit.armPlans, List.any_cons, List.any_cons, ih]
    cases guard <;> rw [Emit.action] <;> rfl

theorem ArmPlan.optionPair?_of_guard {plans : List ArmPlan}
    (h : (plans.any fun a => a.guard.isSome) = true) {found : Option (ArmPlan × ArmPlan)}
    (hfound : optionPair? plans = .ok found) : found = none := by
  obtain ⟨a, b, rfl, -, hforms⟩ | ⟨a, b, rfl, -, hforms⟩ | ⟨hnone, -⟩ := optionPair?_eq_ok hfound
  · simp [formPair] at h hforms
    simp [hforms] at h
  · simp [formPair] at h hforms
    simp [hforms] at h
  · exact hnone

/-- A `match` with a guard holds its subject in a temporary and has its arms in a labelled block.
    The block holds the arms in their order, up to the first without a guard whose pattern always
    fits. Whatever comes of the tests and guards, it runs the bindings and the value of the first
    arm whose pattern fits and whose guard, asked after the bindings, holds or is missing; then it
    is left. -/
theorem guarded_match_runs_first_arm {r : Reader} {subject : Expr} {arms : List Arm}
    {tail : Option Js.Tail} {place : Place} {s t : State} {lines : List Js.Stmt}
    (hguard : (arms.any fun a => a.guard.isSome) = true)
    (hemit : r.emit (.matchOn subject arms) (.statement tail) place s = (.ok lines, t)) :
    ∃ code label block codes,
      lines = [.declare .const (.name (matchTemp s)) (some code), .block (some label) block] ∧
      ArmPlan.Kept place tail (matchTemp s) (Emit.armPlans r.expand arms) codes ∧
      ∀ {σ : Type} (w : World σ) (before after : σ) (k : Completion),
        (Js.Stmt.block (some label) block).Runs w before k after ↔
          ∃ number j, ArmCode.RunsFirst w codes before number j after ∧ k = j.outOf label := by
  rw [Reader.emit, Emit.expr] at hemit
  obtain ⟨temp, u, htemp, hrest⟩ := Emit.exists_of_bind hemit
  obtain ⟨code, rest, v, hcode, harms, rfl⟩ := Emit.exists_of_both hrest
  cases htemp
  rw [← isSome_guard_armPlans r.expand] at hguard
  rw [ArmPlan.arms] at harms
  obtain ⟨found, y, hfound, hladder⟩ := Emit.exists_of_bind harms
  obtain rfl := ArmPlan.optionPair?_of_guard hguard (congrArg Prod.fst hfound)
  rw [ArmPlan.ladder, if_pos hguard] at hladder
  obtain ⟨label, block, z, hlabel, hsequence, rfl⟩ := Emit.exists_of_both hladder
  obtain ⟨codes, hkept, rfl⟩ := ArmPlan.exists_kept hsequence
  refine ⟨code, label, _, codes, rfl, hkept, fun w before after k => ?_⟩
  rw [Js.Stmt.Runs]
  simp only [ArmCode.runs_statements]
  have hends (number : Option Nat) (j : Completion) :
      (if number.isSome then ArmCode.leaving label j else j).outOf label = j.outOf label := by
    cases number with
    | none => rfl
    | some n => exact ArmCode.outOf_leaving label j
  constructor
  · rintro ⟨i, ⟨number, j, hruns, rfl⟩, rfl⟩
    exact ⟨number, j, hruns, hends number j⟩
  · rintro ⟨number, j, hruns, rfl⟩
    exact ⟨_, ⟨number, j, hruns, rfl⟩, (hends number j).symm⟩

/-- `Some(y) if ok => y, z if z => 1, _ => 2, None => 3` -/
def guardedArms : List Arm :=
  [⟨.tupleStruct ["Some"] [.ident "y" false false none], .ident "y", some (.ident "ok")⟩,
   ⟨.ident "z" false false none, .lit (.int 1), some (.ident "z")⟩, ⟨.wild, .lit (.int 2), none⟩,
   ⟨.path ["None"], .lit (.int 3), none⟩]

theorem guardedArms_run :
    ∃ code label block codes,
      ((Reader.ofTable []).emit (.matchOn (.ident "x") guardedArms) (.statement (some .ret))
        {} {}).1 =
        .ok [.declare .const (.name "$match0") (some code), .block (some label) block] ∧
      ArmPlan.Kept {} (some .ret) "$match0"
        (Emit.armPlans (Reader.ofTable []).expand guardedArms) codes ∧
      ∀ {σ : Type} (w : World σ) (before after : σ) (k : Completion),
        (Js.Stmt.block (some label) block).Runs w before k after ↔
          ∃ number j, ArmCode.RunsFirst w codes before number j after ∧ k = j.outOf label := by
  have hok : ((Reader.ofTable []).emit (.matchOn (.ident "x") guardedArms) (.statement (some .ret))
      {} {}).1.toBool = true := by
    decide +kernel
  rcases hemit : (Reader.ofTable []).emit (.matchOn (.ident "x") guardedArms)
    (.statement (some .ret)) {} {} with ⟨e | lines, t⟩
  · rw [hemit] at hok
    cases hok
  · obtain ⟨code, label, block, codes, rfl, hkept, hruns⟩ :=
      guarded_match_runs_first_arm (by decide) hemit
    exact ⟨code, label, block, codes, rfl, hkept, hruns⟩

end RustScript
