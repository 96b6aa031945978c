/-
  What the emission of syntax trees gives.

  The code keeps the rules of a policy, provided that the tree is lawful where the policy asks for
  it, and the function is marked as one that uses `?` exactly if the tree says so. The expansion of
  macro calls is a parameter.
-/
import RustScript.Proofs.Emit.Tree

namespace RustScript

open Js (Policy Around Site)
open Position (TailFit gives_jump gives_assignment)

variable {P : Policy} {here : Setting} {law : Law}

theorem Expr.tries_of_text? {known : KnownTypes} {call : MacroCall → Bool} :
    ∀ {e : Expr}, e.text?.isSome = true → e.tries known call = false
  | .lit _, _ => by rw [Expr.tries]
  | .ref e _, h => tries_of_text? (e := e) (by simpa [Expr.text?, Expr.stripBorrows] using h)
  | .deref e, h => tries_of_text? (e := e) (by simpa [Expr.text?, Expr.stripBorrows] using h)
  | .ident _, h | .path _, h | .paren _, h | .unary .., h | .binary .., h | .assign .., h
  | .call .., h | .methodCall .., h | .field .., h | .index .., h | .structLit .., h
  | .arrayLit _, h | .arrayRepeat .., h | .tupleLit _, h | .closure .., h | .block .., h
  | .ifElse .., h | .ifLet .., h | .whileLoop .., h | .whileLet .., h | .loop .., h
  | .forLoop .., h | .matchOn .., h | .ret _, h | .brk .., h | .cont _, h | .mac _, h
  | .cast .., h | .tryOp _, h | .await _, h | .range .., h | .bare, h => by
    simp [Expr.text?, Expr.stripBorrows] at h

namespace Emit

open RustScript.Expr (isLawful allLawful optionLawful elseLawful anyTries optionTries)

section

-- the law and the expansion of macros are assumed once for the whole recursion
set_option linter.unusedSectionVars false

variable {expand : MacroCall → Emit Js.Expr} {cond : Emit Js.Expr}

theorem exists_gives_closure (serves : law.Serves P) {place : Place} {params : List Param} {body : Expr}
    {isAsync tries : Bool} (hparams : P.Lets (params.all fun p => p.pat.isLawful law))
    (hblock : ∀ stmts, body = .block stmts false none →
      GivesLines P ⟨place, .body isAsync⟩ tries (inScope (block expand stmts (some .ret))))
    (hstmt : GivesLines P ⟨place, .body isAsync⟩ tries (expr expand body (.statement (some .ret))))
    (hvalue : GivesValue P ⟨place, .body isAsync⟩ tries (expr expand body .value)) (mode : Mode) :
    ∃ x : Emit Js.Expr, Gives P ⟨place, mode⟩ false x (fun _ code => IsClosure P tries code) ∧
      ∀ pos, expr expand (.closure params body isAsync) pos = pos.plain x := by
  by_cases hplain : ∃ stmts, body = .block stmts false none
  · obtain ⟨stmts, rfl⟩ := hplain
    refine ⟨_, .closure serves hparams ?_, fun pos => by rw [expr]⟩
    exact (hblock stmts rfl).map fun _ _ hlines => hlines
  · refine ⟨_, .closure serves hparams ?_, fun pos =>
      expr_closure expand fun stmts hbody => hplain ⟨stmts, hbody⟩⟩
    split
    · exact hstmt.map fun _ _ hlines => hlines
    · exact hvalue.map fun _ _ hcode => hcode

theorem gives_conditional {yes no : Option (Emit Js.Expr)} {a b c : Bool}
    (hcond : GivesValue P here a cond) (hyes : ∀ x ∈ yes, GivesValue P here b x)
    (hno : ∀ x ∈ no, GivesValue P here c x) :
    ∀ x ∈ (match yes, no with
      | some yes, some no => some (ternary cond yes no)
      | _, _ => none), GivesValue P here (a || (b || c)) x := by
  intro x hx
  split at hx
  · cases hx
    exact .ternary hcond (hyes _ rfl) (hno _ rfl)
  · cases hx

theorem isSome_blockValue? (expand : MacroCall → Emit Js.Expr) : ∀ stmts : List Stmt,
    (blockValue? expand stmts).isSome = Expr.hasValue stmts
  | [.expr e false] => by
    rw [blockValue?, Expr.hasValue]
    cases e.needsStatement <;> rfl
  | [.mac m false] => by
    rw [blockValue?, Expr.hasValue]
    cases m.isValue <;> rfl
  | [] | [.expr _ true] | [.mac _ true] | [.letIn ..] | [.item _] | [.bare] | _ :: _ :: _ => by
    rw [blockValue?, Expr.hasValue] <;> simp

theorem isSome_elseValue? (expand : MacroCall → Emit Js.Expr) : ∀ orelse : Option Expr,
    (elseValue? expand orelse).isSome = Expr.elseHasValue orelse
  | none => by simp [elseValue?, Expr.elseHasValue]
  | some e => by
    cases e with
    | ifElse cond stmts orelse =>
      have hbody := isSome_blockValue? expand stmts
      have hrest := isSome_elseValue? expand orelse
      rw [elseValue?, Expr.elseHasValue, ← hbody, ← hrest]
      cases blockValue? expand stmts <;> cases elseValue? expand orelse <;> rfl
    | block stmts isAsync label =>
      rcases isAsync with _ | _ <;> rcases label with _ | label
      · exact isSome_blockValue? expand stmts
      all_goals simp [elseValue?, Expr.elseHasValue]
    | _ => simp [elseValue?, Expr.elseHasValue]

theorem hasValue_of_conditional {stmts : List Stmt} {orelse : Option Expr}
    (h : (match blockValue? expand stmts, elseValue? expand orelse with
      | some yes, some no => some (ternary cond yes no)
      | _, _ => none) = none) : (Expr.hasValue stmts && Expr.elseHasValue orelse) = false := by
  rw [← isSome_blockValue? expand, ← isSome_elseValue? expand]
  split at h
  · cases h
  · next hno =>
    cases hyes : blockValue? expand stmts with
    | none => rfl
    | some yes =>
      cases hother : elseValue? expand orelse with
      | none => rfl
      | some no => exact absurd hother (hno yes no hyes)

theorem isBounded_range? (expand : MacroCall → Emit Js.Expr) : ∀ e : Expr,
    (range? expand e).any RangePlan.isBounded = e.isBounded
  | .paren e => isBounded_range? expand e
  | .range start stop inclusive => by
    cases start <;> cases stop <;> simp [range?, Expr.isBounded, RangePlan.isBounded, bound]
  | .lit _ | .ident _ | .path _ | .unary .. | .binary .. | .assign .. | .call .. | .methodCall ..
  | .field .. | .index .. | .structLit .. | .arrayLit _ | .arrayRepeat .. | .tupleLit _
  | .closure .. | .block .. | .ifElse .. | .ifLet .. | .whileLoop .. | .whileLet .. | .loop ..
  | .forLoop .. | .matchOn .. | .ret _ | .brk .. | .cont _ | .mac _ | .ref .. | .deref _
  | .cast .. | .tryOp _ | .await _ | .bare => by simp [range?, Expr.isBounded]

theorem isCounted_of_source? {e : Expr} (h : source? expand e = none) (pat : Pat) :
    e.isCounted pat = false := by
  cases e with
  | range start stop inclusive => simp [source?] at h
  | methodCall receiver method args =>
    cases args with
    | nil =>
      rw [source?] at h
      rw [Expr.isCounted]
      split at h
      · have hnone : range? expand receiver = none := by simpa using h
        rw [← isBounded_range? expand, hnone]
        simp
      · next hrev => simp [hrev]
    | cons _ _ => simp [Expr.isCounted]
  | _ => simp [Expr.isCounted]

variable {place : Place} (serves : law.Serves P) (hknows : law.Knows place)
  (lawful : Mode → MacroCall → Bool) (tries : MacroCall → Bool)
  (hexpand : ∀ m mode, P.Lets (lawful mode m) → GivesValue P ⟨place, mode⟩ (tries m) (expand m))

include serves hknows hexpand

omit hknows hexpand in
theorem mode_ne_helper {mode : Mode} (h : P.Lets (law.control mode)) (hP : P.awaits) :
    mode ≠ .helper := by
  rintro rfl
  have hcontrol := h (.inr (.inr hP))
  rw [serves.control hP] at hcontrol
  cases hcontrol

mutual

theorem gives_expr {mode : Mode} {pos : Position} (hpos : pos.Fit P) : ∀ e : Expr,
    P.Lets (e.isLawful law lawful mode) →
      Gives P ⟨place, mode⟩ (e.tries place.known tries) (expr expand e pos) (pos.Obeys P e.summands)
  | .lit value, _ => hpos.literal (fun _ => rfl) (Gives.literal value)
  | .ident name, h => hpos.plain (Gives.atom (Gives.ident (serves.plain h)))
  | .path segments, h => hpos.plain (Gives.path serves h)
  | .paren e, h => by
    refine hpos.plain ((gives_expr .value e h).map fun _ _ hcode => ?_)
    exact hcode
  | .unary op e, h => by
    have hoperand := (gives_expr .value e h).map fun _ _ hcode =>
      Js.Expr.Obeys.parenIf hcode e.isCompound
    exact hpos.plain (Gives.unary hoperand)
  | .binary op l r, h => by
    simp only [isLawful, lets_and] at h
    obtain ⟨⟨hsum, hl⟩, hr⟩ := h
    have hparts : Gives P ⟨place, mode⟩ (l.tries place.known tries || r.tries place.known tries) (do
        let left ← expr expand l .part
        return left ++ (← expr expand r .part))
        (Position.part.Obeys P (l.summands ++ r.summands)) := by
      refine (gives_expr .part l hl).bind fun left => ?_
      refine (gives_expr .part r hr).map fun site right hright hleft => ?_
      refine ⟨?_, Js.partsObey_append.mpr ⟨hleft.2, hright.2⟩⟩
      rw [List.map_append, hleft.1, hright.1]
    have hrow : op = "+" → P.neutral → Js.joinsSafely (l.summands ++ r.summands) = true := by
      rintro rfl hP
      have hsafe := serves.sum hP _ (hsum (.inl hP))
      rwa [Expr.summands, if_pos (beq_self_eq_true _)] at hsafe
    have hleft := (gives_expr .value l hl).map fun _ _ hcode =>
      Js.Expr.Obeys.parenIf hcode (l.isLooseIn op)
    have hright := (gives_expr .value r hr).map fun _ _ hcode =>
      Js.Expr.Obeys.parenIf hcode (r.isLooseIn op)
    exact hpos.sum hparts (Gives.binary hparts hrow hleft hright)
  | .assign target value op, h => by
    simp only [isLawful, lets_and] at h
    exact gives_assignment (Gives.assign (gives_expr .value target h.1)
      (gives_expr .value value h.2))
  | .call func args, h => by
    simp only [isLawful, lets_and] at h
    obtain ⟨hfunc, hargs⟩ := h
    have hargs := gives_exprs args hargs
    have hcall : GivesValue P ⟨place, mode⟩
        (func.tries place.known tries || anyTries place.known tries args) (do
          let callee ← expr expand func .value
          return .call (callee.parenIf func.isClosure) (← exprs expand args)) := by
      refine (gives_expr .value func hfunc).bind fun callee => ?_
      refine hargs.map fun site codes hcodes hcallee => ?_
      exact ⟨Js.Expr.Obeys.parenIf hcallee _, hcodes⟩
    cases func with
    | ident name =>
      refine hpos.plain ((hargs.bind fun codes => ?_).congr (Bool.or_false _))
      split
      · next code hcode => exact .pure fun _ hcodes => obeys_wrapped? hcodes hcode
      · exact .callName (serves.plain hfunc) codes
    | path segments =>
      refine hpos.plain (Gives.ofExceptBind fun name _ => ?_)
      refine (hargs.bind fun codes => ?_).congr (Bool.or_false _)
      split
      · next code hcode => exact .pure fun _ hcodes => obeys_wrapped? hcodes hcode
      · exact .callPath serves hfunc codes
    | _ => exact hpos.plain hcall
  | .methodCall receiver method args, h => by
    simp only [isLawful, lets_and] at h
    obtain ⟨⟨hmethod, hreceiver⟩, hargs⟩ := h
    refine hpos.plain ((gives_expr .value receiver hreceiver).bind
      fun recv => (gives_exprs args hargs).map fun site codes hcodes hrecv => ?_)
    exact obeys_methodCall (serves.plain hmethod) (Js.Expr.Obeys.parenIf hrecv _) hcodes
  | .field obj name, h => by
    simp only [isLawful, lets_and] at h
    refine hpos.plain ((gives_expr .value obj h.2).map fun site code hcode => ?_)
    exact obeys_field (Js.Expr.Obeys.parenIf hcode _) (serves.plain h.1)
  | .index obj index, h => by
    have hindex (hobj : P.Lets (obj.isLawful law lawful mode))
        (hi : P.Lets (index.isLawful law lawful mode)) :=
      (gives_expr .value obj hobj).bind fun code =>
        (gives_expr .value index hi).map fun site i hi hcode =>
          Js.Expr.Obeys.index (Js.Expr.Obeys.parenIf hcode obj.isCompoundTarget) hi
    cases index with
    | range start stop inclusive =>
      simp only [isLawful, lets_and] at h
      obtain ⟨⟨hobj, hstart⟩, hstop⟩ := h
      refine hpos.plain ((gives_expr .value obj hobj).bind fun code => ?_)
      have hslice := RangePlan.gives_slice (r := ⟨_, _, inclusive⟩)
        ⟨gives_bound start hstart, gives_bound stop hstop⟩
        (code.parenIf obj.isCompoundTarget)
      exact hslice.mono fun site e he hcode => he (Js.Expr.Obeys.parenIf hcode _)
    | _ =>
      rw [isLawful] at h
      · simp only [lets_and] at h
        rw [expr]
        · exact hpos.plain (hindex h.1 h.2)
        · simp
      · simp
  | .structLit segments fields base, h => by
    simp only [isLawful, lets_and] at h
    obtain ⟨⟨hpath, hfields⟩, hbase⟩ := h
    have hbase := gives_action base hbase
    have hgiven : law.fillsIn segments (action expand base) = law.fillsIn segments base := by
      cases base <;> rfl
    refine hpos.plain ?_
    cases hfills : law.fillsIn segments base with
    | true =>
      rw [hfills, if_pos rfl] at hfields
      have hfields : Gives P (Setting.inHelper ⟨place, mode⟩) _ _ _ :=
        gives_fieldInits fields hfields
      refine hfields.inHelper.bind fun values => ?_
      exact (Gives.structLit serves hknows hpath hbase values).mono fun site code hcode hvalues =>
        hcode (hvalues site.isAsync) fun _ => hvalues false
    | false =>
      rw [hfills, if_neg Bool.false_ne_true] at hfields
      refine (gives_fieldInits fields hfields).bind fun values => ?_
      refine (Gives.structLit serves hknows hpath hbase values).mono
        fun site code hcode hvalues => hcode hvalues fun hfilled => ?_
      rw [hgiven, hfills] at hfilled
      cases hfilled
  | .arrayLit elems, h => by
    refine hpos.plain ((gives_exprs elems h).map fun site codes hcodes => ?_)
    exact hcodes
  | .arrayRepeat value count, h => by
    simp only [isLawful, lets_and] at h
    have hvalue : GivesValue P (Setting.inHelper ⟨place, mode⟩) _ _ := gives_expr .value value h.1
    exact hpos.plain (hvalue.inHelper.bind fun value =>
      (gives_expr .value count h.2).map fun site count hcount hvalue =>
        obeys_repeated hvalue hcount)
  | .tupleLit [], _ => by
    refine hpos.plain (Gives.pure fun _ => ?_)
    exact .code (by decide)
  | .tupleLit (e :: es), h => by
    simp only [isLawful, allLawful, lets_and] at h
    refine hpos.plain ((gives_expr .value e h.1).bind fun first =>
      (gives_exprs es h.2).map fun site codes hcodes hfirst => ?_)
    exact ⟨hfirst, hcodes⟩
  | .closure params body isAsync, h => by
    simp only [isLawful, lets_and] at h
    obtain ⟨hparams, hlawful⟩ := h
    have hstmt := gives_expr (.statement .ret) body hlawful
    have hvalue := gives_expr .value body hlawful
    have hblock : ∀ stmts, body = .block stmts false none →
        GivesLines P ⟨place, .body isAsync⟩ (body.tries place.known tries)
          (inScope (block expand stmts (some .ret))) := by
      cases body with
      | block stmts isAsyncBlock label =>
        intro stmts' heq
        cases heq
        simp only [isLawful, Bool.false_eq_true, if_false, lets_and]
          at hlawful
        exact (gives_block .ret stmts hlawful.2.2).inScope
      | _ => simp
    obtain ⟨x, hx, hexpr⟩ := exists_gives_closure serves hparams hblock hstmt hvalue mode
    rw [hexpr]
    exact hpos.plain (hx.mono fun site code hcode => hcode.obeys site.toAround)
  | .block stmts true label, h => by
    simp only [isLawful, if_true, lets_and] at h
    have hbody := (gives_block .ret stmts h.2).inScope
    refine hpos.plain ((Gives.asyncBlock hbody).mono fun site code hcode => ?_)
    obtain ⟨lines, hlines, rfl⟩ := hcode
    simp only [Js.Expr.Obeys, Js.exprsObey, and_true]
    exact ⟨hlines.params, hlines.body⟩
  | .block stmts false label, h => by
    simp only [isLawful, Bool.false_eq_true, if_false, lets_and] at h
    obtain ⟨hlabel, hcontrol, hstmts⟩ := h
    exact hpos.control (mode_ne_helper serves hcontrol) fun tail htail =>
      Gives.blockStmt serves hlabel htail (gives_block htail stmts hstmts).inScope
  | .ifElse cond stmts orelse, h => by
    simp only [isLawful, lets_and] at h
    obtain ⟨⟨⟨hcontrol, hcond⟩, hstmts⟩, horelse⟩ := h
    have hcond := gives_expr .value cond hcond
    refine hpos.either (fun hnone => ?_) ?_ fun tail htail => ?_
    · refine mode_ne_helper serves fun hP => ?_
      have hlawful := hcontrol hP
      rwa [hasValue_of_conditional hnone, Bool.or_false] at hlawful
    · exact gives_conditional hcond (gives_blockValue? stmts hstmts)
        (gives_elseValue? orelse horelse)
    · have hbody := (gives_block htail stmts hstmts).inScope.within Site.inner
        fun _ _ => Fits.inner
      refine hcond.bind fun cond => hbody.bind fun body => ?_
      refine (gives_elseBranches htail orelse horelse).map
        fun site rest hrest hbody hcond => ?_
      rw [Js.blockObeys_singleton, Js.Stmt.obeys_branch]
      exact ⟨⟨hcond, hbody, hrest.1⟩, hrest.2⟩
  | .ifLet pat value stmts orelse, h => by
    simp only [isLawful, lets_and] at h
    obtain ⟨⟨⟨⟨hcontrol, hpat⟩, hvalue⟩, hstmts⟩, horelse⟩ := h
    exact hpos.control (mode_ne_helper serves hcontrol) fun tail htail =>
      Gives.ifLet serves hpat
      (gives_expr .value value hvalue) (gives_block htail stmts hstmts).inScope
      (gives_elseBranches htail orelse horelse)
  | .whileLoop cond stmts label, h => by
    simp only [isLawful, lets_and] at h
    obtain ⟨⟨⟨hcontrol, hlabel⟩, hcond⟩, hstmts⟩ := h
    exact hpos.control (mode_ne_helper serves hcontrol) fun _ _ =>
      Gives.whileLoop serves hlabel
      (gives_expr .value cond hcond)
      (gives_block .none stmts hstmts).inScope
  | .whileLet pat value stmts label, h => by
    simp only [isLawful, lets_and] at h
    obtain ⟨⟨⟨⟨hcontrol, hlabel⟩, hpat⟩, hvalue⟩, hstmts⟩ := h
    exact hpos.control (mode_ne_helper serves hcontrol) fun _ _ =>
      Gives.whileLet serves hpat hlabel
      (gives_expr .value value hvalue)
      (gives_block .none stmts hstmts).inScope
  | .loop stmts label, h => by
    simp only [isLawful, lets_and] at h
    obtain ⟨⟨hcontrol, hlabel⟩, hstmts⟩ := h
    exact hpos.control (mode_ne_helper serves hcontrol) fun tail htail =>
      Gives.endlessLoop serves hlabel htail
        (gives_block .none stmts hstmts).inScope
  | .forLoop pat iter stmts label, h => by
    simp only [isLawful, lets_and] at h
    obtain ⟨⟨⟨⟨hcontrol, hlabel⟩, hpat⟩, hiter⟩, hstmts⟩ := h
    have hsource : ((source? expand iter).getD (.elements (expr expand iter .value))).Gives P
        ⟨place, mode⟩ pat (iter.tries place.known tries) := by
      cases hfound : source? expand iter with
      | none =>
        rw [isCounted_of_source? hfound, if_neg Bool.false_ne_true] at hiter
        exact gives_expr .value iter hiter
      | some source => exact gives_source? iter mode hiter source hfound
    exact hpos.control (mode_ne_helper serves hcontrol) fun _ _ =>
      Gives.forLoop serves hpat hlabel hsource
        (gives_block .none stmts hstmts).inScope
  | .matchOn subject arms, h => by
    simp only [isLawful, lets_and] at h
    obtain ⟨⟨hcontrol, hsubject⟩, harms⟩ := h
    refine hpos.control (mode_ne_helper serves hcontrol) fun tail htail => ?_
    refine (Gives.fresh "match" (by decide)).bindFact fun temp htemp => ?_
    refine (gives_expr .value subject hsubject).bind fun code => ?_
    have harms := ArmPlan.gives_arms serves htemp.text htail (gives_armPlans arms harms)
    refine harms.map fun site lines hlines hcode => ?_
    exact ⟨⟨htemp.text, hcode⟩, hlines⟩
  | .ret value, h => gives_jump (Gives.returnWith (gives_action value h))
  | .brk label value, h => by
    simp only [isLawful, lets_and] at h
    exact gives_jump (Gives.breakTo serves h.1 (gives_action value h.2))
  | .cont label, h => gives_jump (Gives.continueTo serves h)
  | .mac m, h => hpos.plain (hexpand m mode h)
  | .ref e isMutable, h => hpos.literal Expr.tries_of_text?
      ((gives_expr .value e h).map fun _ _ hcode => obeys_borrow hcode)
  | .deref e, h => hpos.literal Expr.tries_of_text? (gives_expr .value e h)
  | .cast e ty, h => by
    simp only [isLawful, lets_and] at h
    have htype : P.Text ("/* as " ++ Text.strip ty ++ " */") :=
      fun hP => serves.cast hP ty (h.1 (.inl hP))
    refine hpos.plain ((gives_expr .value e h.2).map fun site code hcode => ?_)
    generalize hresult : Idiom.cast code ty = result
    exact Idiom.obeys_cast hcode htype hresult
  | .tryOp e, h => hpos.plain (Gives.tryOp (gives_expr .value e h))
  | .await e, h => by
    simp only [isLawful, lets_and] at h
    exact hpos.plain (Gives.await serves h.1 (gives_expr .value e h.2))
  | .range start stop inclusive, h => by
    simp only [isLawful, lets_and] at h
    exact hpos.plain (RangePlan.gives_value ⟨gives_bound start h.1, gives_bound stop h.2⟩)
  | .bare, _ => hpos.plain (Gives.refuse _)

theorem gives_exprs {mode : Mode} : ∀ es : List Expr, P.Lets (allLawful law lawful mode es) →
    Gives P ⟨place, mode⟩ (anyTries place.known tries es) (exprs expand es) fun site codes =>
      Js.exprsObey P site.toAround codes
  | [], _ => by
    refine .pure fun _ => ?_
    trivial
  | e :: es, h => by
    simp only [allLawful, lets_and] at h
    refine (gives_expr .value e h.1).bind fun code => ?_
    refine (gives_exprs es h.2).map fun site codes hcodes hcode => ?_
    exact ⟨hcode, hcodes⟩

theorem gives_action {mode : Mode} : ∀ value : Option Expr,
    P.Lets (optionLawful law lawful mode value) →
      GivesAction P ⟨place, mode⟩ (optionTries place.known tries value) (action expand value)
  | none, _ => by rfl
  | some e, h => gives_expr .value e h

theorem gives_bound {mode : Mode} : ∀ value : Option Expr,
    P.Lets (optionLawful law lawful mode value) →
      GivesAction P ⟨place, mode⟩ (optionTries place.known tries value)
        ((bound expand value).map BoundPlan.code)
  | none, _ => by rfl
  | some e, h => gives_expr .value e h

theorem gives_fieldInits {mode : Mode} : ∀ fields : List FieldInit,
    P.Lets (FieldInit.allLawful law lawful mode fields) →
      Gives P ⟨place, mode⟩ (FieldInit.anyTries place.known tries fields) (fieldInits expand fields)
        fun site values => FieldsObey P site.toAround values
  | [], _ => .pure fun _ v hv => nomatch hv
  | ⟨name, value⟩ :: fields, h => by
    simp only [FieldInit.allLawful, lets_and] at h
    obtain ⟨⟨hname, hvalue⟩, hfields⟩ := h
    refine (gives_expr .value value hvalue).bind fun code => ?_
    refine (gives_fieldInits fields hfields).map fun site values hvalues hcode => ?_
    exact List.forall_mem_cons.mpr ⟨⟨serves.plain hname, hcode⟩, hvalues⟩

theorem gives_blockValue? {mode : Mode} : ∀ stmts : List Stmt,
    P.Lets (Stmt.allLawful law lawful mode stmts) →
      ∀ x ∈ blockValue? expand stmts,
        GivesValue P ⟨place, mode⟩ (Stmt.anyTries place.known tries stmts) x
  | [.expr e false], h => by
    simp only [Stmt.allLawful, Stmt.isLawful, Bool.and_true] at h
    have he := gives_expr .value e h
    simp only [blockValue?, Stmt.anyTries, Stmt.tries, Bool.or_false]
    split
    · simp
    · simp only [Option.mem_some_iff, forall_eq']
      exact he
  | [.mac m false], h => by
    simp only [Stmt.allLawful, Stmt.isLawful, Bool.and_true] at h
    have hm := hexpand m mode h
    simp only [blockValue?, Stmt.anyTries, Stmt.tries, Bool.or_false]
    split
    · simpa using hm
    · simp
  | [], _ | [.expr _ true], _ | [.mac _ true], _ | [.letIn ..], _ | [.item _], _
  | [.bare], _ | _ :: _ :: _, _ => by
    rw [blockValue?]
    all_goals simp

theorem gives_elseValue? {mode : Mode} : ∀ orelse : Option Expr,
    P.Lets (elseLawful law lawful mode orelse) →
      ∀ x ∈ elseValue? expand orelse,
        GivesValue P ⟨place, mode⟩ (optionTries place.known tries orelse) x
  | none, _ => by simp [elseValue?]
  | some e, h => by
    cases e with
    | ifElse cond stmts orelse =>
      simp only [elseLawful, isLawful, lets_and] at h
      obtain ⟨⟨⟨-, hcond⟩, hstmts⟩, horelse⟩ := h
      exact gives_conditional (gives_expr .value cond hcond)
        (gives_blockValue? stmts hstmts) (gives_elseValue? orelse horelse)
    | block stmts isAsync label =>
      rcases isAsync with _ | _ <;> rcases label with _ | label
      · exact gives_blockValue? stmts h
      all_goals simp [elseValue?]
    | _ => simp [elseValue?]

theorem gives_elseBranches {mode : Mode} {tail : Option Js.Tail} (htail : TailFit P tail) :
    ∀ orelse : Option Expr, P.Lets (elseLawful law lawful mode orelse) →
      Gives P ⟨place, mode⟩ (optionTries place.known tries orelse) (elseBranches expand orelse tail)
        (Gives.ElseObeys P)
  | none, _ => by
    refine .pure fun _ => ?_
    exact ⟨trivial, trivial⟩
  | some e, h => by
    have hlast {x : Emit (List Js.Stmt)} {b : Bool} (hx : GivesLines P ⟨place, mode⟩ b x) :
        Gives P ⟨place, mode⟩ b (do return (([], some (← inScope x)) : Else))
          (Gives.ElseObeys P) := by
      refine (hx.inScope.within Site.inner fun _ _ => Fits.inner).map fun site lines hlines => ?_
      exact ⟨trivial, hlines⟩
    have hother := fun hlawful => hlast (gives_expr (.statement htail) e hlawful)
    cases e with
    | ifElse cond stmts orelse =>
      simp only [elseLawful, isLawful, lets_and] at h
      obtain ⟨⟨⟨-, hcond⟩, hstmts⟩, horelse⟩ := h
      have hbody := (gives_block htail stmts hstmts).inScope.within Site.inner
        fun _ _ => Fits.inner
      refine (gives_expr .value cond hcond).bind fun cond => hbody.bind fun body => ?_
      refine (gives_elseBranches htail orelse horelse).map
        fun site rest hrest hbody hcond => ?_
      exact ⟨⟨hcond, hbody, hrest.1⟩, hrest.2⟩
    | block stmts isAsync label =>
      cases isAsync with
      | false => exact hlast (gives_block htail stmts h)
      | true =>
        rw [elseLawful] at h
        · rw [elseBranches]
          · exact hother h
          all_goals simp
        · simp
    | _ =>
      rw [elseLawful] at h
      · rw [elseBranches]
        · exact hother h
        all_goals simp
      · simp

theorem gives_armPlans {mode : Mode} : ∀ arms : List Arm,
    P.Lets (Arm.allLawful law lawful mode arms) →
    List.Forall₂ (ArmPlan.Serves P ⟨place, mode⟩ law tries) (armPlans expand arms) arms
  | [], _ => .nil
  | ⟨pat, body, guard⟩ :: arms, h => by
    simp only [Arm.allLawful, lets_and] at h
    obtain ⟨⟨⟨hpat, hbody⟩, hguard⟩, harms⟩ := h
    have hstmt := fun tail (htail : TailFit P tail) => gives_expr (.statement htail) body hbody
    have hblock : ∀ stmts, body = .block stmts false none → ∀ tail, TailFit P tail →
        GivesLines P ⟨place, mode⟩ (body.tries place.known tries)
          (inScope (block expand stmts tail)) := by
      cases body with
      | block stmts isAsync label =>
        intro stmts' heq tail htail
        cases heq
        simp only [isLawful, Bool.false_eq_true, if_false, lets_and] at hbody
        exact (gives_block htail stmts hbody.2.2).inScope
      | _ => simp
    have hguards : (action expand guard).isSome = guard.isSome := by cases guard <;> simp [action]
    rw [armPlans]
    refine .cons ⟨⟨rfl, hguards⟩, hpat, gives_action guard hguard, fun tail htail => ?_⟩
      (gives_armPlans arms harms)
    split
    · exact hblock _ rfl tail htail
    · exact hstmt tail htail

theorem gives_source? (e : Expr) (mode : Mode) {pat : Pat}
    (h : P.Lets (if e.isCounted pat then e.boundsLawful law lawful mode
      else e.isLawful law lawful mode)) :
    ∀ source ∈ source? expand e, source.Gives P ⟨place, mode⟩ pat (e.tries place.known tries) := by
  cases e with
  | range start stop inclusive =>
    have hbounded : RangePlan.isBounded ⟨bound expand start, bound expand stop, inclusive⟩ =
        (start.isSome && stop.isSome) := by
      cases start <;> cases stop <;> simp [RangePlan.isBounded, bound]
    rw [Expr.isCounted, Bool.and_assoc, ← hbounded] at h
    simp only [source?, Option.mem_some_iff, forall_eq', Expr.tries]
    refine ⟨_, _, rfl, ?_⟩
    split at h
    · next hcounted =>
      simp only [Expr.boundsLawful, lets_and] at h
      rw [if_pos hcounted]
      exact ⟨gives_bound start h.1, gives_bound stop h.2⟩
    · next hbuilt =>
      simp only [isLawful, lets_and] at h
      rw [if_neg hbuilt]
      exact ⟨gives_bound start h.1, gives_bound stop h.2⟩
  | methodCall receiver method args =>
    cases args with
    | nil =>
      intro source hsource
      rw [source?] at hsource
      rw [Expr.isCounted] at h
      rw [Expr.tries, anyTries, Bool.or_false]
      split at hsource
      · next hrev =>
        obtain ⟨plan, hplan, rfl⟩ := Option.map_eq_some_iff.mp hsource
        have hbounded : plan.isBounded = receiver.isBounded := by
          rw [← isBounded_range? expand, hplan]
          rfl
        rw [hrev, Bool.and_true, ← hbounded] at h
        split at h
        · next hcounted =>
          have hrange := gives_range? receiver mode mode (.inl ⟨rfl, h⟩) plan hplan
          obtain ⟨first, last, htries, hgives⟩ := hrange
          refine ⟨first, last, htries, ?_⟩
          rw [if_pos hcounted]
          exact hgives
        · next hbuilt =>
          simp only [isLawful, lets_and] at h
          have hrange := gives_range? receiver mode mode.inHelper (.inr ⟨rfl, h.1.2⟩) plan hplan
          obtain ⟨first, last, htries, hgives⟩ := hrange
          refine ⟨first, last, htries, ?_⟩
          rw [if_neg hbuilt]
          exact hgives
      · next hrev =>
        simp only [Bool.eq_false_iff.mpr hrev, Bool.and_false, Bool.false_and, Bool.false_eq_true,
          if_false, isLawful, lets_and] at h
        split at hsource
        · cases hsource
          exact gives_expr .value receiver h.1.2
        · cases hsource
    | cons _ _ => simp [source?]
  | _ => simp [source?]

theorem gives_range? (e : Expr) (mode low : Mode)
    (h : low = mode ∧ (P.Lets (e.boundsLawful law lawful mode)) ∨
      low = mode.inHelper ∧ (P.Lets (e.isLawful law lawful mode))) :
    ∀ plan ∈ range? expand e, ∃ first last, e.tries place.known tries = (first || last) ∧
      plan.Gives P ⟨place, low⟩ ⟨place, mode⟩ first last := by
  cases e with
  | paren e => exact gives_range? e mode low h
  | range start stop inclusive =>
    simp only [Expr.boundsLawful, isLawful, lets_and] at h
    simp only [range?, Option.mem_some_iff, forall_eq', Expr.tries]
    obtain ⟨rfl, hstart, hstop⟩ | ⟨rfl, hstart, hstop⟩ := h
    · exact ⟨_, _, rfl, gives_bound start hstart, gives_bound stop hstop⟩
    · exact ⟨_, _, rfl, gives_bound start hstart, gives_bound stop hstop⟩
  | _ => simp [range?]

theorem gives_block {mode : Mode} {tail : Option Js.Tail} (htail : TailFit P tail) :
    ∀ stmts : List Stmt, P.Lets (Stmt.allLawful law lawful mode stmts) →
      GivesLines P ⟨place, mode⟩ (Stmt.anyTries place.known tries stmts) (block expand stmts tail)
  | [], _ => by
    refine .pure fun _ => ?_
    trivial
  | [s], h => by
    simp only [Stmt.allLawful, Bool.and_true] at h
    rw [block, Stmt.anyTries, Stmt.anyTries, Bool.or_false]
    exact gives_stmt htail s h
  | s :: t :: ss, h => by
    rw [Stmt.allLawful] at h
    simp only [lets_and] at h
    rw [block, Stmt.anyTries]
    · refine (gives_stmt .none s h.1).bind fun lines => ?_
      exact (gives_block htail (t :: ss) h.2).map fun site rest hrest hlines =>
        Js.blockObeys_append.mpr ⟨hlines, hrest⟩
    · simp

theorem gives_stmt {mode : Mode} {tail : Option Js.Tail} (htail : TailFit P tail) :
    ∀ s : Stmt, P.Lets (s.isLawful law lawful mode) →
      GivesLines P ⟨place, mode⟩ (s.tries place.known tries) (stmt expand s tail)
  | .letIn pat (some init) _ (some orelse), h => by
    simp only [Stmt.isLawful, lets_and] at h
    obtain ⟨⟨hpat, hinit⟩, horelse⟩ := h
    exact .letElse serves hpat (gives_expr .value init hinit)
      (gives_block .none orelse horelse).inScope
  | .letIn _ none _ (some _), _ => .throw _
  | .letIn pat none _ none, h => by
    simp only [Stmt.isLawful, lets_and] at h
    exact .letBare serves h.1
  | .letIn pat (some init) _ none, h => by
    simp only [Stmt.isLawful, optionLawful, lets_and] at h
    have hstmt := fun tail (htail : TailFit P tail) => gives_expr (.statement htail) init h.2
    have hvalue := gives_expr .value init h.2
    cases pat with
    | wild => exact hstmt none .none
    | _ =>
      rw [stmt]
      · split
        · exact .letControl serves h.1 fun tail htail => hstmt (some tail) htail
        · exact .letValue serves h.1 hvalue
      · simp
  | .expr e true, h => gives_expr (.statement .none) e h
  | .expr e false, h => gives_expr (.statement htail) e h
  | .mac m semi, h => .macroStmt (hexpand m mode h) htail
  | .item (.fn decl), h => by
    rw [Stmt.isLawful] at h
    have hname : P.Lets (law.name decl.ident) := by
      intro hP
      obtain ⟨ident, params, body, receiver, ret, isAsync⟩ := decl
      have hlawful := h hP
      simp only [FnDecl.isLawful, Bool.and_eq_true] at hlawful
      exact hlawful.1.1
    rw [stmt, Stmt.tries]
    · refine (Gives.declare (serves.plain hname)).bindFact fun name hname => ?_
      refine (gives_fn decl h).map fun site result hfunction => ?_
      rw [Js.blockObeys_singleton, Js.Stmt.Obeys]
      exact ⟨hname.text, hfunction.params, hfunction.body⟩
    all_goals simp
  | .item (.const ⟨ident, value, _, _⟩), h => by
    simp only [Stmt.isLawful, lets_and] at h
    refine ((gives_expr .value value h.2).bind fun code => ?_).congr (Bool.or_false _)
    refine (Gives.declare (serves.plain h.1)).map fun site name hname hcode => ?_
    rw [Js.blockObeys_singleton, Js.Stmt.Obeys, Js.Binding.text]
    exact ⟨hname.text, hcode⟩
  | .item (.struct _), _ | .item (.enum _), _ | .item (.impl _), _
  | .item (.inert ..), _ | .item (.unknown ..), _ | .item .bare, _ => Gives.refuse _
  | .bare, _ => .refuse _

theorem gives_fn {mode : Mode} : ∀ decl : FnDecl, P.Lets (decl.isLawful law lawful) →
    Gives P ⟨place, mode⟩ false (fn expand decl) fun _ result =>
      IsFunction P (Stmt.anyTries place.known tries decl.body) decl.isAsync result.1 result.2
  | ⟨_, params, body, _, _, isAsync⟩, h => by
    simp only [FnDecl.isLawful, lets_and] at h
    exact .function serves h.1.2
      (gives_block .ret body h.2).inScope

end

theorem gives_closure (params : List Param) (body : Expr) (isAsync : Bool) (mode : Mode)
    (h : P.Lets ((Expr.closure params body isAsync).isLawful law lawful mode)) :
    Gives P ⟨place, mode⟩ false (expr expand (.closure params body isAsync) .value) fun _ code =>
      IsClosure P (body.tries place.known tries) code := by
  simp only [isLawful, lets_and] at h
  obtain ⟨hparams, hbody⟩ := h
  have hblock : ∀ stmts, body = .block stmts false none →
      GivesLines P ⟨place, .body isAsync⟩ (body.tries place.known tries)
        (inScope (block expand stmts (some .ret))) := by
    rintro stmts rfl
    simp only [isLawful, Bool.false_eq_true, if_false, lets_and] at hbody
    exact (gives_block serves hknows lawful tries hexpand .ret stmts hbody.2.2).inScope
  have hstmt := gives_expr serves hknows lawful tries hexpand (.statement .ret) body hbody
  have hvalue := gives_expr serves hknows lawful tries hexpand .value body hbody
  obtain ⟨x, hx, hexpr⟩ := exists_gives_closure serves hparams hblock hstmt hvalue mode
  rw [hexpr]
  exact hx

theorem gives_asyncBlock (stmts : List Stmt) (label : Option String) (mode : Mode)
    (h : P.Lets (Stmt.allLawful law lawful .async stmts)) :
    Gives P ⟨place, mode⟩ false (expr expand (.block stmts true label) .value) fun _ code =>
      ∃ lines, IsFunction P (Stmt.anyTries place.known tries stmts) true [] lines ∧
        code = .call (.paren (.arrowBlock .source true [] lines)) [] :=
  Gives.asyncBlock
    (gives_block serves hknows lawful tries hexpand .ret stmts h).inScope

end

end Emit

/-! ## Macro calls inside macro calls -/

namespace Reader

variable {place : Place} (serves : law.Serves P) (hknows : law.Knows place) (r : Reader)
include serves hknows

/-- By induction on the depth up to which calls nest: what is read out of a call is emitted with
    calls that nest less deep. -/
theorem gives_expandWithin (depth : Nat) (m : MacroCall) (mode : Mode)
    (h : P.Lets (r.isLawfulWithin law depth mode m)) :
    Emit.GivesValue P ⟨place, mode⟩ (r.triesWithin place.known depth m)
      (r.expandWithin depth m) := by
  induction depth generalizing m mode with
  | zero => exact .throw _
  | succ depth ih =>
    refine Macro.gives_expand (fun mode text htext => ?_) h
    refine .ofExceptBind fun e hread => ?_
    simp only [hread] at htext ⊢
    exact Emit.gives_expr serves hknows _ _ ih .value e htext

theorem gives_expand (m : MacroCall) (mode : Mode) (h : P.Lets (r.isLawful law mode m)) :
    Emit.GivesValue P ⟨place, mode⟩ (r.tries place.known m) (r.expand m) :=
  gives_expandWithin serves hknows r _ m mode h

theorem gives_emit (e : Expr) (mode : Mode) (h : P.Lets (e.isLawful law (r.isLawful law) mode)) :
    Emit.GivesValue P ⟨place, mode⟩ (e.tries place.known (r.tries place.known))
      (r.emit e .value) :=
  Emit.gives_expr serves hknows _ _ (r.gives_expand serves hknows) .value e h

theorem gives_emitFn (decl : FnDecl) (mode : Mode)
    (h : P.Lets (decl.isLawful law (r.isLawful law))) :
    Emit.Gives P ⟨place, mode⟩ false (r.emitFn decl) fun _ result =>
      Emit.IsFunction P (Stmt.anyTries place.known (r.tries place.known) decl.body) decl.isAsync
        result.1 result.2 :=
  Emit.gives_fn serves hknows _ _ (r.gives_expand serves hknows) decl h

theorem gives_emitClosure (params : List Param) (body : Expr) (isAsync : Bool) (mode : Mode)
    (h : P.Lets ((Expr.closure params body isAsync).isLawful law (r.isLawful law) mode)) :
    Emit.Gives P ⟨place, mode⟩ false (r.emit (.closure params body isAsync) .value) fun _ code =>
      Emit.IsClosure P (body.tries place.known (r.tries place.known)) code :=
  Emit.gives_closure serves hknows _ _ (r.gives_expand serves hknows) params body isAsync mode h

theorem gives_emitAsync (stmts : List Stmt) (label : Option String) (mode : Mode)
    (h : P.Lets (Stmt.allLawful law (r.isLawful law) .async stmts)) :
    Emit.Gives P ⟨place, mode⟩ false (r.emit (.block stmts true label) .value) fun _ code =>
      ∃ body, Emit.IsFunction P (Stmt.anyTries place.known (r.tries place.known) stmts) true []
          body ∧
        code = .call (.paren (.arrowBlock .source true [] body)) [] :=
  Emit.gives_asyncBlock serves hknows _ _ (r.gives_expand serves hknows) stmts label mode h

end Reader

end RustScript
