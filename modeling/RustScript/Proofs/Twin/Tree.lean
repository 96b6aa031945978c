/-
  The emission of syntax trees, run side by side.

  Emission in positions that are alike is twin emission, and that of statements and blocks is loose
  twin emission. The two runs may even expand macro calls in two ways, as long as these do the same
  for the calls in the tree. Faults are left out for sound trees.
-/
import RustScript.Proofs.Syntax.Calls
import RustScript.Proofs.Twin.Forms

namespace RustScript

open Js (StmtsAlike)

namespace Emit

open RustScript.Expr (isSound EachCall allSound allEachCall optionSound optionEachCall)

section

-- the expansion of macros is assumed once for the whole recursion
set_option linter.unusedSectionVars false

variable {T : Tie} {p q : Js.Tail} {expand expand' : MacroCall → Emit Js.Expr}

theorem twins_conditional {cond cond' : Emit Js.Expr} {yes yes' no no' : Option (Emit Js.Expr)} :
    Twins T p q Eq cond cond' → Option.Rel (Twins T p q Eq) yes yes' →
      Option.Rel (Twins T p q Eq) no no' →
        Option.Rel (Twins T p q Eq)
          (match yes, no with
            | some yes, some no => some (ternary cond yes no)
            | _, _ => none)
          (match yes', no' with
            | some yes, some no => some (ternary cond' yes no)
            | _, _ => none) := by
  intro hcond hyes hno
  cases hyes with
  | none => exact .none
  | some hyes =>
    cases hno with
    | none => exact .none
    | some hno => exact .some (twins_ternary hcond hyes hno)

theorem twins_closureBody {e : Expr}
    (hstmt : TwinLines T .ret .ret (expr expand e (.statement (some .ret)))
      (expr expand' e (.statement (some .ret))))
    (hvalue : Twins T .ret .ret Eq (expr expand e .value) (expr expand' e .value)) :
    Twins T .ret .ret Eq
      (if e.needsStatement then do
        return .block (← expr expand e (.statement (some .ret)))
      else do return .value (← expr expand e .value) : Emit ClosureBody)
      (if e.needsStatement then do
        return .block (← expr expand' e (.statement (some .ret)))
      else do return .value (← expr expand' e .value) : Emit ClosureBody) := by
  split
  · exact hstmt.eqStmts.andReturnEq _
  · exact hvalue.andReturnEq _

variable (asks : Prop) (call : MacroCall → Prop) (ok : MacroCall → Bool)
  (hexpand : ∀ m, T.Allows (ok m) → (asks → call m) → ∀ p q, T.tails p q →
    Twins T p q Eq (expand m) (expand' m))

include hexpand

mutual

theorem twins_expr {p q : Js.Tail} (hpq : T.tails p q) {pos pos' : Position}
    (hpos : Position.Alike p q pos pos') : ∀ e : Expr, T.Allows (e.isSound ok) →
      (asks → e.EachCall call) →
        Twins T p q (Position.CodeAlike p q pos pos') (expr expand e pos) (expr expand' e pos')
  | .lit value, h, _ => hpos.literal (twins_valueOrThrow h) _
  | .ident name, _, _ => hpos.plain ((Paired.ident name).andReturnEq _)
  | .path segments, h, _ => hpos.plain (twins_path h)
  | .paren e, h, k | .field e _, h, k
  | .cast e _, h, k | .await e, h, k => hpos.plain ((twins_expr hpq .value e h k).andReturnEq _)
  | .unary op e, h, k => hpos.plain (twins_unary ((twins_expr hpq .value e h k).andReturnEq _) op)
  | .binary op l r, h, k => by
    simp only [isSound, EachCall, sound_and, imp_and] at h k
    have hparts : Twins T p q Eq
        (do
          let left ← expr expand l .part
          return left ++ (← expr expand r .part))
        (do
          let left ← expr expand' l .part
          return left ++ (← expr expand' r .part)) :=
      (twins_expr hpq .part l h.1 k.1).bindEq fun _ =>
        (twins_expr hpq .part r h.2 k.2).andReturnEq _
    exact hpos.sum hparts
      (twins_binary hparts ((twins_expr hpq .value l h.1 k.1).andReturnEq _)
        ((twins_expr hpq .value r h.2 k.2).andReturnEq _) op _) _
  | .assign target value op, h, k => by
    simp only [isSound, EachCall, sound_and, imp_and] at h k
    exact hpos.assignment (twins_assign (twins_expr hpq .value target h.1 k.1)
      (twins_expr hpq .value value h.2 k.2) op)
  | .call func args, h, k => by
    simp only [isSound, EachCall, sound_and, imp_and] at h k
    obtain ⟨⟨hcallable, hfunc⟩, hargs⟩ := h
    have hargs := twins_exprs hpq args hargs k.2
    have hcall : Twins T p q Eq _ _ := (twins_expr hpq .value func hfunc k.1).bindEq fun callee =>
      hargs.andReturnEq fun codes => Js.Expr.call (callee.parenIf func.isClosure) codes
    cases func with
    | ident name =>
      refine hpos.plain (hargs.bindEq fun codes => ?_)
      split
      · exact Paired.pure rfl
      · exact twins_callName name codes
    | path segments =>
      refine hpos.plain ((Paired.ofExcept (Path.fails_last hfunc)).bindEq fun name => ?_)
      refine hargs.bindEq fun codes => ?_
      split
      · exact Paired.pure rfl
      · exact twins_callPath hcallable codes
    | _ => exact hpos.plain hcall
  | .methodCall receiver method args, h, k => by
    simp only [isSound, EachCall, sound_and, imp_and] at h k
    exact hpos.plain ((twins_expr hpq .value receiver h.1 k.1).bindEq fun _ =>
      (twins_exprs hpq args h.2 k.2).andReturnEq _)
  | .index obj index, h, k => by
    simp only [isSound, EachCall, sound_and, imp_and] at h k
    have hobj := twins_expr hpq .value obj h.1 k.1
    have hindex : Twins T p q Eq _ _ := hobj.bindEq fun code =>
      (twins_expr hpq .value index h.2 k.2).andReturnEq fun i =>
        Js.Expr.index (code.parenIf obj.isCompoundTarget) i
    cases index with
    | range start stop inclusive =>
      simp only [isSound, EachCall, sound_and, imp_and] at h k
      exact hpos.plain (hobj.bindEq fun _ => RangePlan.Alike.slice
        (.of (twins_bound hpq start h.2.1 k.2.1) (twins_bound hpq stop h.2.2 k.2.2) _) _)
    | _ => exact hpos.plain hindex
  | .structLit segments fields base, h, k => by
    simp only [isSound, EachCall, sound_and, imp_and] at h k
    exact hpos.plain ((twins_fieldInits hpq fields h.1.2 k.1).bindEq fun values =>
      twins_structLit h.1.1 (twins_action hpq base h.2 k.2) values)
  | .arrayLit elems, h, k => hpos.plain ((twins_exprs hpq elems h k).andReturnEq _)
  | .arrayRepeat value count, h, k => by
    simp only [isSound, EachCall, sound_and, imp_and] at h k
    exact hpos.plain ((twins_expr hpq .value value h.1 k.1).bindEq fun _ =>
      (twins_expr hpq .value count h.2 k.2).andReturnEq _)
  | .tupleLit [], _, _ => hpos.plain (Paired.pure rfl)
  | .tupleLit (e :: es), h, k => by
    simp only [isSound, allSound, EachCall, allEachCall, sound_and, imp_and]
      at h k
    exact hpos.plain ((twins_expr hpq .value e h.1 k.1).bindEq fun _ =>
      (twins_exprs hpq es h.2 k.2).andReturnEq _)
  | .closure params body isAsync, h, k => by
    simp only [isSound, sound_and] at h
    obtain ⟨hparams, h⟩ := h
    have hbody := twins_closureBody (twins_expr T.returns (.statement (.same _)) body h k)
      (twins_expr T.returns .value body h k)
    cases body with
    | block stmts isAsyncBlock label =>
      rcases isAsyncBlock with _ | _ <;> rcases label with _ | label
      · have hblock := (Twins.inScope (twins_block T.returns (.same (some .ret)) stmts h k)).eqStmts
        exact hpos.plain (twins_closure hparams isAsync (hblock.andReturnEq _))
      all_goals
        exact hpos.plain (twins_closure hparams isAsync hbody)
    | _ => exact hpos.plain (twins_closure hparams isAsync hbody)
  | .block stmts true _, h, k =>
    hpos.plain (twins_asyncBlock (Twins.inScope (twins_block T.returns (.same _) stmts h k)))
  | .block stmts false label, h, k =>
    hpos.control hpq fun _ _ hpq _ _ htail =>
      twins_blockStmt htail (Twins.inScope (twins_block hpq htail stmts h k)) label
  | .ifElse cond stmts orelse, h, k => by
    simp only [isSound, EachCall, sound_and, imp_and] at h k
    obtain ⟨⟨hcond, hstmts⟩, horelse⟩ := h
    refine hpos.either hpq ?_ fun _ _ hpq _ _ htail => ?_
    · exact twins_conditional (twins_expr hpq .value cond hcond k.1)
        (twins_blockValue? hpq stmts hstmts k.2.1) (twins_elseValue? hpq orelse horelse k.2.2)
    · refine (twins_expr hpq .value cond hcond k.1).bindEq fun code => ?_
      refine (Twins.inScope (twins_block hpq htail stmts hstmts k.2.1)).bind fun _ _ hbody => ?_
      refine (twins_elseBranches hpq htail orelse horelse k.2.2).andReturn fun _ _ hother => ?_
      exact .branch (.cons (.mk code hbody) hother.1) hother.2
  | .ifLet pat value stmts orelse, h, k => by
    simp only [isSound, EachCall, sound_and, imp_and] at h k
    obtain ⟨⟨⟨hpat, hvalue⟩, hstmts⟩, horelse⟩ := h
    exact hpos.control hpq fun _ _ hpq _ _ htail =>
      twins_ifLet hpat (twins_expr hpq .value value hvalue k.1)
        (Twins.inScope (twins_block hpq htail stmts hstmts k.2.1))
        (twins_elseBranches hpq htail orelse horelse k.2.2) _
  | .whileLoop cond stmts label, h, k => by
    simp only [isSound, EachCall, sound_and, imp_and] at h k
    exact hpos.control hpq fun _ _ hpq _ _ _ =>
      twins_whileLoop (twins_expr hpq .value cond h.1 k.1)
        (Twins.inScope (twins_block hpq (.same none) stmts h.2 k.2))
  | .whileLet pat value stmts label, h, k => by
    simp only [isSound, EachCall, sound_and, imp_and] at h k
    exact hpos.control hpq fun _ _ hpq _ _ _ =>
      twins_whileLet h.1.1 (twins_expr hpq .value value h.1.2 k.1)
        (Twins.inScope (twins_block hpq (.same none) stmts h.2 k.2))
  | .loop stmts label, h, k =>
    hpos.control hpq fun _ _ hpq _ _ htail =>
      twins_endlessLoop htail (Twins.inScope (twins_block hpq (.same none) stmts h k))
  | .forLoop pat iter stmts label, h, k => by
    simp only [isSound, EachCall, sound_and, imp_and] at h k
    refine hpos.control hpq fun p q hpq _ _ _ => ?_
    have hsource : Source.Alike T p q
        ((source? expand iter).getD (.elements (expr expand iter .value)))
        ((source? expand' iter).getD (.elements (expr expand' iter .value))) := by
      have hfound := twins_source? hpq iter h.1.2 k.1
      have hvalue := twins_expr hpq .value iter h.1.2 k.1
      generalize source? expand iter = found at hfound ⊢
      generalize source? expand' iter = found' at hfound ⊢
      cases hfound with
      | none => exact .elements hvalue
      | some hsource => exact hsource
    exact twins_forLoop h.1.1 hsource (Twins.inScope (twins_block hpq (.same none) stmts h.2 k.2))
  | .matchOn subject arms, h, k => by
    simp only [isSound, EachCall, sound_and, imp_and] at h k
    refine hpos.control hpq fun _ _ hpq _ _ htail => ?_
    refine (Twins.fresh (by decide)).bindEq fun temp => ?_
    refine (twins_expr hpq .value subject h.1 k.1).bindEq fun code => ?_
    exact (ArmPlan.twins_arms htail (twins_armPlans hpq arms h.2 k.2) temp).andReturn
      fun _ _ hlines => hlines.cons _
  | .ret value, h, k => hpos.jump (twins_returnWith (twins_action hpq value h k)) _
  | .brk label value, h, k => hpos.jump (twins_breakTo (twins_action hpq value h k)) _
  | .cont label, _, _ => hpos.jump (twins_continueTo label) _
  | .mac m, h, k => hpos.plain (hexpand m h k _ _ hpq)
  | .ref e isMutable, h, k => hpos.literal ((twins_expr hpq .value e h k).andReturnEq _) _
  | .deref e, h, k => hpos.literal (twins_expr hpq .value e h k) _
  | .tryOp e, h, k => hpos.plain (twins_tryOp (twins_expr hpq .value e h k))
  | .range start stop inclusive, h, k => by
    simp only [isSound, EachCall, sound_and, imp_and] at h k
    exact hpos.plain (RangePlan.Alike.value
      (.of (twins_bound hpq start h.1 k.1) (twins_bound hpq stop h.2 k.2) inclusive))
  | .bare, _, _ => hpos.plain (Paired.refuse _)

theorem twins_exprs {p q : Js.Tail} (hpq : T.tails p q) : ∀ es : List Expr,
    T.Allows (allSound ok es) → (asks → allEachCall call es) →
      Twins T p q Eq (exprs expand es) (exprs expand' es)
  | [], _, _ => .pure rfl
  | e :: es, h, k => by
    simp only [allSound, allEachCall, sound_and, imp_and] at h k
    exact (twins_expr hpq .value e h.1 k.1).bindEq fun _ =>
      (twins_exprs hpq es h.2 k.2).andReturnEq _

theorem twins_action {p q : Js.Tail} (hpq : T.tails p q) : ∀ value : Option Expr,
    T.Allows (optionSound ok value) → (asks → optionEachCall call value) →
      Option.Rel (Twins T p q Eq) (action expand value) (action expand' value)
  | none, _, _ => .none
  | some e, h, k => .some (twins_expr hpq .value e h k)

theorem twins_bound {p q : Js.Tail} (hpq : T.tails p q) : ∀ value : Option Expr,
    T.Allows (optionSound ok value) → (asks → optionEachCall call value) →
      Option.Rel (BoundPlan.Alike T p q) (bound expand value) (bound expand' value)
  | none, _, _ => .none
  | some e, h, k => .some ⟨twins_expr hpq .value e h k, rfl, rfl⟩

theorem twins_fieldInits {p q : Js.Tail} (hpq : T.tails p q) : ∀ fields : List FieldInit,
    T.Allows (FieldInit.allSound ok fields) → (asks → FieldInit.allEachCall call fields) →
      Twins T p q Eq (fieldInits expand fields) (fieldInits expand' fields)
  | [], _, _ => .pure rfl
  | ⟨name, value⟩ :: fields, h, k => by
    simp only [FieldInit.allSound, FieldInit.allEachCall, sound_and, imp_and] at h k
    exact (twins_expr hpq .value value h.1 k.1).bindEq fun _ =>
      (twins_fieldInits hpq fields h.2 k.2).andReturnEq _

theorem twins_blockValue? {p q : Js.Tail} (hpq : T.tails p q) : ∀ stmts : List Stmt,
    T.Allows (Stmt.allSound ok stmts) → (asks → Stmt.allEachCall call stmts) →
      Option.Rel (Twins T p q Eq) (blockValue? expand stmts) (blockValue? expand' stmts)
  | [.expr e false], h, k => by
    simp only [Stmt.allSound, Stmt.isSound, Bool.and_true] at h
    simp only [Stmt.allEachCall, Stmt.EachCall, and_true] at k
    have he := twins_expr hpq .value e h k
    simp only [blockValue?]
    split
    · exact .none
    · exact .some he
  | [.mac m false], h, k => by
    simp only [Stmt.allSound, Stmt.isSound, Bool.and_true] at h
    simp only [Stmt.allEachCall, Stmt.EachCall, and_true] at k
    simp only [blockValue?]
    split
    · exact .some (hexpand m h k _ _ hpq)
    · exact .none
  | [], _, _ | [.expr _ true], _, _ | [.mac _ true], _, _
  | [.letIn ..], _, _ | [.item _], _, _ | [.bare], _, _
  | _ :: _ :: _, _, _ => by
    rw [blockValue?, blockValue?]
    · exact .none
    all_goals simp

theorem twins_elseValue? {p q : Js.Tail} (hpq : T.tails p q) : ∀ orelse : Option Expr,
    T.Allows (optionSound ok orelse) → (asks → optionEachCall call orelse) →
      Option.Rel (Twins T p q Eq) (elseValue? expand orelse) (elseValue? expand' orelse)
  | none, _, _ => .none
  | some e, h, k => by
    rw [optionSound] at h
    rw [optionEachCall] at k
    cases e with
    | ifElse cond stmts orelse =>
      simp only [isSound, EachCall, sound_and, imp_and] at h k
      exact twins_conditional (twins_expr hpq .value cond h.1.1 k.1)
        (twins_blockValue? hpq stmts h.1.2 k.2.1) (twins_elseValue? hpq orelse h.2 k.2.2)
    | block stmts isAsync label =>
      rcases isAsync with _ | _ <;> rcases label with _ | label
      · exact twins_blockValue? hpq stmts h k
      all_goals
        exact .none
    | _ => exact .none

theorem twins_elseBranches {p q : Js.Tail} (hpq : T.tails p q) {tail tail' : Option Js.Tail}
    (htail : TailsAlike p q tail tail') : ∀ orelse : Option Expr,
      T.Allows (optionSound ok orelse) → (asks → optionEachCall call orelse) →
        Twins T p q (ElseAlike p q) (elseBranches expand orelse tail)
          (elseBranches expand' orelse tail')
  | none, _, _ => .pure ⟨.nil, .none⟩
  | some e, h, k => by
    rw [optionSound] at h
    rw [optionEachCall] at k
    have hlast {a b : List Js.Stmt} (hab : StmtsAlike p q a b) :
        ElseAlike p q ([], some a) ([], some b) :=
      ⟨.nil, .some hab⟩
    have hother := (Twins.inScope (twins_expr hpq (.statement htail) e h k).loose).andReturn
      (f := fun lines => (([], some lines) : Else)) (g := fun lines => ([], some lines))
      fun _ _ hab => hlast hab
    cases e with
    | ifElse cond stmts orelse =>
      simp only [isSound, EachCall, sound_and, imp_and] at h k
      refine (twins_expr hpq .value cond h.1.1 k.1).bindEq fun code => ?_
      refine (Twins.inScope (twins_block hpq htail stmts h.1.2 k.2.1)).bind fun _ _ hbody => ?_
      exact (twins_elseBranches hpq htail orelse h.2 k.2.2).andReturn fun _ _ hrest =>
        ⟨.cons (.mk code hbody) hrest.1, hrest.2⟩
    | block stmts isAsync label =>
      cases isAsync with
      | false =>
        exact (Twins.inScope (twins_block hpq htail stmts h k)).andReturn fun _ _ hab => hlast hab
      | true => exact hother
    | _ => exact hother

theorem twins_armPlans {p q : Js.Tail} (hpq : T.tails p q) : ∀ arms : List Arm,
    T.Allows (Arm.allSound ok arms) → (asks → Arm.allEachCall call arms) →
      List.Forall₂ (ArmPlan.Alike T p q) (armPlans expand arms) (armPlans expand' arms)
  | [], _, _ => .nil
  | ⟨pat, body, guard⟩ :: arms, h, k => by
    simp only [Arm.allSound, Arm.allEachCall, sound_and, imp_and] at h k
    obtain ⟨⟨⟨hpat, hbody⟩, hguard⟩, harms⟩ := h
    have hstmt := fun tail tail' (htail : TailsAlike p q tail tail') =>
      twins_expr hpq (.statement htail) body hbody k.1
    have hblock : ∀ stmts, body = .block stmts false none → ∀ tail tail',
        TailsAlike p q tail tail' →
          TwinLines T p q (inScope (block expand stmts tail))
            (inScope (block expand' stmts tail')) := by
      cases body with
      | block stmts isAsync label =>
        intro stmts' heq tail tail' htail
        cases heq
        exact Twins.inScope (twins_block hpq htail stmts hbody k.1)
      | _ => simp
    rw [armPlans, armPlans]
    refine .cons ⟨rfl, hpat, twins_action hpq guard hguard k.2.1, fun tail tail' htail => ?_⟩
      (twins_armPlans hpq arms harms k.2.2)
    split
    · exact hblock _ rfl tail tail' htail
    · exact hstmt tail tail' htail

theorem twins_source? {p q : Js.Tail} (hpq : T.tails p q) (e : Expr)
    (h : T.Allows (e.isSound ok)) (k : asks → e.EachCall call) :
    Option.Rel (Source.Alike T p q) (source? expand e) (source? expand' e) := by
  cases e with
  | range start stop inclusive =>
    simp only [isSound, EachCall, sound_and, imp_and] at h k
    exact .some (.range (.of (twins_bound hpq start h.1 k.1) (twins_bound hpq stop h.2 k.2) _) _)
  | methodCall receiver method args =>
    simp only [isSound, EachCall, sound_and, imp_and] at h k
    cases args with
    | nil =>
      rw [source?, source?]
      split
      · have hplan := twins_range? hpq receiver h.1 k.1
        generalize range? expand receiver = plan at hplan ⊢
        generalize range? expand' receiver = plan' at hplan ⊢
        cases hplan with
        | none => exact .none
        | some hplan => exact .some (.range hplan true)
      · split
        · exact .some (.enumerated (twins_expr hpq .value receiver h.1 k.1))
        · exact .none
    | cons _ _ => exact .none
  | _ => exact .none

theorem twins_range? {p q : Js.Tail} (hpq : T.tails p q) (e : Expr)
    (h : T.Allows (e.isSound ok)) (k : asks → e.EachCall call) :
    Option.Rel (RangePlan.Alike T p q) (range? expand e) (range? expand' e) := by
  cases e with
  | paren e => exact twins_range? hpq e h k
  | range start stop inclusive =>
    simp only [isSound, EachCall, sound_and, imp_and] at h k
    exact .some (.of (twins_bound hpq start h.1 k.1) (twins_bound hpq stop h.2 k.2) inclusive)
  | _ => exact .none

theorem twins_block {p q : Js.Tail} (hpq : T.tails p q) {tail tail' : Option Js.Tail}
    (htail : TailsAlike p q tail tail') : ∀ stmts : List Stmt, T.Allows (Stmt.allSound ok stmts) →
      (asks → Stmt.allEachCall call stmts) →
        LooseTwins T p q (StmtsAlike p q) (block expand stmts tail) (block expand' stmts tail')
  | [], _, _ => .pure (.refl _)
  | [s], h, k => by
    simp only [Stmt.allSound, Bool.and_true] at h
    simp only [Stmt.allEachCall, and_true] at k
    exact twins_stmt hpq htail s h k
  | s :: t :: ss, h, k => by
    rw [Stmt.allSound] at h
    rw [Stmt.allEachCall] at k
    simp only [sound_and] at h
    rw [imp_and] at k
    rw [block_cons expand (by simp), block_cons expand' (by simp)]
    exact (twins_stmt hpq (.same none) s h.1 k.1).bind fun _ _ hab =>
      (twins_block hpq htail (t :: ss) h.2 k.2).andReturn fun _ _ hrest => hab.append hrest

theorem twins_stmt {p q : Js.Tail} (hpq : T.tails p q) {tail tail' : Option Js.Tail}
    (htail : TailsAlike p q tail tail') : ∀ s : Stmt, T.Allows (s.isSound ok) →
      (asks → s.EachCall call) →
        LooseTwins T p q (StmtsAlike p q) (stmt expand s tail) (stmt expand' s tail')
  | .letIn pat (some init) _ (some orelse), h, k => by
    simp only [Stmt.isSound, Stmt.EachCall, optionEachCall, sound_and, imp_and] at h k
    exact twins_letElse h.1.1 (twins_expr hpq .value init h.1.2 k.1)
      (Twins.inScope (twins_block hpq (.same none) orelse h.2 k.2)) _
  | .letIn _ none _ (some _), h, _ => .throw (h.imp_right nofun)
  | .letIn pat none _ none, _, _ => (twins_letBare pat).mono fun _ _ hab => hab ▸ .refl _
  | .letIn pat (some init) _ none, h, k => by
    simp only [Stmt.isSound, optionSound, sound_and] at h
    have hstmt := fun tail => twins_expr hpq (.statement (.same tail)) init h.2 k
    have hvalue := twins_expr hpq .value init h.2 k
    cases pat with
    | wild => exact (hstmt none).loose
    | _ =>
      rw [stmt, stmt]
      · split
        · exact twins_letControl h.1 fun tail => hstmt (some tail)
        · exact (twins_letValue h.1 hvalue).mono fun _ _ hab => hab ▸ .refl _
      all_goals simp
  | .expr e true, h, k => (twins_expr hpq (.statement (.same none)) e h k).loose
  | .expr e false, h, k => (twins_expr hpq (.statement htail) e h k).loose
  | .mac m semi, h, k => (hexpand m h k _ _ hpq).loose.bindEq fun code =>
      Paired.pure (macroStmt_alike htail m semi code)
  | .item (.fn decl), h, k =>
    (Twins.declare _).bindEq fun _ => (twins_fn decl h k).loose.bindEq fun _ =>
      Paired.pure (.refl _)
  | .item (.const ⟨ident, value, _, _⟩), h, k =>
    (twins_expr hpq .value value h k).loose.bindEq fun _ =>
      (Twins.declare ident).bindEq fun _ => .pure (.refl _)
  | .item (.struct _), _, _ | .item (.enum _), _, _
  | .item (.impl _), _, _ | .item (.inert ..), _, _
  | .item (.unknown ..), _, _ | .item .bare, _, _ => Paired.refuse _
  | .bare, _, _ => .refuse _

theorem twins_fn {p q : Js.Tail} : ∀ decl : FnDecl, T.Allows (decl.isSound ok) →
    (asks → decl.EachCall call) → Twins T p q Eq (fn expand decl) (fn expand' decl)
  | ⟨_, params, body, _, _, isAsync⟩, h, k => by
    simp only [FnDecl.isSound, sound_and] at h
    exact twins_function h.1 isAsync (Twins.inScope (twins_block T.returns (.same _) body h.2 k))

end

end

end Emit

/-! ## Every reader -/

open Emit

namespace Reader

/-- A call is expanded alike in states that are alike. By induction on the depth. -/
theorem twins_expandWithin (T : Tie) (r : Reader) (depth : Nat) {m : MacroCall}
    (h : T.Allows (r.isSoundWithin depth m)) (p q : Js.Tail) (hpq : T.tails p q) :
    Twins T p q Eq (r.expandWithin depth m) (r.expandWithin depth m) := by
  induction depth generalizing m p q with
  | zero => exact .throw (h.imp_right nofun)
  | succ depth ih =>
    refine Macro.twins_expand _ h fun text _ hok => ?_
    have hread : Fails T.faults (r.read text) := by
      intro e he
      simpa only [he] using hok
    refine .ofExceptBind hread fun e he => ?_
    refine twins_expr False (fun _ => True) _ (fun m h _ => ih h) hpq .value e ?_ nofun
    simpa only [he] using hok

theorem twins_emit (T : Tie) (r : Reader) {e : Expr} (h : T.Allows (e.isSound r.isSound))
    {p q : Js.Tail} (hpq : T.tails p q) {pos pos' : Position} (hpos : Position.Alike p q pos pos') :
    Twins T p q (Position.CodeAlike p q pos pos') (r.emit e pos) (r.emit e pos') :=
  twins_expr False (fun _ => True) _ (fun _ h _ => r.twins_expandWithin T _ h) hpq hpos e h nofun

end Reader

end RustScript
