/-
  The macro calls in what nodes read as.

  The only way to a macro call is a node that reads as one. If every such call has a property, then
  so has every macro call in any reading (`Phrase.eachCall_ofNode`).
-/
import RustScript.Proofs.Outcome
import RustScript.Proofs.Syntax.Calls
import RustScript.Source.Read

namespace RustScript

namespace Ensures

variable {ε α β : Type} {Q : β → Prop}

theorem mapM {f : α → Except ε β} {as : List α} (h : ∀ a ∈ as, Ensures Q (f a)) :
    Ensures (fun bs => ∀ b ∈ bs, Q b) (as.mapM f) := by
  induction as with
  | nil => exact .ok (fun b hb => absurd hb List.not_mem_nil)
  | cons a as ih =>
    rw [List.forall_mem_cons] at h
    rw [List.mapM_cons]
    exact h.1.bind fun b hb => (ih h.2).map fun bs hbs => List.forall_mem_cons.mpr ⟨hb, hbs⟩

theorem sequence {xs : List (Except Error β)} (h : ∀ x ∈ xs, Ensures Q x) :
    Ensures (fun bs => ∀ b ∈ bs, Q b) (Source.sequence xs) := by
  induction xs with
  | nil => exact .ok (fun b hb => absurd hb List.not_mem_nil)
  | cons x xs ih =>
    rw [List.forall_mem_cons] at h
    cases x with
    | ok a => exact (ih h.2).map fun bs hbs => List.forall_mem_cons.mpr ⟨h.1 a rfl, hbs⟩
    | error e =>
      unfold Source.sequence
      split
      · next heq => cases heq
      · next heq => cases heq
      · exact .error _
      · exact .error _

end Ensures

namespace Source

section

variable (bytes : Bytes) (P : MacroCall → Prop)

/-- Every macro call in the expression that is read, if one is, is as asked. -/
abbrev ExprCalls (x : Except Error Expr) : Prop := Ensures (Expr.EachCall P) x

/-- Every macro call in what the phrase reads as, and in what the phrases below it read as, is as
    asked. -/
inductive Phrase.EachCall : Phrase → Prop
  | mk {phrase : Phrase} (expr : ExprCalls P phrase.asExpr)
      (block : Ensures (Stmt.allEachCall P) phrase.asBlock)
      (call : Ensures P (macroCall bytes phrase.parts))
      (children : ∀ c ∈ phrase.parts.children, Phrase.EachCall c) : Phrase.EachCall phrase

/-- The node, if it is a macro call, is as asked, and so is every macro call below it. -/
structure Parts.EachCall (p : Parts) : Prop where
  call : Ensures P (macroCall bytes p)
  children : ∀ c ∈ p.children, c.EachCall bytes P

end

variable {bytes : Bytes} {P : MacroCall → Prop}

namespace Phrase.EachCall

variable {phrase : Phrase} (h : phrase.EachCall bytes P)

include h

theorem asExpr : ExprCalls P phrase.asExpr := by
  cases h
  assumption

theorem asBlock : Ensures (Stmt.allEachCall P) phrase.asBlock := by
  cases h
  assumption

theorem parts : phrase.parts.EachCall bytes P := by
  cases h with
  | mk _ _ call children => exact ⟨call, children⟩

end Phrase.EachCall

namespace Parts.EachCall

variable {α : Type} {p : Parts} {Q : α → Prop} (h : p.EachCall bytes P)

include h

theorem child? {field : String} {c : Phrase} (hc : p.child? field = some c) : c.EachCall bytes P :=
  h.children c (List.mem_of_find?_eq_some hc)

theorem child (field : String) : Ensures (Phrase.EachCall bytes P) (p.child field) := by
  unfold Parts.child
  split
  · next hc => exact .ok (h.child? hc)
  · exact .error _

theorem childOf (kind : String) : Ensures (Phrase.EachCall bytes P) (p.childOf kind) := by
  unfold Parts.childOf
  split
  · next hc => exact .ok (h.children _ (List.mem_of_find?_eq_some hc))
  · exact .error _

theorem named : ∀ c ∈ p.named, c.EachCall bytes P :=
  fun c hc => h.children c (List.mem_filter.mp hc).1

theorem firstNamed : Ensures (Phrase.EachCall bytes P) p.firstNamed := by
  unfold Parts.firstNamed
  split
  · next hnamed => exact .ok (h.named _ (hnamed ▸ List.mem_cons_self))
  · exact .error _

theorem bindExpr (field : String) {f : Expr → Except Error α}
    (hf : ∀ e, e.EachCall P → Ensures Q (f e)) : Ensures Q (do f (← (← p.child field).asExpr)) :=
  (h.child field).bind fun _ hc => hc.asExpr.bind hf

theorem bindBlock (field : String) {f : List Stmt → Except Error α}
    (hf : ∀ stmts, Stmt.allEachCall P stmts → Ensures Q (f stmts)) :
    Ensures Q (do f (← (← p.child field).asBlock)) :=
  (h.child field).bind fun _ hc => hc.asBlock.bind hf

end Parts.EachCall

/-! ## Expressions -/

section Expressions

variable {p : Parts} {cs : List Phrase}

theorem ensures_exprs (h : ∀ c ∈ cs, c.EachCall bytes P) :
    Ensures (Expr.allEachCall P) (sequence (cs.map Phrase.asExpr)) := by
  refine (Ensures.sequence (Q := Expr.EachCall P) ?_).mono fun _ => Expr.allEachCall_iff.mpr
  intro x hx
  obtain ⟨c, hc, rfl⟩ := List.mem_map.mp hx
  exact (h c hc).asExpr

theorem ensures_pathExpr : ExprCalls P (pathExpr bytes p) := by
  refine .bindAny fun text => ?_
  split
  · exact .ok trivial
  · exact .ok trivial

theorem ensures_structFields (h : ∀ c ∈ cs, c.EachCall bytes P) :
    Ensures (fun r => FieldInit.allEachCall P r.1 ∧ Expr.optionEachCall P r.2)
      (structFields bytes cs) := by
  induction cs with
  | nil => exact .ok ⟨trivial, trivial⟩
  | cons c cs ih =>
    rw [List.forall_mem_cons] at h
    have hrest := ih h.2
    rw [structFields]
    split
    · exact .bindAny fun name => hrest.map fun r hr =>
        ⟨FieldInit.allEachCall_cons.mpr ⟨trivial, hr.1⟩, hr.2⟩
    · split
      · refine .bindAny fun name => ?_
        refine h.1.parts.bindExpr "value" fun value hvalue => ?_
        exact hrest.map fun r hr => ⟨FieldInit.allEachCall_cons.mpr ⟨hvalue, hr.1⟩, hr.2⟩
      · split
        · refine h.1.parts.firstNamed.bind fun d hd => hd.asExpr.bind fun value hvalue => ?_
          refine hrest.bind fun r hr => .ok ⟨hr.1, ?_⟩
          obtain ⟨fields, base⟩ := r
          cases base with
          | none => exact hvalue
          | some base => exact hr.2
        · exact hrest

theorem ensures_elseExpr {c : Option Phrase} (h : ∀ d ∈ c, d.EachCall bytes P) :
    Ensures (Expr.optionEachCall P) (elseExpr c) := by
  unfold elseExpr
  split
  · exact .ok trivial
  · next c =>
    have hc := h c rfl
    split
    · exact hc.parts.firstNamed.bind fun inner hinner => hinner.asExpr.map fun e he => he
    · exact hc.asExpr.map fun e he => he

theorem ensures_rangeBounds (h : ∀ c ∈ cs, c.EachCall bytes P)
    {range : Option Expr × Option Expr × Bool} (pastOperator : Bool)
    (hrange : Expr.optionEachCall P range.1 ∧ Expr.optionEachCall P range.2.1) :
    Ensures (fun r => Expr.optionEachCall P r.1 ∧ Expr.optionEachCall P r.2.1)
      (rangeBounds range pastOperator cs) := by
  induction cs generalizing range pastOperator with
  | nil => exact .ok hrange
  | cons c cs ih =>
    rw [List.forall_mem_cons] at h
    obtain ⟨start, stop, inclusive⟩ := range
    rw [rangeBounds]
    split
    · exact ih h.2 true hrange
    · split
      · refine h.1.asExpr.bind fun e he => ?_
        split
        · exact ih h.2 _ ⟨hrange.1, he⟩
        · exact ih h.2 _ ⟨he, hrange.2⟩
      · exact ih h.2 pastOperator hrange

variable (h : p.EachCall bytes P)

include h

theorem ensures_unaryExpr : ExprCalls P (unaryExpr bytes p) := by
  unfold unaryExpr
  split
  · exact .error _
  · refine .bindAny fun op => h.firstNamed.bind fun c hc => hc.asExpr.bind fun e he => .ok ?_
    split <;> simpa [Expr.EachCall] using he

theorem ensures_binaryExpr : ExprCalls P (binaryExpr bytes p) := by
  refine .bindAny fun op => ?_
  refine h.bindExpr "left" fun left hleft => ?_
  exact h.bindExpr "right" fun right hright => .ok ⟨hleft, hright⟩

theorem ensures_assignExpr : ExprCalls P (assignExpr bytes p) := by
  refine h.bindExpr "left" fun left hleft => ?_
  refine h.bindExpr "right" fun right hright => ?_
  exact .bindAny fun op => .ok ⟨hleft, hright⟩

theorem ensures_callExpr : ExprCalls P (callExpr bytes p) := by
  refine (h.child "function").bind fun func hfunc => ?_
  refine (h.child "arguments").bind fun list hlist => ?_
  refine (ensures_exprs hlist.parts.named).bind fun args hargs => ?_
  have hcall {func : Phrase} (hfunc : func.EachCall bytes P) : ExprCalls P
      (if func.kind == "field_expression" then do
        let receiver ← (← func.parts.child "value").asExpr
        return .methodCall receiver (← func.parts.textIn bytes "field") args
      else do return .call (← func.asExpr) args) := by
    split
    · refine hfunc.parts.bindExpr "value" fun receiver hrecv => ?_
      exact .bindAny fun method => .ok ⟨hrecv, hargs⟩
    · exact hfunc.asExpr.map fun code hcode => ⟨hcode, hargs⟩
  split
  · exact (hfunc.parts.child "function").bind fun func hfunc => hcall hfunc
  · exact hcall hfunc

theorem ensures_fieldExpr : ExprCalls P (fieldExpr bytes p) := by
  refine h.bindExpr "value" fun obj hobj => ?_
  exact .bindAny fun name => .ok hobj

theorem ensures_indexExpr : ExprCalls P (indexExpr p) := by
  unfold indexExpr
  split
  · next obj index rest hnamed =>
    have hall := hnamed ▸ h.named
    refine (hall obj (by simp)).asExpr.bind fun obj hobj => ?_
    exact (hall index (by simp)).asExpr.map fun index hindex => ⟨hobj, hindex⟩
  · exact .error _

theorem ensures_structExpr : ExprCalls P (structExpr bytes p) := by
  refine .bindAny fun path => (h.child "body").bind fun c hc => ?_
  exact (ensures_structFields hc.parts.named).map fun r hr => hr

theorem ensures_arrayExpr : ExprCalls P (arrayExpr p) := by
  unfold arrayExpr
  split
  · exact (ensures_exprs h.named).map fun es hes => hes
  · next length hlength =>
    split
    · exact .error _
    · next value rest hvalue =>
      have hmem : value ∈ p.children :=
        List.mem_of_mem_eraseP (List.mem_filter.mp (hvalue ▸ List.mem_cons_self)).1
      refine (h.children value hmem).asExpr.bind fun value hvalue => ?_
      exact (h.child? hlength).asExpr.map fun count hcount => ⟨hvalue, hcount⟩

theorem ensures_closureExpr : ExprCalls P (closureExpr bytes p) := by
  refine .bindAny fun c => .bindAny fun params => ?_
  exact h.bindExpr "body" fun body hbody => .ok hbody

theorem ensures_ifExpr : ExprCalls P (ifExpr p) := by
  refine (h.child "condition").bind fun cond hcond => ?_
  refine h.bindBlock "consequence" fun body hbody => ?_
  refine (ensures_elseExpr fun c hc => h.child? hc).bind fun orelse horelse => ?_
  split
  · refine .bindAny fun c => .bindAny fun pat => ?_
    exact hcond.parts.bindExpr "value" fun value hvalue => .ok ⟨hvalue, hbody, horelse⟩
  · split
    · exact .error _
    · exact hcond.asExpr.map fun value hvalue => ⟨hvalue, hbody, horelse⟩

theorem ensures_ifLetExpr : ExprCalls P (ifLetExpr p) := by
  refine .bindAny fun c => .bindAny fun pat => ?_
  refine h.bindExpr "value" fun value hvalue => ?_
  refine h.bindBlock "consequence" fun body hbody => ?_
  exact (ensures_elseExpr fun c hc => h.child? hc).map fun orelse horelse =>
    ⟨hvalue, hbody, horelse⟩

theorem ensures_whileExpr : ExprCalls P (whileExpr bytes p) := by
  refine (h.child "condition").bind fun cond hcond => ?_
  refine h.bindBlock "body" fun body hbody => ?_
  refine .bindAny fun label => ?_
  split
  · refine .bindAny fun c => .bindAny fun pat => ?_
    exact hcond.parts.bindExpr "value" fun value hvalue => .ok ⟨hvalue, hbody⟩
  · exact hcond.asExpr.map fun value hvalue => ⟨hvalue, hbody⟩

theorem ensures_patternLoop {make : Pat → Expr → List Stmt → Option String → Expr}
    (hmake : ∀ pat value body label, value.EachCall P → Stmt.allEachCall P body →
      (make pat value body label).EachCall P) :
    ExprCalls P (do
      let pat ← (← p.child "pattern").asPat
      let value ← (← p.child "value").asExpr
      let body ← (← p.child "body").asBlock
      return make pat value body (← p.label bytes)) := by
  refine .bindAny fun c => .bindAny fun pat => ?_
  refine h.bindExpr "value" fun value hvalue => ?_
  refine h.bindBlock "body" fun body hbody => ?_
  exact .bindAny fun label => .ok (hmake pat value body label hvalue hbody)

theorem ensures_whileLetExpr : ExprCalls P (whileLetExpr bytes p) :=
  ensures_patternLoop h fun _ _ _ _ hvalue hbody => ⟨hvalue, hbody⟩

theorem ensures_forExpr : ExprCalls P (forExpr bytes p) :=
  ensures_patternLoop h fun _ _ _ _ hvalue hbody => ⟨hvalue, hbody⟩

theorem ensures_arm :
    Ensures (fun arm => arm.body.EachCall P ∧ Expr.optionEachCall P arm.guard) (arm p) := by
  refine (h.child "pattern").bind fun pattern hpattern => ?_
  split
  · exact .error _
  · refine .bindAny fun pat => ?_
    refine h.bindExpr "value" fun body hbody => ?_
    split
    · exact .ok ⟨hbody, trivial⟩
    · next guard hguard =>
      exact (hpattern.parts.child? hguard).asExpr.map fun guard hguard => ⟨hbody, hguard⟩

theorem ensures_matchExpr : ExprCalls P (matchExpr p) := by
  refine (h.child "body").bind fun list hlist => ?_
  have harms (c : Phrase) (hc : c ∈ list.parts.named.filter fun c =>
      c.kind == "match_arm" || c.kind == "last_match_arm") :
      Ensures (fun arm => arm.body.EachCall P ∧ Expr.optionEachCall P arm.guard) (arm c.parts) :=
    ensures_arm (hlist.parts.named c (List.mem_filter.mp hc).1).parts
  refine (Ensures.mapM harms).bind fun arms harms => ?_
  exact h.bindExpr "value" fun value hvalue => .ok ⟨hvalue, Arm.allEachCall_iff.mpr harms⟩

theorem ensures_jumpValue : Ensures (Expr.optionEachCall P) (jumpValue p) := by
  unfold jumpValue
  split
  · exact .ok trivial
  · next c rest hnamed => exact (h.named c (hnamed ▸ List.mem_cons_self)).asExpr.map fun e he => he

theorem ensures_rangeExpr : ExprCalls P (rangeExpr p) := by
  have hnone : Expr.optionEachCall P none := trivial
  exact (ensures_rangeBounds h.children false ⟨hnone, hnone⟩).map fun r hr => hr

theorem ensures_readOperand : ExprCalls P (readOperand bytes p) := by
  have hident : ExprCalls P (do return .ident (← p.text bytes)) := .bindAny fun _ => .ok trivial
  unfold readOperand
  split
  · exact hident
  · exact hident
  · exact hident
  · exact ensures_pathExpr
  · exact ensures_pathExpr
  · exact (h.child "function").bind fun _ hc => hc.asExpr
  · exact ensures_unaryExpr h
  · exact ensures_binaryExpr h
  · exact ensures_assignExpr h
  · exact ensures_assignExpr h
  · exact ensures_callExpr h
  · exact ensures_fieldExpr h
  · exact ensures_indexExpr h
  · exact ensures_structExpr h
  · exact ensures_arrayExpr h
  · exact (ensures_exprs h.named).map fun es hes => hes
  · exact .ok trivial
  · exact h.firstNamed.bind fun c hc => hc.asExpr.map fun e he => he
  · exact ensures_closureExpr h
  · exact h.call.map fun m hm => hm
  · exact h.bindExpr "value" fun e he => .ok he
  · exact h.bindExpr "value" fun e he => .bindAny fun ty => .ok he
  · exact h.firstNamed.bind fun c hc => hc.asExpr.map fun e he => he
  · exact h.firstNamed.bind fun c hc => hc.asExpr.map fun e he => he
  · exact ensures_rangeExpr h
  · exact .error _

theorem ensures_readExpr {asBlock : Except Error (List Stmt)}
    (hblock : Ensures (Stmt.allEachCall P) asBlock) : ExprCalls P (readExpr bytes p asBlock) := by
  have hinner {isAsync : Bool} : ExprCalls P
      (do return .block (← (← p.childOf "block").asBlock) isAsync none) :=
    (h.childOf "block").bind fun c hc => hc.asBlock.map fun stmts hstmts => hstmts
  unfold readExpr
  split
  · exact .bindAny fun _ => .ok trivial
  · split
    · exact hblock.bind fun stmts hstmts => .bindAny fun label => .ok hstmts
    · exact hinner
    · exact hinner
    · exact ensures_ifExpr h
    · exact ensures_ifLetExpr h
    · exact ensures_whileExpr h
    · exact ensures_whileLetExpr h
    · refine h.bindBlock "body" fun stmts hstmts => ?_
      exact .bindAny fun label => .ok hstmts
    · exact ensures_forExpr h
    · exact ensures_matchExpr h
    · exact (ensures_jumpValue h).map fun value hvalue => hvalue
    · exact .bindAny fun label => (ensures_jumpValue h).map fun value hvalue => hvalue
    · exact .bindAny fun _ => .ok trivial
    · exact ensures_readOperand h

end Expressions

/-! ## Declarations and statements -/

section Statements

variable {p : Parts}

theorem ensures_function
    (hbody : ∀ c, p.child? "body" = some c → Ensures (Stmt.allEachCall P) c.asBlock) :
    Ensures (FnDecl.EachCall P) (function bytes p) := by
  refine .bindAny fun isAsync => .bindAny fun c => .bindAny fun s => .bindAny fun ident => ?_
  split
  · next c hc => exact (hbody c hc).bind fun body hbody => .bindAny fun ret => .ok hbody
  · have hnil : Stmt.allEachCall P [] := trivial
    exact (Ensures.ok hnil).bind fun body hbody => .bindAny fun ret => .ok hbody

section

variable (h : p.EachCall bytes P)

include h

theorem ensures_implItem :
    Ensures (fun decl => FnDecl.allEachCall P decl.fns) (implItem bytes p) := by
  refine .bindAny fun type => ?_
  refine (Ensures.mapM (Q := FnDecl.EachCall P) fun c hc => ?_).bind
    fun fns hfns => .bindAny fun forTrait => .ok (FnDecl.allEachCall_iff.mpr hfns)
  have hcall : c.EachCall bytes P := by
    split at hc
    · next body hbody => exact (h.child? hbody).parts.named c hc
    · exact absurd hc List.not_mem_nil
  split
  · exact ensures_function fun _ hbody => (hcall.parts.child? hbody).asBlock
  · exact .error _

theorem ensures_constItem : Ensures (fun decl => decl.value.EachCall P) (constItem bytes p) := by
  refine .bindAny fun ident => ?_
  refine h.bindExpr "value" fun value hvalue => ?_
  exact .bindAny fun ty => .ok hvalue

theorem ensures_item? {x : Except Error Item} (hx : item? bytes p = some x) :
    Ensures (Item.EachCall P) x := by
  have hconst : Ensures (Item.EachCall P) (do return .const (← constItem bytes p)) := by
    refine (ensures_constItem h).map fun decl hdecl => ?_
    cases decl
    exact hdecl
  unfold item? at hx
  split at hx <;> cases hx
  · exact (ensures_function fun c hc => (h.child? hc).asBlock).map fun decl hdecl => hdecl
  · exact .bindAny fun decl => .ok trivial
  · exact .bindAny fun decl => .ok trivial
  · refine (ensures_implItem h).map fun decl hdecl => ?_
    cases decl
    exact hdecl
  · exact hconst
  · exact hconst

theorem ensures_item : Ensures (Item.EachCall P) (item bytes p) := by
  have hunknown (what : String) :
      Ensures (Item.EachCall P) (do return .unknown (← p.itemLabel bytes) what) :=
    .bindAny fun label => .ok trivial
  unfold item
  split
  · exact .bindAny fun label => .ok trivial
  · split
    · exact hunknown _
    · next i hi => exact .ok (ensures_item? h hi i rfl)
    · split
      · exact hunknown _
      · exact .error _

theorem ensures_letStmt : Ensures (Stmt.EachCall P) (letStmt bytes p) := by
  refine .bindAny fun c => .bindAny fun pat => ?_
  have hsome {e : Expr} (he : e.EachCall P) : Expr.optionEachCall P (some e) := he
  dsimp only
  cases halternative : p.child? "alternative" with
  | none =>
    split
    · exact .bind (.ok trivial) fun init hinit => .bindAny fun ty => .ok hinit
    · next c hc =>
      refine (h.child? hc).asExpr.bind fun e he => ?_
      exact .bind (.ok (hsome he)) fun init hinit => .bindAny fun ty => .ok hinit
  | some alternative =>
    have horelse := (h.child? halternative).asBlock
    split
    · exact .bind (.ok (Q := Expr.optionEachCall P) trivial) fun init hinit => .bindAny fun ty =>
        horelse.map fun orelse horelse => ⟨hinit, horelse⟩
    · next c hc =>
      refine (h.child? hc).asExpr.bind fun e he => ?_
      exact .bind (.ok (hsome he)) fun init hinit => .bindAny fun ty =>
        horelse.map fun orelse horelse => ⟨hinit, horelse⟩

theorem ensures_exprStmt : Ensures (Stmt.EachCall P) (exprStmt bytes p) := by
  refine h.firstNamed.bind fun inner hinner => ?_
  split
  · exact hinner.parts.call.map fun m hm => hm
  · exact hinner.asExpr.map fun e he => he

theorem ensures_nestedItem : Ensures (Stmt.EachCall P) (nestedItem bytes p) := by
  refine (ensures_item h).bind fun i hi => ?_
  split
  · exact .error _
  · exact .ok hi

end

theorem ensures_stmt? {c : Phrase} (h : c.EachCall bytes P) (beforeSemi : Bool) :
    Ensures (fun s => Stmt.allEachCall P s.toList) (stmt? bytes c beforeSemi) := by
  have hone {x : Except Error Stmt} (hx : Ensures (Stmt.EachCall P) x) :
      Ensures (fun s => Stmt.allEachCall P s.toList) (do return some (← x)) :=
    hx.bind fun s hs => .ok (by simpa [Stmt.allEachCall] using hs)
  unfold stmt?
  split
  · exact hone (ensures_letStmt h.parts)
  · split
    · exact hone (ensures_exprStmt h.parts)
    · split
      · refine h.parts.call.bind fun m hm => .ok ?_
        simpa [Stmt.allEachCall, Stmt.EachCall] using hm
      · split
        · exact .ok trivial
        · split
          · exact hone (ensures_nestedItem h.parts)
          · refine h.asExpr.bind fun e he => .ok ?_
            simpa [Stmt.allEachCall, Stmt.EachCall] using he

theorem ensures_stmts {cs : List Phrase} (h : ∀ c ∈ cs, c.EachCall bytes P) :
    Ensures (Stmt.allEachCall P) (stmts bytes cs) := by
  induction cs with
  | nil => exact .ok trivial
  | cons c cs ih =>
    rw [List.forall_mem_cons] at h
    rw [stmts]
    split
    · exact ih h.2
    · exact (ensures_stmt? h.1 _).bind fun first hfirst => (ih h.2).map fun rest hrest =>
        Stmt.allEachCall_append.mpr ⟨hfirst, hrest⟩

/-- A block holds no other macro calls than those of its statements. -/
theorem ensures_readBlock (h : ∀ c ∈ p.children, isInBlock c = true → c.EachCall bytes P) :
    Ensures (Stmt.allEachCall P) (readBlock bytes p) :=
  ensures_stmts fun c hc => h c (List.mem_filter.mp hc).1 (List.mem_filter.mp hc).2

end Statements

/-! ## Trees -/

namespace Node

mutual

/-- Every node below lies within its parent. -/
def isNested : Node → Bool
  | ⟨_, start, stop, _, _, _, children⟩ => areNestedIn start stop children

def areNestedIn (start stop : Nat) : List Node → Bool
  | [] => true
  | n :: ns => start ≤ n.start && n.stop ≤ stop && n.isNested && areNestedIn start stop ns

end

theorem areNestedIn_iff {start stop : Nat} {ns : List Node} :
    areNestedIn start stop ns = true ↔
      ∀ n ∈ ns, (start ≤ n.start ∧ n.stop ≤ stop) ∧ n.isNested = true := by
  induction ns with
  | nil => simp [areNestedIn]
  | cons n ns ih =>
    rw [areNestedIn, Bool.and_eq_true, Bool.and_eq_true, Bool.and_eq_true, ih, List.forall_mem_cons]
    simp only [decide_eq_true_eq]

end Node

namespace Phrase

theorem ofNodes_eq_map (ns : List Node) : ofNodes bytes ns = ns.map (ofNode bytes) := by
  induction ns with
  | nil => rw [ofNodes, List.map_nil]
  | cons n ns ih => rw [ofNodes, ih, List.map_cons]

theorem parts_ofNode (n : Node) : (ofNode bytes n).parts =
    ⟨n.kind, n.start, n.stop, n.isNamed, n.field, n.children.map (ofNode bytes)⟩ := by
  cases n
  rw [ofNode, ofNodes_eq_map]

/-- The macro calls that a stretch of the text can hold are as asked. -/
def CallsIn (bytes : Bytes) (P : MacroCall → Prop) (start stop : Nat) : Prop :=
  ∀ p : Parts, (∀ c ∈ p.children, start ≤ c.parts.start ∧ c.parts.stop ≤ stop) →
    Ensures P (macroCall bytes p)

mutual

theorem eachCall_ofNode {start stop : Nat} (hcalls : CallsIn bytes P start stop) : (n : Node) →
    start ≤ n.start → n.stop ≤ stop → n.isNested = true → (ofNode bytes n).EachCall bytes P
  | ⟨kind, first, last, isNamed, isMissing, field, children⟩, hstart, hstop, h => by
    rw [Node.isNested, Node.areNestedIn_iff] at h
    have hinside (n : Node) (hn : n ∈ children) : start ≤ n.start ∧ n.stop ≤ stop :=
      ⟨Nat.le_trans hstart (h n hn).1.1, Nat.le_trans (h n hn).1.2 hstop⟩
    have hchildren := eachCall_ofNodes hcalls children fun n hn =>
      ⟨(hinside n hn).1, (hinside n hn).2, (h n hn).2⟩
    have hparts : Parts.EachCall bytes P
        ⟨kind, first, last, isNamed, field, ofNodes bytes children⟩ := by
      refine ⟨hcalls _ ?_, hchildren⟩
      intro c hc
      rw [ofNodes_eq_map] at hc
      obtain ⟨n, hn, rfl⟩ := List.mem_map.mp hc
      rw [parts_ofNode]
      exact hinside n hn
    have hblock := ensures_readBlock (p := ⟨kind, first, last, isNamed, field, ofNodes bytes children⟩)
      fun c hc _ => hchildren c hc
    exact .mk (ensures_readExpr hparts hblock) hblock hparts.call hchildren

theorem eachCall_ofNodes {start stop : Nat} (hcalls : CallsIn bytes P start stop) :
    (ns : List Node) → (∀ n ∈ ns, start ≤ n.start ∧ n.stop ≤ stop ∧ n.isNested = true) →
    ∀ c ∈ ofNodes bytes ns, c.EachCall bytes P
  | [], _ => fun c hc => absurd hc List.not_mem_nil
  | n :: ns, h => by
    rw [List.forall_mem_cons] at h
    rw [ofNodes, List.forall_mem_cons]
    exact ⟨eachCall_ofNode hcalls n h.1.1 h.1.2.1 h.1.2.2, eachCall_ofNodes hcalls ns h.2⟩

end

end Phrase

end Source

end RustScript
