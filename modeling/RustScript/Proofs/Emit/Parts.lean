/-
  Parts of expressions and statements that are used once.

  The forms that take a value apart by a pattern use it once, a range its end, and a literal of a
  variant its base. A literal of a struct writes its base twice, and a range its start.
-/
import RustScript.Proofs.Js.Context
import RustScript.Proofs.Pattern.Arms

namespace RustScript

open Js (Context)

/-! ## Statements around code -/

namespace Js

/-- Statements with one hole: a temporary is declared with what is in it. No function is around. -/
inductive Holder where
  | declared (temp : String) (rest : List Stmt)
  | looped (label : Option String) (inner : Holder)

namespace Holder

def fill (e : Expr) : Holder → List Stmt
  | declared temp rest => .declare .const (.name temp) (some e) :: rest
  | looped label inner => [.whileLoop label (.atom "true") (inner.fill e)]

def front : Holder → List Char
  | declared temp _ => ("const " ++ temp ++ " = ").toList
  | looped label inner => (labelText label ++ "while (true) \x7b\n").toList ++ inner.front

def back : Holder → List Char
  | declared _ rest => ";\n".toList ++ linesText (blockLines rest)
  | looped _ inner => inner.back ++ "\x7d\n".toList

theorem text_fill (h : Holder) (e : Expr) :
    linesText (blockLines (h.fill e)) = h.front ++ e.text.toList ++ h.back := by
  induction h with
  | declared temp rest =>
    simp [fill, blockLines, Stmt.lines, Keyword.text, Binding.text, front, back]
  | looped label inner ih =>
    have hnil : linesText [] = [] := rfl
    simp [fill, blockLines, Stmt.lines, Expr.text, ih, front, back, hnil]

end Holder

end Js

/-! ## Emissions that use a part once -/

namespace Emit

/-- The emission of a part is run once, and what is around its code does not depend on it. In the
    text the code stands at one place. -/
def UsesOnce {κ γ : Type} (fill : κ → Js.Expr → γ) (text : γ → List Char)
    (build : Emit Js.Expr → Emit γ) : Prop :=
  (∃ (α : Type) (first : Emit α) (rest : α → Emit κ), ∀ part, build part = do
    let a ← first
    let code ← part
    return fill (← rest a) code) ∧
  ∀ c, ∃ front back, ∀ e, text (fill c e) = front ++ e.text.toList ++ back

/-- A value uses a part once, outside of all functions, and runs it whenever it is run to its
    end. -/
def UsesValueOnce (build : Emit Js.Expr → Emit Js.Expr) : Prop :=
  UsesOnce (fun (c : { c : Context // c.isStrict = true }) e => c.val.fill e)
    (fun code => code.text.toList) build

/-- Statements use a part once, to declare a temporary outside of all functions. -/
def UsesInLinesOnce (build : Emit Js.Expr → Emit (List Js.Stmt)) : Prop :=
  UsesOnce (fun (h : Js.Holder) e => h.fill e) (fun lines => Js.linesText (Js.blockLines lines))
    build

variable {build : Emit Js.Expr → Emit Js.Expr} {path : List String} {part : Emit Js.Expr}
  {place : Place} {s t : State} {code : Js.Expr} {α : Type}

theorem UsesValueOnce.of_eq (first : Emit α) (rest : α → Emit { c : Context // c.isStrict = true })
    (h : ∀ part, build part = do let a ← first let code ← part return (← rest a).val.fill code) :
    UsesValueOnce build :=
  ⟨⟨α, first, rest, h⟩, fun c => ⟨c.val.front.toList, c.val.back.toList, fun e => by
    beta_reduce
    rw [c.val.text_fill, String.toList_append, String.toList_append]⟩⟩

theorem UsesInLinesOnce.of_eq {build : Emit Js.Expr → Emit (List Js.Stmt)} (first : Emit α)
    (rest : α → Emit Js.Holder)
    (h : ∀ part, build part = do let a ← first let code ← part return (← rest a).fill code) :
    UsesInLinesOnce build :=
  ⟨⟨α, first, rest, h⟩, fun h => ⟨h.front, h.back, h.text_fill⟩⟩

theorem usesInLinesOnce_ifLet (pat : Pat) (body : Emit (List Js.Stmt)) (orelse : Emit Else) :
    UsesInLinesOnce fun part => ifLet pat part false body orelse := by
  refine .of_eq (pure ()) (fun _ => do
    let temp ← fresh "tmp"
    let m ← matcher pat temp
    let body ← inScope do
      let bindings ← bindMatched m.bindings
      return bindings ++ (← body)
    let rest ← orelse
    return .declared temp [.branch (.mk (.tests m.tests) body :: rest.1) rest.2])
    fun part => ?_
  simp only [ifLet, named, Bool.false_eq_true, if_false, bind_assoc, pure_bind]
  rfl

theorem usesInLinesOnce_letElse (pat : Pat) (body : Emit (List Js.Stmt)) :
    UsesInLinesOnce fun part => letElse pat part false body := by
  refine .of_eq (pure ()) (fun _ => do
    let temp ← fresh "tmp"
    let m ← matcher pat temp
    let body ← body
    let bindings ← bindMatched m.bindings
    return .declared temp
      (.branch [.mk (.unary "!" (.paren (.tests m.tests))) body] none :: bindings)) fun part => ?_
  simp only [letElse, named, Bool.false_eq_true, if_false, bind_assoc, pure_bind]
  rfl

theorem usesInLinesOnce_whileLet (pat : Pat) (label : Option String) (body : Emit (List Js.Stmt)) :
    UsesInLinesOnce fun part => whileLet pat part label body := by
  refine .of_eq (fresh "tmp") (fun temp => do
    let m ← matcher pat temp
    let body ← loopBody label none (inScope do
      let bindings ← bindMatched m.bindings
      return bindings ++ (← body))
    return .looped (labelName? label) (.declared temp (.breakUnless (.tests m.tests) :: body)))
    fun part => ?_
  simp only [whileLet, bind_assoc, pure_bind]
  rfl

/-- A `match` on a value that is emitted by `part`. -/
def matchOn (arms : List ArmPlan) (tail : Option Js.Tail) (part : Emit Js.Expr) :
    Emit (List Js.Stmt) := do
  let temp ← fresh "match"
  let code ← part
  let lines ← ArmPlan.arms temp tail arms
  return .declare .const (.name temp) (some code) :: lines

theorem usesInLinesOnce_matchOn (arms : List ArmPlan) (tail : Option Js.Tail) :
    UsesInLinesOnce (matchOn arms tail) := by
  refine .of_eq (fresh "match") (fun temp => do
    return .declared temp (← ArmPlan.arms temp tail arms)) fun part => ?_
  simp only [matchOn, bind_assoc, pure_bind]
  rfl

/-! ### Values -/

theorem usesValueOnce_structLit (h : Path.isVariant path = true)
    (fields : Emit (List (String × Js.Expr))) :
    UsesValueOnce fun part => (do structLit path (← fields) (some part)) := by
  refine .of_eq (do
      let values ← fields
      return (values, ← ofExcept (Path.last path)))
    (fun (values, name) => pure ⟨.argument (.atom "Object.assign") [.atom "\x7b\x7d"] .hole
      [.object (.pair "type" (.atom ("\"" ++ name ++ "\"")) :: variantFields values)], rfl⟩)
    fun part => ?_
  simp only [structLit, h, if_true, bind_assoc, pure_bind]
  rfl

/-- The array of the numbers of a range. -/
def rangeCode (inclusive : Bool) (stop start : Js.Expr) : Js.Expr :=
  let fromZero := start.text == "0"
  let length := if fromZero then stop else .binary "-" stop start
  let length := if inclusive then .binary "+" length (.atom "1") else length
  let item := if fromZero then .atom "$i" else .binary "+" (.atom "$i") start
  Idiom.named "Array.from"
    [.object [.pair "length" length], .arrow .helper false [.name "$v", .name "$i"] item]

def rangeStart : Option BoundPlan → Emit Js.Expr
  | none => pure (.atom "0")
  | some start => start.operand

theorem rangeValue_eq (start : Option BoundPlan) (stop : BoundPlan) (inclusive : Bool) :
    RangePlan.value ⟨start, some stop, inclusive⟩ = (do
      let stop ← stop.operand
      return rangeCode inclusive stop (← rangeStart start)) := by
  cases start <;> rfl

/-- The code around the end of a range. -/
def aroundStop (isCompound inclusive : Bool) (start : Js.Expr) : Context :=
  let fromZero := start.text == "0"
  let stop := if isCompound then .paren .hole else .hole
  let length := if fromZero then stop else .left "-" stop start
  let length := if inclusive then .left "+" length (.atom "1") else length
  let item := if fromZero then .atom "$i" else .binary "+" (.atom "$i") start
  .argument (.atom "Array.from") [] (.property "length" length)
    [.arrow .helper false [.name "$v", .name "$i"] item]

theorem isStrict_aroundStop (isCompound inclusive : Bool) (start : Js.Expr) :
    (aroundStop isCompound inclusive start).isStrict = true := by
  unfold aroundStop
  cases isCompound <;> cases inclusive <;> cases start.text == "0" <;> rfl

theorem fill_aroundStop (isCompound inclusive : Bool) (start stop : Js.Expr) :
    (aroundStop isCompound inclusive start).fill stop =
      rangeCode inclusive (stop.parenIf isCompound) start := by
  unfold aroundStop rangeCode
  cases isCompound <;> cases inclusive <;> cases start.text == "0" <;> rfl

theorem usesValueOnce_rangeStop (start : Option BoundPlan) (isLiteral isCompound inclusive : Bool) :
    UsesValueOnce fun part =>
      RangePlan.value ⟨start, some ⟨part, isLiteral, isCompound⟩, inclusive⟩ := by
  refine .of_eq (pure ()) (fun _ => do
    return ⟨_, isStrict_aroundStop isCompound inclusive (← rangeStart start)⟩) fun part => ?_
  simp only [rangeValue_eq, BoundPlan.operand, bind_assoc, pure_bind, fill_aroundStop]

/-! ### Values that use a part twice -/

/-- The emission of a part with other code for its result. -/
def replaced (part : Emit Js.Expr) (code : Js.Expr) : Emit Js.Expr := (fun _ => code) <$> part

theorem replaced_of_ok (h : part place s = (.ok code, t)) (other : Js.Expr) :
    replaced part other place s = (.ok other, t) := by
  rw [replaced, map_eq_pure_bind]
  exact bind_of_ok h _

theorem UsesValueOnce.length_text (h : UsesValueOnce build)
    (hrun : build part place s = (.ok code, t)) :
    ∃ n, ∀ other result u, build (replaced part other) place s = (.ok result, u) →
      result.text.length = n + other.text.length := by
  obtain ⟨⟨α, first, rest, hbuild⟩, htext⟩ := h
  rw [hbuild] at hrun
  obtain ⟨a, s₁, hfirst, hrun⟩ := exists_of_bind hrun
  obtain ⟨own, s₂, hpart, hrun⟩ := exists_of_bind hrun
  obtain ⟨c, s₃, hrest, -⟩ := exists_of_bind hrun
  obtain ⟨front, back, hfill⟩ := htext c
  refine ⟨front.length + back.length, fun other result u hother => ?_⟩
  rw [hbuild, bind_of_ok hfirst, bind_of_ok (replaced_of_ok hpart other),
    bind_of_ok hrest] at hother
  obtain rfl : c.val.fill other = result := Except.ok.inj (congrArg Prod.fst hother)
  have hlength := congrArg List.length (hfill other)
  simp only [List.length_append, String.length_toList] at hlength
  omega

theorem not_usesValueOnce_of_length {u : State} (hrun : build part place s = (.ok code, t))
    (twice : Js.Expr → Js.Expr)
    (htwice : ∀ other, build (replaced part other) place s = (.ok (twice other), u))
    (hlength : (twice (.atom "xx")).text.length = (twice (.atom "x")).text.length + 2) :
    ¬UsesValueOnce build := by
  intro honce
  obtain ⟨n, hn⟩ := honce.length_text hrun
  have hx : (twice (.atom "x")).text.length = n + 1 := hn _ _ u (htwice _)
  have hxx : (twice (.atom "xx")).text.length = n + 2 := hn _ _ u (htwice _)
  omega

/-- A struct with the fields of another one, but for those that are given. -/
def overBase (values : List (String × Js.Expr)) (base : Js.Expr) : Js.Expr :=
  Idiom.named "Object.assign"
    [Idiom.named "Object.create" [Idiom.named "Object.getPrototypeOf" [base]], base,
      .object (values.map fun (name, code) => .pair name code)]

theorem structLit_eq_overBase (h : Path.isVariant path = false) (values : List (String × Js.Expr))
    (part : Emit Js.Expr) :
    structLit path values (some part) = (do
      let name ← ofExcept (Path.last path)
      let _ ← typeName name
      return overBase values (← part)) := by
  simp only [structLit, h, Bool.false_eq_true, if_false]
  rfl

theorem not_usesValueOnce_structLit (h : Path.isVariant path = false)
    {fields : Emit (List (String × Js.Expr))}
    (hrun : (do structLit path (← fields) (some part)) place s = (.ok code, t)) :
    ¬UsesValueOnce fun part => (do structLit path (← fields) (some part)) := by
  obtain ⟨values, s₁, hvalues, hlit⟩ := exists_of_bind hrun
  rw [structLit_eq_overBase h] at hlit
  obtain ⟨name, s₂, hname, hlit⟩ := exists_of_bind hlit
  obtain ⟨type, s₃, htype, hlit⟩ := exists_of_bind hlit
  obtain ⟨own, s₄, hpart, -⟩ := exists_of_bind hlit
  refine not_usesValueOnce_of_length hrun (u := s₄) (overBase values) (fun other => ?_) ?_
  · rw [bind_of_ok hvalues, structLit_eq_overBase h, bind_of_ok hname, bind_of_ok htype,
      bind_of_ok (replaced_of_ok hpart other)]
    rfl
  · have hx : "x".length = 1 := rfl
    have hxx : "xx".length = 2 := rfl
    simp only [overBase, Idiom.named, Js.Expr.text, Js.exprTexts, Js.commas,
      String.intercalate_cons_cons, String.intercalate_singleton, String.length_append]
    omega

theorem not_usesValueOnce_rangeStart {stop : BoundPlan} {isLiteral isCompound inclusive : Bool}
    (hrun : RangePlan.value ⟨some ⟨part, isLiteral, isCompound⟩, some stop, inclusive⟩ place s =
      (.ok code, t)) :
    ¬UsesValueOnce fun part =>
      RangePlan.value ⟨some ⟨part, isLiteral, isCompound⟩, some stop, inclusive⟩ := by
  have hvalue := hrun
  rw [rangeValue_eq] at hvalue
  obtain ⟨stopCode, s₁, hstop, hvalue⟩ := exists_of_bind hvalue
  obtain ⟨first, s₂, hstart, -⟩ := exists_of_bind hvalue
  obtain ⟨own, s₃, hpart, -⟩ := exists_of_bind hstart
  refine not_usesValueOnce_of_length hrun (u := s₃)
    (fun other => rangeCode inclusive stopCode (other.parenIf isCompound))
    (fun other => ?_) ?_
  · rw [rangeValue_eq, bind_of_ok hstop]
    refine bind_of_ok ?_ _
    exact bind_of_ok (replaced_of_ok hpart other) _
  · have hx : "x".length = 1 := rfl
    have hxx : "xx".length = 2 := rfl
    have hone : ((Js.Expr.atom "x").parenIf isCompound).text ≠ "0" := by cases isCompound <;> decide
    have htwo : ((Js.Expr.atom "xx").parenIf isCompound).text ≠ "0" := by
      cases isCompound <;> decide
    simp only [rangeCode, beq_false_of_ne hone, beq_false_of_ne htwo]
    cases inclusive <;> cases isCompound <;>
    · simp only [Bool.false_eq_true, if_false, if_true, Idiom.named, Js.Expr.parenIf, Js.Expr.text,
        Js.exprTexts, Js.propTexts, Js.commas, String.intercalate_cons_cons,
        String.intercalate_singleton, String.length_append]
      omega

end Emit

/-! ## Forms and their parts -/

open Emit (UsesValueOnce UsesInLinesOnce bound block inScope elseBranches letElse)

section Forms

variable (expand : MacroCall → Emit Js.Expr)

/-- A form that is a value, but for one of its parts. -/
inductive ValueForm where
  | literal (path : List String) (fields : List FieldInit)
  | rangeFrom (stop : Option Expr) (inclusive : Bool)
  | rangeTo (start : Option Expr) (inclusive : Bool)

namespace ValueForm

def expr (part : Expr) : ValueForm → Expr
  | literal path fields => .structLit path fields (some part)
  | rangeFrom stop inclusive => .range (some part) stop inclusive
  | rangeTo start inclusive => .range start (some part) inclusive

def build (part : Expr) (code : Emit Js.Expr) : ValueForm → Emit Js.Expr
  | literal path fields => do Emit.structLit path (← Emit.fieldInits expand fields) (some code)
  | rangeFrom stop inclusive =>
    RangePlan.value
      ⟨some ⟨code, part.isLiteral, part.isCompound⟩, bound expand stop, inclusive⟩
  | rangeTo start inclusive =>
    RangePlan.value
      ⟨bound expand start, some ⟨code, part.isLiteral, part.isCompound⟩, inclusive⟩

theorem expr_eq (form : ValueForm) (part : Expr) (pos : Position) :
    Emit.expr expand (form.expr part) pos =
      pos.plain (form.build expand part (Emit.expr expand part .value)) := by
  cases form <;>
  · rw [expr, Emit.expr]
    simp only [Emit.action, bound]
    rfl

def isSound : ValueForm → Bool
  | literal path _ => Path.isVariant path
  | rangeFrom .. => false
  | rangeTo .. => true

end ValueForm

/-- A form of control flow, but for the value that it takes apart. -/
inductive ControlForm where
  | ifLet (pat : Pat) (body : List Stmt) (orelse : Option Expr)
  | whileLet (pat : Pat) (body : List Stmt) (label : Option String)
  | matchOn (arms : List Arm)

namespace ControlForm

def expr (part : Expr) : ControlForm → Expr
  | ifLet pat body orelse => .ifLet pat part body orelse
  | whileLet pat body label => .whileLet pat part body label
  | matchOn arms => .matchOn part arms

/-- The emission of the form for a tail, given that of a value that is not simple. -/
def build (tail : Option Js.Tail) (code : Emit Js.Expr) : ControlForm → Emit (List Js.Stmt)
  | ifLet pat body orelse =>
    Emit.ifLet pat code false (inScope (block expand body tail))
      (elseBranches expand orelse tail)
  | whileLet pat body label =>
    Emit.whileLet pat code label (inScope (block expand body none))
  | matchOn arms => Emit.matchOn (Emit.armPlans expand arms) tail code

theorem expr_eq (form : ControlForm) {part : Expr} (h : part.isSimple = false) (pos : Position) :
    Emit.expr expand (form.expr part) pos =
      pos.control fun tail => form.build expand tail (Emit.expr expand part .value) := by
  cases form with
  | ifLet =>
    rw [expr, Emit.expr, h]
    rfl
  | whileLet =>
    rw [expr, Emit.expr]
    rfl
  | matchOn =>
    rw [expr, Emit.expr]
    rfl

theorem usesInLinesOnce (form : ControlForm) (tail : Option Js.Tail) :
    UsesInLinesOnce fun code => form.build expand tail code := by
  cases form with
  | ifLet => exact Emit.usesInLinesOnce_ifLet ..
  | whileLet => exact Emit.usesInLinesOnce_whileLet ..
  | matchOn => exact Emit.usesInLinesOnce_matchOn ..

end ControlForm

end Forms

/-- A value uses a part once exactly if it is the end of a range or the base of a variant. A form
    that takes apart a value which is not simple uses it once in every position, and so does a `let`
    with an `else`. -/
theorem parts_are_used_once_iff (expand : MacroCall → Emit Js.Expr) :
    (∀ (form : ValueForm) (part : Expr) (place : Place) (s t : State) (code : Js.Expr),
      Emit.expr expand (form.expr part) .value place s = (.ok code, t) →
        (Emit.expr expand (form.expr part) .value =
          form.build expand part (Emit.expr expand part .value)) ∧
        (UsesValueOnce (form.build expand part ·) ↔ form.isSound = true)) ∧
    (∀ (form : ControlForm) (part : Expr), part.isSimple = false →
      (∀ pos, Emit.expr expand (form.expr part) pos =
        pos.control fun tail => form.build expand tail (Emit.expr expand part .value)) ∧
      ∀ tail, UsesInLinesOnce (form.build expand tail ·)) ∧
    ∀ (pat : Pat) (part : Expr) (ty : Option String) (orelse : List Stmt) (tail : Option Js.Tail),
      part.isSimple = false →
        (Emit.stmt expand (.letIn pat (some part) ty (some orelse)) tail =
          letElse pat (Emit.expr expand part .value) false
            (inScope (block expand orelse none))) ∧
        UsesInLinesOnce fun code =>
          letElse pat code false (inScope (block expand orelse none)) := by
  refine ⟨fun form part place s t code hrun => ⟨form.expr_eq expand part .value, ?_⟩,
    fun form part hsimple => ⟨form.expr_eq expand hsimple, form.usesInLinesOnce expand⟩,
    fun pat part ty orelse tail hsimple => ⟨?_, Emit.usesInLinesOnce_letElse pat _⟩⟩
  · rw [form.expr_eq expand part .value] at hrun
    cases form with
    | literal path fields =>
      cases hpath : Path.isVariant path with
      | true => exact iff_of_true (Emit.usesValueOnce_structLit hpath _) hpath
      | false =>
        exact iff_of_false (Emit.not_usesValueOnce_structLit hpath hrun) (ne_true_of_eq_false hpath)
    | rangeFrom stop inclusive =>
      refine iff_of_false ?_ Bool.false_ne_true
      cases stop with
      | none => cases hrun
      | some stop => exact Emit.not_usesValueOnce_rangeStart hrun
    | rangeTo start inclusive => exact iff_of_true (Emit.usesValueOnce_rangeStop ..) rfl
  · rw [Emit.stmt, hsimple]

/-- The call `f()`. -/
def callOfF : Expr := .call (.ident "f") []

/-- The range `1..f()` and the conditional `if let Some(x) = f() {}` write the call once. -/
theorem call_as_end_and_subject_is_used_once :
    (∃ code, (Reader.ofTable []).emit (.range (some (.lit (.int 1))) (some callOfF) false) .value
        {} {} = (.ok code, {}) ∧ UsesValueOnce fun code => RangePlan.value
        ⟨bound (Reader.ofTable []).expand (some (.lit (.int 1))), some ⟨code, false, false⟩,
          false⟩) ∧
    UsesInLinesOnce fun code => Emit.ifLet
      (.tupleStruct ["Some"] [.ident "x" false false none]) code false
      (inScope (block (Reader.ofTable []).expand [] none))
      (elseBranches (Reader.ofTable []).expand none none) := by
  obtain ⟨hvalue, hcontrol, -⟩ := parts_are_used_once_iff (Reader.ofTable []).expand
  exact ⟨⟨_, rfl, (hvalue (.rangeTo (some (.lit (.int 1))) false) callOfF {} {} _ _ rfl).2.mpr rfl⟩,
    (hcontrol (.ifLet _ [] none) callOfF rfl).2 none⟩

/-- The literal `P { x: 1, ..f() }` and the range `f()..n` call `f` twice, and the range calls it
    again for each of its elements. -/
theorem call_as_base_and_start_is_repeated :
    (∃ code, (Reader.ofTable []).emit (.structLit ["P"] [⟨"x", .lit (.int 1)⟩] (some callOfF))
        .value {} {} = (.ok code, {}) ∧
      code.text = "Object.assign(Object.create(Object.getPrototypeOf(f())), f(), \x7b x: 1 \x7d)") ∧
    ∃ code, (Reader.ofTable []).emit (.range (some callOfF) (some (.ident "n")) false) .value
        {} {} = (.ok code, {}) ∧
      code.text = "Array.from(\x7b length: n - f() \x7d, ($v, $i) => $i + f())" := by
  refine ⟨⟨Emit.overBase [("x", .atom "1")] (.call (.atom "f") []), rfl, by decide⟩,
    Emit.rangeCode false (.atom "n") (.call (.atom "f") []), rfl, by decide⟩

end RustScript
