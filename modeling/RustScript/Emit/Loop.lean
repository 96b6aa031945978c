/-
  Ranges, loops and jumps.

  A part of an expression comes with what its surroundings have to know: whether it is a literal,
  which may be read again in each round, and whether it needs parentheses as an operand.
-/
import RustScript.Emit.Pattern
import RustScript.Idiom.Method

namespace RustScript

/-- Whether the expression stands in parentheses as an operand. -/
def Expr.isCompound (e : Expr) : Bool :=
  match e.stripBorrows with
  | .binary .. => true
  | .assign .. => true
  | .closure .. => true
  | _ => false

/-- Whether the expression stands in parentheses before a point or a bracket. -/
def Expr.isCompoundTarget (e : Expr) : Bool :=
  match e.stripBorrows with
  | .binary .. => true
  | .unary .. => true
  | .assign .. => true
  | .closure .. => true
  | .lit value => value.isNumber
  | _ => false

def Expr.isLiteral : Expr → Bool
  | .lit _ => true
  | _ => false

def Js.Expr.parenIf (code : Js.Expr) (needed : Bool) : Js.Expr :=
  if needed then .paren code else code

structure BoundPlan where
  code : Emit Js.Expr
  isLiteral : Bool
  isCompound : Bool

def BoundPlan.operand (b : BoundPlan) : Emit Js.Expr := do
  return (← b.code).parenIf b.isCompound

structure RangePlan where
  start : Option BoundPlan
  stop : Option BoundPlan
  inclusive : Bool

namespace RangePlan

/-- The range as an array. The end is emitted before the start. -/
def value (r : RangePlan) : Emit Js.Expr := do
  match r.stop with
  | none => Emit.refuse .openRange
  | some stop =>
    let stop ← stop.operand
    let start ←
      match r.start with
      | none => pure (.atom "0")
      | some start => start.operand
    let fromZero := start.text == "0"
    let length := if fromZero then stop else .binary "-" stop start
    let length := if r.inclusive then .binary "+" length (.atom "1") else length
    let item := if fromZero then .atom "$i" else .binary "+" (.atom "$i") start
    return Idiom.named "Array.from"
      [.object [.pair "length" length], .arrow .helper false [.name "$v", .name "$i"] item]

def slice (obj : Js.Expr) (r : RangePlan) : Emit Js.Expr := do
  let start ←
    match r.start with
    | none => pure (.atom "0")
    | some start => start.code
  match r.stop with
  | none => return .call (.member obj "slice") [start]
  | some stop =>
    let stop ←
      if r.inclusive then do pure (.binary "+" (← stop.operand) (.atom "1"))
      else stop.code
    return .call (.member obj "slice") [start, stop]

end RangePlan

namespace Emit

def loopBody (label : Option String) (tail : Option Js.Tail) (body : Emit (List Js.Stmt)) :
    Emit (List Js.Stmt) :=
  inTarget ⟨label, tail, false⟩ body

def whileLoop (cond : Emit Js.Expr) (label : Option String) (body : Emit (List Js.Stmt)) :
    Emit (List Js.Stmt) := do
  let cond ← cond
  let body ← loopBody label none body
  return [.whileLoop (labelName? label) cond body]

/-- A loop without an end of its own, which hands a value over when it is left. -/
def endlessLoop (label : Option String) (tail : Option Js.Tail) (body : Emit (List Js.Stmt)) :
    Emit (List Js.Stmt) := do
  let body ← loopBody label tail body
  return [.whileLoop (labelName? label) (.atom "true") body]

def whileLet (pat : Pat) (value : Emit Js.Expr) (label : Option String)
    (body : Emit (List Js.Stmt)) : Emit (List Js.Stmt) := do
  let temp ← fresh "tmp"
  let value ← value
  let m ← matcher pat temp
  let body ← loopBody label none (inScope do
    let bindings ← bindMatched m.bindings
    return bindings ++ (← body))
  return [.whileLoop (labelName? label) (.atom "true")
    (.declare .const (.name temp) (some value) :: .breakUnless (.tests m.tests) :: body)]

def counter (pat : Pat) : Emit String :=
  match pat with
  | .ident name _ _ _ => declare name
  | _ => fresh "i"

/-- A temporary for a bound that must be read once only. -/
def limitFor (b : BoundPlan) : Emit (Option String) := do
  if b.isLiteral then return none else return some (← fresh "tmp")

def countLoop (pat : Pat) (start stop : BoundPlan) (inclusive isReversed : Bool)
    (label : Option String) (body : Emit (List Js.Stmt)) : Emit (List Js.Stmt) := do
  let first ← start.code
  let last ← stop.code
  inScope do
    let var ← counter pat
    if isReversed then
      let top := if inclusive then last else .binary "-" (last.parenIf stop.isCompound) (.atom "1")
      let limit ← limitFor start
      let body ← loopBody label none body
      return [.countDown (labelName? label) var top limit first body]
    else
      let limit ← limitFor stop
      let body ← loopBody label none body
      return [.countUp (labelName? label) var first limit last inclusive body]

def isCounter : Pat → Bool
  | .ident .. => true
  | .wild => true
  | _ => false

def isPair : Pat → Bool
  | .tuple [_, _] => true
  | _ => false

def eachLoop (pat : Pat) (source : Js.Expr) (label : Option String)
    (body : Emit (List Js.Stmt)) : Emit (List Js.Stmt) :=
  inScope do
    let binding ← destructure pat
    let binding ← if binding.text.isEmpty then do pure (.name (← fresh "unused")) else pure binding
    let body ← loopBody label none body
    return [.forOf (labelName? label) (.of pat.hasMutable) binding source body]

inductive Source where
  | range (plan : RangePlan) (isReversed : Bool)
  | enumerated (items : Emit Js.Expr)
  | elements (code : Emit Js.Expr)

/-- The code of a source that is run through element by element. Pairs may come from a plain
    object. -/
def Source.code (pat : Pat) : Source → Emit Js.Expr
  | enumerated items => do
    return .call (.member (Idiom.named "Array.from" [← items]) "entries") []
  | range plan _ => do
    let code ← plan.value
    return if isPair pat then Idiom.entries code else code
  | elements code => do
    let code ← code
    return if isPair pat then Idiom.entries code else code

/-- A `for` loop. A range with both bounds is counted through when the pattern is one variable;
    otherwise the order of a reversed range is lost. -/
def forLoop (pat : Pat) (source : Source) (label : Option String)
    (body : Emit (List Js.Stmt)) : Emit (List Js.Stmt) := do
  match source, isCounter pat with
  | .range ⟨some start, some stop, inclusive⟩ isReversed, true =>
    countLoop pat start stop inclusive isReversed label body
  | _, _ => eachLoop pat (← source.code pat) label body

def JumpTarget.accepts (label : Option String) (target : JumpTarget) : Bool :=
  match label with
  | none => !target.isBlock
  | some _ => target.label == label

def findTarget (jump : Jump) (label : Option String) : Emit JumpTarget := do
  match (← get).targets.find? (JumpTarget.accepts label), label with
  | some target, _ => return target
  | none, none => refuse (.outsideLoop jump)
  | none, some label => refuse (.unknownLabel jump label)

def breakTo (label : Option String) (value : Option (Emit Js.Expr)) : Emit (List Js.Stmt) := do
  let target ← findTarget .brk label
  let jump := Js.Stmt.brk (labelName? label)
  match value with
  | none => return [jump]
  | some value =>
    let value ← value
    match target.tail with
    | none => return [.expr value, jump]
    | some tail => return [.exit tail value (labelName? label)]

def continueTo (label : Option String) : Emit (List Js.Stmt) := do
  let _ ← findTarget .cont label
  return [.cont (labelName? label)]

/-- A `return`, which cannot leave a block that is used as a value. -/
def returnWith (value : Option (Emit Js.Expr)) : Emit (List Js.Stmt) := do
  if (← get).frame.valueDepth != 0 then refuse .returnInValue
  else
    match value with
    | none => return [.ret none]
    | some value => return [.ret (some (← value))]

end Emit

end RustScript
