/-
  Syntax trees to JavaScript.

  The recursion runs over the tree and hands each form its parts. Macro calls hold raw text instead
  of a tree, so how to expand them is a parameter (`expand`).
-/
import RustScript.Emit.Form
import RustScript.Emit.Match
import RustScript.Macro.Expand

namespace RustScript.Emit

section

variable (expand : MacroCall → Emit Js.Expr)

mutual

def expr : Expr → (pos : Position) → Emit pos.Code
  | .lit value, pos => pos.literal value.text? (literal value)
  | .ident name, pos => pos.plain do return .atom (← ident name)
  | .path segments, pos => pos.plain (path segments)
  | .paren e, pos => pos.plain do return .paren (← expr e .value)
  | .unary op e, pos => pos.plain (unary op do return (← expr e .value).parenIf e.isCompound)
  | .binary op l r, pos =>
    let parts : Emit (List Js.Part) := do
      let left ← expr l .part
      return left ++ (← expr r .part)
    pos.sum (op == "+") parts
      (binary op (l.isText || r.isText) parts
        (do return (← expr l .value).parenIf (l.isLooseIn op))
        (do return (← expr r .value).parenIf (r.isLooseIn op)))
  | .assign target value op, pos =>
    pos.assignment (assign op (expr target .value) (expr value .value))
  | .call (.ident name) args, pos => pos.plain do
    let codes ← exprs args
    match wrapped? name args codes with
    | some code => return code
    | none => callName name codes
  | .call (.path segments) args, pos => pos.plain do
    let name ← ofExcept (Path.last segments)
    let codes ← exprs args
    match wrapped? name args codes with
    | some code => return code
    | none => callPath segments codes
  | .call func args, pos => pos.plain do
    let callee ← expr func .value
    return .call (callee.parenIf func.isClosure) (← exprs args)
  | .methodCall receiver method args, pos => pos.plain do
    let recv ← expr receiver .value
    let codes ← exprs args
    return methodCall receiver (recv.parenIf receiver.isCompoundTarget) method codes
  | .field obj name, pos => pos.plain do
    return field ((← expr obj .value).parenIf obj.isCompoundTarget) name
  | .index obj (.range start stop inclusive), pos => pos.plain do
    let code ← expr obj .value
    RangePlan.slice (code.parenIf obj.isCompoundTarget) ⟨bound start, bound stop, inclusive⟩
  | .index obj index, pos => pos.plain do
    let code ← expr obj .value
    return .index (code.parenIf obj.isCompoundTarget) (← expr index .value)
  | .structLit segments fields base, pos => pos.plain do
    let values ← fieldInits fields
    structLit segments values (action base)
  | .arrayLit elems, pos => pos.plain do return .array (← exprs elems)
  | .arrayRepeat value count, pos => pos.plain do
    let value ← expr value .value
    return Macro.repeated value (← expr count .value)
  | .tupleLit [], pos => pos.plain (pure (.atom "undefined"))
  | .tupleLit (e :: es), pos => pos.plain do
    let first ← expr e .value
    return .array (first :: (← exprs es))
  | .closure params body isAsync, pos =>
    pos.plain (closure isAsync params
      (match body with
       | .block stmts false none => do return .block (← inScope (block stmts (some .ret)))
       | e =>
         if e.needsStatement then do return .block (← expr e (.statement (some .ret)))
         else do return .value (← expr e .value)))
  | .block stmts true _, pos => pos.plain (asyncBlock (inScope (block stmts (some .ret))))
  | .block stmts false label, pos =>
    pos.control fun tail => blockStmt label tail (inScope (block stmts tail))
  | .ifElse cond stmts orelse, pos =>
    let code :=
      match blockValue? stmts, elseValue? orelse with
      | some yes, some no => some (ternary (expr cond .value) yes no)
      | _, _ => none
    pos.either code fun tail => do
      let cond ← expr cond .value
      let body ← inScope (block stmts tail)
      let (branches, otherwise) ← elseBranches orelse tail
      return [.branch (.mk cond body :: branches) otherwise]
  | .ifLet pat value stmts orelse, pos => pos.control fun tail =>
    ifLet pat (expr value .value) value.isSimple (inScope (block stmts tail))
      (elseBranches orelse tail)
  | .whileLoop cond stmts label, pos => pos.control fun _ =>
    whileLoop (expr cond .value) label (inScope (block stmts none))
  | .whileLet pat value stmts label, pos => pos.control fun _ =>
    whileLet pat (expr value .value) label (inScope (block stmts none))
  | .loop stmts label, pos => pos.control fun tail =>
    endlessLoop label tail (inScope (block stmts none))
  | .forLoop pat iter stmts label, pos => pos.control fun _ =>
    forLoop pat ((source? iter).getD (.elements (expr iter .value))) label
      (inScope (block stmts none))
  | .matchOn subject arms, pos => pos.control fun tail => do
    let temp ← fresh "match"
    let code ← expr subject .value
    let lines ← ArmPlan.arms temp tail (armPlans arms)
    return .declare .const (.name temp) (some code) :: lines
  | .ret value, pos => pos.jump .ret (returnWith (action value))
  | .brk label value, pos => pos.jump .brk (breakTo label (action value))
  | .cont label, pos => pos.jump .cont (continueTo label)
  | .mac m, pos => pos.plain (expand m)
  | .ref e isMutable, pos => pos.literal e.text? do return borrow e isMutable (← expr e .value)
  | .deref e, pos => pos.literal e.text? (expr e .value)
  | .cast e ty, pos => pos.plain do return Idiom.cast (← expr e .value) ty
  | .tryOp e, pos => pos.plain (tryOp (expr e .value))
  | .await e, pos => pos.plain do return .await (← expr e .value)
  | .range start stop inclusive, pos =>
    pos.plain (RangePlan.value ⟨bound start, bound stop, inclusive⟩)
  | .bare, pos => pos.plain (refuse (.expression "Expr"))

def exprs : List Expr → Emit (List Js.Expr)
  | [] => pure []
  | e :: es => do
    let code ← expr e .value
    return code :: (← exprs es)

def action : Option Expr → Option (Emit Js.Expr)
  | none => none
  | some e => some (expr e .value)

def bound : Option Expr → Option BoundPlan
  | none => none
  | some e => some ⟨expr e .value, e.isLiteral, e.isCompound⟩

def fieldInits : List FieldInit → Emit (List (String × Js.Expr))
  | [] => pure []
  | ⟨name, value⟩ :: fields => do
    let code ← expr value .value
    return (name, code) :: (← fieldInits fields)

def blockValue? : List Stmt → Option (Emit Js.Expr)
  | [.expr e false] => if e.needsStatement then none else some (expr e .value)
  | [.mac m false] => if m.isValue then some (expand m) else none
  | _ => none

def elseValue? : Option Expr → Option (Emit Js.Expr)
  | some (.ifElse cond stmts orelse) =>
    match blockValue? stmts, elseValue? orelse with
    | some yes, some no => some (ternary (expr cond .value) yes no)
    | _, _ => none
  | some (.block stmts false none) => blockValue? stmts
  | _ => none

def elseBranches : Option Expr → Option Js.Tail → Emit Else
  | none, _ => pure ([], none)
  | some (.ifElse cond stmts orelse), tail => do
    let cond ← expr cond .value
    let body ← inScope (block stmts tail)
    let (branches, otherwise) ← elseBranches orelse tail
    return (.mk cond body :: branches, otherwise)
  | some (.block stmts false _), tail => do return ([], some (← inScope (block stmts tail)))
  | some e, tail => do return ([], some (← inScope (expr e (.statement tail))))

def armPlans : List Arm → List ArmPlan
  | [] => []
  | ⟨pat, body, guard⟩ :: arms =>
    { pat
      guard := action guard
      body := fun tail =>
        match body with
        | .block stmts false none => inScope (block stmts tail)
        | e => expr e (.statement tail) } :: armPlans arms

/-- What a `for` loop runs over, if it is a range or an enumeration. -/
def source? : Expr → Option Source
  | .range start stop inclusive => some (.range ⟨bound start, bound stop, inclusive⟩ false)
  | .methodCall receiver method [] =>
    if method == "rev" then (range? receiver).map fun plan => .range plan true
    else if method == "enumerate" then some (.enumerated (expr receiver .value))
    else none
  | _ => none

def range? : Expr → Option RangePlan
  | .paren e => range? e
  | .range start stop inclusive => some ⟨bound start, bound stop, inclusive⟩
  | _ => none

def block : List Stmt → Option Js.Tail → Emit (List Js.Stmt)
  | [], _ => pure []
  | [s], tail => stmt s tail
  | s :: ss, tail => do
    let lines ← stmt s none
    return lines ++ (← block ss tail)

def stmt : Stmt → Option Js.Tail → Emit (List Js.Stmt)
  | .letIn pat (some init) _ (some orelse), _ =>
    letElse pat (expr init .value) init.isSimple (inScope (block orelse none))
  | .letIn _ none _ (some _), _ => throw (.fault .illFormed)
  | .letIn pat none _ none, _ => letBare pat
  | .letIn .wild (some init) _ none, _ => expr init (.statement none)
  | .letIn pat (some init) _ none, _ =>
    if init.needsStatement then letControl pat fun tail => expr init (.statement (some tail))
    else letValue pat (expr init .value)
  | .expr e true, _ => expr e (.statement none)
  | .expr e false, tail => expr e (.statement tail)
  | .mac m semi, tail => do return [macroStmt m semi tail (← expand m)]
  | .item (.fn decl), _ => do
    let name ← declare decl.ident
    let (params, body) ← fn decl
    return [.function decl.isAsync name params body]
  | .item (.const ⟨ident, value, _, _⟩), _ => do
    let code ← expr value .value
    return [.declare .const (.name (← declare ident)) (some code)]
  | .item i, _ => refuse (.nestedDeclaration i.kind i.name)
  | .bare, _ => refuse (.statement "Stmt")

def fn : FnDecl → Emit (List Js.Binding × List Js.Stmt)
  | ⟨_, params, body, _, _, isAsync⟩ => function isAsync params (inScope (block body (some .ret)))

end

/-! The forms of the last resort, which are what the equations of the recursion say of every tree
    that no form before them fits. -/

theorem expr_closure {params : List Param} {body : Expr} {isAsync : Bool} {pos : Position}
    (hbody : ∀ stmts, body ≠ .block stmts false none) :
    expr expand (.closure params body isAsync) pos = pos.plain (closure isAsync params
      (if body.needsStatement then do
        return .block (← expr expand body (.statement (some .ret)))
      else do return .value (← expr expand body .value))) := by
  rw [expr]
  exact hbody

theorem expr_call {func : Expr} (hident : ∀ name, func ≠ .ident name)
    (hpath : ∀ segments, func ≠ .path segments) {args : List Expr} {pos : Position} :
    expr expand (.call func args) pos = pos.plain do
      let callee ← expr expand func .value
      return .call (callee.parenIf func.isClosure) (← exprs expand args) := by
  rw [expr]
  · exact hident
  · exact hpath

theorem expr_index {index : Expr}
    (hrange : ∀ start stop inclusive, index ≠ .range start stop inclusive) {obj : Expr}
    {pos : Position} :
    expr expand (.index obj index) pos = pos.plain do
      let code ← expr expand obj .value
      return .index (code.parenIf obj.isCompoundTarget) (← expr expand index .value) := by
  rw [expr]
  exact hrange

theorem block_cons {s : Stmt} {ss : List Stmt} (hss : ss ≠ []) {tail : Option Js.Tail} :
    block expand (s :: ss) tail = do
      let lines ← stmt expand s none
      return lines ++ (← block expand ss tail) := by
  rw [block]
  exact hss

end

end RustScript.Emit
