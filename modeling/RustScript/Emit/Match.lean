/-
  `match` and its arms.

  Arms are tried in the order of the source and the first that fits wins. A pair of arms for `Some`
  and `None` is one question whether there is a value. Without guards the arms form one chain of
  branches; with a guard they stand one after the other in a labelled block.
-/
import RustScript.Emit.Pattern

namespace RustScript

/-- An arm and how to emit its parts. -/
structure ArmPlan where
  pat : Pat
  guard : Option (Emit Js.Expr)
  body : Option Js.Tail → Emit (List Js.Stmt)

namespace ArmPlan

def takesSome (a : ArmPlan) : Except Error Bool :=
  match a.pat with
  | .tupleStruct path elems => do
    return (← Path.last path) == "Some" && elems.length == 1 && a.guard.isNone
  | _ => .ok false

def takesNone (a : ArmPlan) : Except Error Bool :=
  if a.guard.isSome then .ok false
  else
    match a.pat with
    | .path path => do return (← Path.last path) == "None"
    | .wild => .ok true
    | .ident name _ _ _ => .ok (name == "None")
    | _ => .ok false

/-- Whether the arms are one for a value that is there and one for a value that is not. -/
def isPair (present absent : ArmPlan) : Except Error Bool := do
  if ← present.takesSome then absent.takesNone else return false

/-- The arms for a value that is there and one that is not, if there are two such arms. -/
def optionPair? : List ArmPlan → Except Error (Option (ArmPlan × ArmPlan))
  | [first, second] => do
    if ← isPair first second then return some (first, second)
    else if ← isPair second first then return some (second, first)
    else return none
  | _ => .ok none

/-- The code of an arm that was chosen: its bindings, its guard and its body. `after` follows the
    body, inside the guard. -/
def emit (a : ArmPlan) (m : Matcher) (tail : Option Js.Tail) (after : List Js.Stmt) :
    Emit (List Js.Stmt) :=
  Emit.inScope do
    let bindings ← Emit.bindMatched m.bindings
    match a.guard with
    | none => return bindings ++ (← a.body tail) ++ after
    | some guard =>
      let cond ← guard
      return bindings ++ [.branch [.mk cond ((← a.body tail) ++ after)] none]

/-- The arms as branches, and what is done if none is taken. An arm that always fits ends them. -/
def chain (subject : String) (tail : Option Js.Tail) :
    List ArmPlan → Emit (List Js.Branch × Option (List Js.Stmt))
  | [] => pure ([], none)
  | a :: arms => do
    let m ← Emit.matcher a.pat subject
    let body ← a.emit m tail []
    if m.isIrrefutable then return ([], some body)
    else
      let (branches, otherwise) ← chain subject tail arms
      return (.mk (.tests m.tests) body :: branches, otherwise)

/-- Branches as statements; what is done in any case stands in a block. -/
def branchStmts : List Js.Branch → Option (List Js.Stmt) → List Js.Stmt
  | [], none => []
  | [], some body => [.block none body]
  | branches, otherwise => [.branch branches otherwise]

/-- The arms one after the other; each ends by leaving the block that `label` names. -/
def sequence (label subject : String) (tail : Option Js.Tail) :
    List ArmPlan → Emit (List Js.Stmt)
  | [] => pure []
  | a :: arms => do
    let m ← Emit.matcher a.pat subject
    let body ← a.emit m tail [.leave label]
    if m.isIrrefutable then
      if a.guard.isNone then return [.block none body]
      else return .block none body :: (← sequence label subject tail arms)
    else return .branch [.mk (.tests m.tests) body] none :: (← sequence label subject tail arms)

/-- The arms of a pair: one question whether there is a value that fits. -/
def pair (subject : String) (tail : Option Js.Tail) (present absent : ArmPlan) :
    Emit (List Js.Stmt) := do
  let m ← Emit.matcher present.pat subject
  let yes ← present.emit m tail []
  let no ← absent.emit {} tail []
  return [.branch [.mk (.tests m.tests) yes] (some no)]

/-- The arms in order, as a chain of branches or, with a guard somewhere, in a labelled block. -/
def ladder (subject : String) (tail : Option Js.Tail) (plans : List ArmPlan) :
    Emit (List Js.Stmt) :=
  if plans.any fun a => a.guard.isSome then do
    let label ← Emit.fresh "arms"
    return [.block (some label) (← sequence label subject tail plans)]
  else do
    let (branches, otherwise) ← chain subject tail plans
    return branchStmts branches otherwise

def arms (subject : String) (tail : Option Js.Tail) (plans : List ArmPlan) :
    Emit (List Js.Stmt) := do
  match ← Emit.ofExcept (optionPair? plans) with
  | some (present, absent) => pair subject tail present absent
  | none => ladder subject tail plans

end ArmPlan

end RustScript
