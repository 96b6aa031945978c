/-
  The forms of expressions, statements and functions, one by one.

  Each form is given what its parts are emitted to, or how to emit them. The order in which it runs
  its parts is the order in which they declare names and use up temporaries.
-/
import RustScript.Emit.Position
import RustScript.Idiom.Associated

namespace RustScript

def binaryOperator? : String → Option String
  | "==" => some "==="
  | "!=" => some "!=="
  | op =>
    if ["+", "-", "*", "/", "%", "<", "<=", ">", ">=", "&&", "||", "&", "|", "^", "<<",
        ">>"].contains op then some op
    else none

def unaryOperators : List String := ["-", "!"]

def assignOperators : List String :=
  ["=", "+=", "-=", "*=", "/=", "%=", "&=", "|=", "^=", "<<=", ">>="]

def comparisonOperators : List String := ["==", "!=", "<", "<=", ">", ">="]

/-- The operators that bind tighter than a comparison in the source and looser in JavaScript. -/
def bitwiseOperators : List String := ["&", "|", "^"]

namespace Expr

def isText : Expr → Bool
  | ref e _ => e.isText
  | deref e => e.isText
  | lit value => value.text?.isSome
  | mac m => m.baseName == "format"
  | methodCall _ method _ => Idiom.textMethods.contains method
  | binary op l r => op == "+" && (l.isText || r.isText)
  | call (path segments) _ =>
    Path.lastTwo? segments == some ("String", "from") ||
      Path.lastTwo? segments == some ("String", "new")
  | _ => false

/-- The text that an expression under its borrows spells out. -/
def text? (e : Expr) : Option String :=
  match e.stripBorrows with
  | lit value => value.text?
  | _ => none

/-- Whether an operand of `op` needs parentheses of its own in JavaScript. -/
def isLooseIn (op : String) : Expr → Bool
  | binary inner _ _ => comparisonOperators.contains op && bitwiseOperators.contains inner
  | _ => false

def isIdent : Expr → Bool
  | ident _ => true
  | _ => false

def isClosure : Expr → Bool
  | closure .. => true
  | _ => false

def isHost (e : Expr) : Bool :=
  match e.stripBorrows with
  | ident name => Idiom.hostGlobals.contains name
  | _ => false

end Expr

def isSlotName (name : String) : Bool :=
  let cs := Name.dropFinalNewline name.toList
  !cs.isEmpty && cs.all Text.isDecimal

namespace Emit

def literal (value : Literal) : Emit Js.Expr :=
  match value.text? with
  | some text => pure (.str text)
  | none => if value.isWritable then pure (.atom value.spelling) else throw (.fault .badNumber)

/-- The code of a path. A constant of a number type has its own; a path into a module is its last
    segment. -/
def path (segments : List String) : Emit Js.Expr :=
  match segments with
  | [name] => do return .atom (← ident name)
  | _ =>
    match Path.lastTwo? segments with
    | none => throw (.fault .missingElement)
    | some (owner, name) =>
      match Idiom.constant? owner name with
      | some code => pure (.atom code)
      | none =>
        if name == "None" then pure (.atom "null")
        else do
          let owner ← typeName owner
          return if Name.isCapitalized owner then .member (.atom owner) name
            else .atom (Name.target name)

def field (obj : Js.Expr) (name : String) : Js.Expr :=
  if isSlotName name then .index obj (.atom name) else .member obj name

def unary (op : String) (operand : Emit Js.Expr) : Emit Js.Expr :=
  if unaryOperators.contains op then do
    let operand ← operand
    return .unary op (operand.parenIf (op == "-" && operand.text.toList.head? == some '-'))
  else refuse (.unaryOperator op)

def binary (op : String) (isText : Bool) (parts : Emit (List Js.Part))
    (left right : Emit Js.Expr) : Emit Js.Expr :=
  match binaryOperator? op with
  | none => refuse (.binaryOperator op)
  | some jsOp =>
    if op == "+" && isText then do return .template (← parts)
    else do
      let left ← left
      return .binary jsOp left (← right)

def assign (op : String) (target value : Emit Js.Expr) : Emit Js.Expr :=
  if assignOperators.contains op then do
    let target ← target
    return .binary op target (← value)
  else refuse (.assignOperator op)

/-- A call of a wrapper of optional and fallible values with its one argument. -/
def wrapped? (name : String) (args : List Expr) (codes : List Js.Expr) : Option Js.Expr :=
  match args, codes with
  | [arg], [code] =>
    if name == "Some" then some (code.parenIf arg.isCompound)
    else if name == "Ok" then some (.object [.pair "ok" code])
    else if name == "Err" then some (.object [.pair "error" code])
    else none
  | _, _ => none

def callName (name : String) (args : List Js.Expr) : Emit Js.Expr := do
  if name == "Self" || ((← read).structs.lookup name).isSome then
    return .construct (← typeName name) args
  else return .call (.atom (← ident name)) args

def callPath (segments : List String) (args : List Js.Expr) : Emit Js.Expr :=
  match Path.lastTwo? segments with
  | none => throw (.fault .missingElement)
  | some (owner, func) => do
    let owner ← typeName owner
    match (Idiom.associated? owner func args) <|> (Idiom.numeric? owner func args) with
    | some code => return code
    | none =>
      return if Name.isCapitalized owner then .call (.member (.atom owner) func) args
        else .call (.atom (Name.target func)) args

/-- The properties of a variant's object; a value that is the variable of its name is shortened. -/
def variantFields (values : List (String × Js.Expr)) : List Js.Property :=
  values.map fun (name, code) => if code.text == name then .short name else .pair name code

/-- The arguments of a constructor: the values in the order of the fields. -/
def inFieldOrder (values : List (String × Js.Expr)) (order : List String) : List Js.Expr :=
  order.map fun name => (values.reverse.lookup name).getD (.atom "undefined")

/-- A new object of the impl block's own type, filled in field by field. -/
def selfObject (type : String) (values : List (String × Js.Expr)) : Emit Js.Expr := do
  let temp ← fresh "obj"
  let assigns := values.map fun (name, code) =>
    Js.Stmt.expr (.binary "=" (.member (.atom temp) name) code)
  return .call
    (.paren (.arrowBlock .helper false []
      (.declare .const (.name temp) (some (.construct type [])) :: assigns ++
        [.deliver .ret (.atom temp)])))
    []

/-- A struct literal, of which the field values are emitted. A base supplies the other fields. -/
def structLit (path : List String) (values : List (String × Js.Expr))
    (base : Option (Emit Js.Expr)) : Emit Js.Expr := do
  let name ← ofExcept (Path.last path)
  if Path.isVariant path then
    let obj := Js.Expr.object (.pair "type" (.atom ("\"" ++ name ++ "\"")) :: variantFields values)
    match base with
    | none => return obj
    | some base => return Idiom.named "Object.assign" [.atom "\x7b\x7d", ← base, obj]
  else
    let type ← typeName name
    match base with
    | some base =>
      let base ← base
      let copy := Idiom.named "Object.create" [Idiom.named "Object.getPrototypeOf" [base]]
      return Idiom.named "Object.assign"
        [copy, base, .object (values.map fun (name, code) => .pair name code)]
    | none =>
      let place ← read
      if place.selfType == some type then selfObject type values
      else
        match place.structs.lookup type with
        | none => return .construct type (values.map Prod.snd)
        | some order => return .construct type (inFieldOrder values order)

def methodCall (receiver : Expr) (recv : Js.Expr) (method : String) (args : List Js.Expr) :
    Js.Expr :=
  (Idiom.method? recv method args receiver.isSimple receiver.isHost).getD
    (.call (.member recv method) args)

/-- A borrow, which leaves a comment if what is borrowed mutably is not a plain name. -/
def borrow (e : Expr) (isMutable : Bool) (code : Js.Expr) : Js.Expr :=
  if isMutable && !e.isIdent then .note code "was &mut" else code

def tryOp (operand : Emit Js.Expr) : Emit Js.Expr := do
  if (← get).callers.isEmpty then refuse .tryOutsideFunction
  else
    modify fun state => { state with frame := { state.frame with usesTry := true } }
    return .tryUnwrap (← operand)

def guarded (usesTry : Bool) (body : List Js.Stmt) : List Js.Stmt :=
  if usesTry then [.catchTry body] else body

def function (isAsync : Bool) (ps : List Param) (body : Emit (List Js.Stmt)) :
    Emit (List Js.Binding × List Js.Stmt) := do
  let ((bindings, lines), usesTry) ← inFunction isAsync (inScope do
    let bindings ← params ps
    return (bindings, ← body))
  return (bindings, guarded usesTry lines)

inductive ClosureBody where
  | value (code : Js.Expr)
  | block (lines : List Js.Stmt)

/-- A closure. A body that is an object literal stands in parentheses. -/
def closure (isAsync : Bool) (ps : List Param) (body : Emit ClosureBody) : Emit Js.Expr := do
  let ((bindings, body), usesTry) ← inFunction isAsync (inScope do
    let bindings ← params ps
    return (bindings, ← body))
  match body, usesTry with
  | .block lines, _ => return .arrowBlock .source isAsync bindings (guarded usesTry lines)
  | .value code, true =>
    return .arrowBlock .source isAsync bindings (guarded true [.deliver .ret code])
  | .value code, false => return .arrow .source isAsync bindings (code.parenIf code.opensBrace)

def asyncBlock (body : Emit (List Js.Stmt)) : Emit Js.Expr := do
  let (lines, usesTry) ← inFunction true body
  return .call (.paren (.arrowBlock .source true [] (guarded usesTry lines))) []

/-- A block as a statement; a labelled one can be left by a `break`. -/
def blockStmt (label : Option String) (tail : Option Js.Tail) (body : Emit (List Js.Stmt)) :
    Emit (List Js.Stmt) :=
  match label with
  | none => do return [.block none (← body)]
  | some name => do
    return [.block (some (labelName name)) (← inTarget ⟨label, tail, true⟩ body)]

/-- A value under a name that may be read again: itself, or a temporary that is declared first. -/
def named (value : Emit Js.Expr) (isSimple : Bool) : Emit (List Js.Stmt × String) := do
  let code ← value
  if isSimple then return ([], code.text)
  else
    let temp ← fresh "tmp"
    return ([.declare .const (.name temp) (some code)], temp)

/-- A conditional expression. The last part is emitted first. -/
def ternary (cond yes no : Emit Js.Expr) : Emit Js.Expr := do
  let no ← no
  let cond ← cond
  return .ternary cond (← yes) no

abbrev Else := List Js.Branch × Option (List Js.Stmt)

def ifLet (pat : Pat) (value : Emit Js.Expr) (isSimple : Bool) (body : Emit (List Js.Stmt))
    (orelse : Emit Else) : Emit (List Js.Stmt) := do
  let (lines, subject) ← named value isSimple
  let m ← matcher pat subject
  let body ← inScope do
    let bindings ← bindMatched m.bindings
    return bindings ++ (← body)
  let (branches, otherwise) ← orelse
  return lines ++ [.branch (.mk (.tests m.tests) body :: branches) otherwise]

/-- A `let` with an `else`: the names are bound behind the branch that leaves. -/
def letElse (pat : Pat) (value : Emit Js.Expr) (isSimple : Bool) (body : Emit (List Js.Stmt)) :
    Emit (List Js.Stmt) := do
  let (lines, subject) ← named value isSimple
  let m ← matcher pat subject
  let body ← body
  let bindings ← bindMatched m.bindings
  return lines ++ .branch [.mk (.unary "!" (.paren (.tests m.tests))) body] none :: bindings

def letBare (pat : Pat) : Emit (List Js.Stmt) :=
  match pat with
  | .ident name _ _ none => do return [.declare .var (.name (← declare name)) none]
  | .wild => pure []
  | _ => refuse (.uninitialized pat.kind)

/-- A `let` whose initialiser is a value, which still sees the previous meaning of the names. -/
def letValue (pat : Pat) (value : Emit Js.Expr) : Emit (List Js.Stmt) := do
  let code ← value
  return [.declare (.of pat.hasMutable) (← destructure pat) (some code)]

/-- A `let` whose initialiser is control flow: a variable is declared first and assigned inside. -/
def letControl (pat : Pat) (body : Js.Tail → Emit (List Js.Stmt)) : Emit (List Js.Stmt) :=
  match pat.plainName? with
  | some name => do
    let target ← reserve name
    let lines ← body (.into target)
    bindName name target
    return .declare .var (.name target) none :: lines
  | none => do
    let temp ← fresh "tmp"
    let lines ← body (.into temp)
    return .declare .var (.name temp) none :: lines ++
      [.declare (.of pat.hasMutable) (← destructure pat) (some (.atom temp))]

/-- A macro call as a statement; the value of some macros is delivered at the end of a block. -/
def macroStmt (m : MacroCall) (semi : Bool) (tail : Option Js.Tail) (code : Js.Expr) : Js.Stmt :=
  match tail with
  | some tail => if !semi && m.isValue then .deliver tail code else .expr code
  | none => .expr code

end Emit

end RustScript
