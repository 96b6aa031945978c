/-
  Expressions, patterns and statements read from nodes.

  Each reading of a node is put together from the readings of its children (`readExpr`, `readPat`,
  `readBlock`); `Phrase.ofNode` runs through a tree from its leaves upward.
-/
import RustScript.Source.Declare
import RustScript.Source.Numeral

namespace RustScript.Source

section

variable (bytes : Bytes)

/-! ## Expressions -/

def macroCall (p : Parts) : Except Error MacroCall := do
  let name ← p.textIn bytes "macro"
  let tokens ← (← p.childOf "token_tree").parts.text bytes
  return ⟨name, String.ofList (inside tokens.toList)⟩

def pathExpr (p : Parts) : Except Error Expr := do
  match segments (← p.text bytes) with
  | [name] => return .ident name
  | path => return .path path

def unaryExpr (p : Parts) : Except Error Expr := do
  match p.children with
  | [] => .error (.fault .missingElement)
  | first :: _ =>
    let op ← first.parts.text bytes
    let operand ← (← p.firstNamed).asExpr
    return if op == "*" then .deref operand else .unary op operand

def binaryExpr (p : Parts) : Except Error Expr := do
  let op ← p.textIn bytes "operator"
  let left ← (← p.child "left").asExpr
  let right ← (← p.child "right").asExpr
  return .binary op left right

def assignExpr (p : Parts) : Except Error Expr := do
  let left ← (← p.child "left").asExpr
  let right ← (← p.child "right").asExpr
  return .assign left right ((← p.textIn? bytes "operator").getD "=")

/-- A call; a call of a field is a method call. Generic arguments are left out. -/
def callExpr (p : Parts) : Except Error Expr := do
  let func ← p.child "function"
  let args ← sequence ((← p.child "arguments").parts.named.map Phrase.asExpr)
  let func ← if func.kind == "generic_function" then func.parts.child "function" else pure func
  if func.kind == "field_expression" then
    let receiver ← (← func.parts.child "value").asExpr
    return .methodCall receiver (← func.parts.textIn bytes "field") args
  else return .call (← func.asExpr) args

def fieldExpr (p : Parts) : Except Error Expr := do
  let obj ← (← p.child "value").asExpr
  return .field obj (← p.textIn bytes "field")

def indexExpr (p : Parts) : Except Error Expr :=
  match p.named with
  | obj :: index :: _ => do
    let obj ← obj.asExpr
    return .index obj (← index.asExpr)
  | _ => .error (.fault .missingPair)

/-- The fields and the base of a struct literal; the last base counts. -/
def structFields : List Phrase → Except Error (List FieldInit × Option Expr)
  | [] => .ok ([], none)
  | c :: rest =>
    if c.kind == "shorthand_field_initializer" then do
      let name ← c.parts.text bytes
      let (fields, base) ← structFields rest
      return (⟨name, .ident name⟩ :: fields, base)
    else if c.kind == "field_initializer" then do
      let name ← c.parts.textIn bytes "field"
      let value ← (← c.parts.child "value").asExpr
      let (fields, base) ← structFields rest
      return (⟨name, value⟩ :: fields, base)
    else if c.kind == "base_field_initializer" then do
      let value ← (← c.parts.firstNamed).asExpr
      let (fields, base) ← structFields rest
      return (fields, base <|> some value)
    else structFields rest

def structExpr (p : Parts) : Except Error Expr := do
  let path := segments (← p.textIn bytes "name")
  let (fields, base) ← structFields bytes (← p.child "body").parts.named
  return .structLit path fields base

def arrayExpr (p : Parts) : Except Error Expr :=
  match p.child? "length" with
  | none => do return .arrayLit (← sequence (p.named.map Phrase.asExpr))
  | some length =>
    match ({ p with children := p.childrenBut "length" } : Parts).named with
    | [] => .error (.fault .notFound)
    | value :: _ => do
      let value ← value.asExpr
      return .arrayRepeat value (← length.asExpr)

/-- The parameters of a closure: patterns with or without a type. -/
def closureParams : List Phrase → Except Error (List Param)
  | [] => .ok []
  | c :: rest =>
    if c.kind == "|" || c.kind == "," then closureParams rest
    else if c.kind == "parameter" then do
      let ty := c.parts.textIn? bytes "type"
      let pat ← (← c.parts.child "pattern").asPat
      let param := ⟨pat, ← ty⟩
      return param :: (← closureParams rest)
    else do
      let pat ← c.asPat
      return ⟨pat, none⟩ :: (← closureParams rest)

def closureExpr (p : Parts) : Except Error Expr := do
  let params ← closureParams bytes (← p.child "parameters").parts.children
  let body ← (← p.child "body").asExpr
  return .closure params body (p.has "async")

def elseExpr (c : Option Phrase) : Except Error (Option Expr) :=
  match c with
  | none => .ok none
  | some c => do
    let inner ← if c.kind == "else_clause" then c.parts.firstNamed else pure c
    return some (← inner.asExpr)

def ifExpr (p : Parts) : Except Error Expr := do
  let cond ← p.child "condition"
  let body ← (← p.child "consequence").asBlock
  let orelse ← elseExpr (p.child? "alternative")
  if cond.kind == "let_condition" then
    let pat ← (← cond.parts.child "pattern").asPat
    let value ← (← cond.parts.child "value").asExpr
    return .ifLet pat value body orelse
  else if cond.kind == "let_chain" then .error (.refusal .letChain)
  else return .ifElse (← cond.asExpr) body orelse

def ifLetExpr (p : Parts) : Except Error Expr := do
  let pat ← (← p.child "pattern").asPat
  let value ← (← p.child "value").asExpr
  let body ← (← p.child "consequence").asBlock
  return .ifLet pat value body (← elseExpr (p.child? "alternative"))

def whileExpr (p : Parts) : Except Error Expr := do
  let cond ← p.child "condition"
  let body ← (← p.child "body").asBlock
  let label ← p.label bytes
  if cond.kind == "let_condition" then
    let pat ← (← cond.parts.child "pattern").asPat
    let value ← (← cond.parts.child "value").asExpr
    return .whileLet pat value body label
  else return .whileLoop (← cond.asExpr) body label

def whileLetExpr (p : Parts) : Except Error Expr := do
  let pat ← (← p.child "pattern").asPat
  let value ← (← p.child "value").asExpr
  let body ← (← p.child "body").asBlock
  return .whileLet pat value body (← p.label bytes)

def forExpr (p : Parts) : Except Error Expr := do
  let pat ← (← p.child "pattern").asPat
  let value ← (← p.child "value").asExpr
  let body ← (← p.child "body").asBlock
  return .forLoop pat value body (← p.label bytes)

/-- An arm of a `match`: the pattern, perhaps with a guard, and the value. -/
def arm (p : Parts) : Except Error Arm := do
  let pattern ← p.child "pattern"
  match patternsAmong (pattern.parts.childrenBut "condition") with
  | [] => .error (.fault .notFound)
  | c :: _ =>
    let pat ← c.asPat
    let body ← (← p.child "value").asExpr
    match pattern.parts.child? "condition" with
    | none => return ⟨pat, body, none⟩
    | some guard => return ⟨pat, body, some (← guard.asExpr)⟩

def matchExpr (p : Parts) : Except Error Expr := do
  let body ← p.child "body"
  let arms := body.parts.named.filter fun c => c.kind == "match_arm" || c.kind == "last_match_arm"
  let arms ← arms.mapM fun c => arm c.parts
  return .matchOn (← (← p.child "value").asExpr) arms

def jumpValue (p : Parts) : Except Error (Option Expr) :=
  match p.named with
  | [] => .ok none
  | c :: _ => do return some (← c.asExpr)

def isRangeOperator (kind : String) : Bool := kind == ".." || kind == "..=" || kind == "..."

/-- The bounds of a range and whether the end belongs to it; the last bound on either side of the
    operator counts. -/
def rangeBounds (range : Option Expr × Option Expr × Bool) (pastOperator : Bool) :
    List Phrase → Except Error (Option Expr × Option Expr × Bool)
  | [] => .ok range
  | c :: rest =>
    let (start, stop, inclusive) := range
    if isRangeOperator c.kind then rangeBounds (start, stop, c.kind != "..") true rest
    else if c.isNamed && !isComment c.kind then do
      let e ← c.asExpr
      if pastOperator then rangeBounds (start, some e, inclusive) pastOperator rest
      else rangeBounds (some e, stop, inclusive) pastOperator rest
    else rangeBounds range pastOperator rest

def rangeExpr (p : Parts) : Except Error Expr := do
  let (start, stop, inclusive) ← rangeBounds (none, none, false) false p.children
  return .range start stop inclusive

def literalKinds : List String :=
  ["integer_literal", "float_literal", "string_literal", "raw_string_literal", "char_literal",
   "boolean_literal"]

def literal? (p : Parts) : Option (Except Error Literal) :=
  match p.kind with
  | "integer_literal" => some (do integer (← p.text bytes))
  | "float_literal" => some (do float (← p.text bytes))
  | "string_literal" => some (do return .str (← Literal.decode (← p.text bytes)))
  | "raw_string_literal" => some (do return .str (← Literal.decode (← p.text bytes)))
  | "char_literal" => some (do char (← p.text bytes))
  | "boolean_literal" => some (do return .bool ((← p.text bytes) == "true"))
  | _ => none

/-- An expression of a kind that stands on its own: a name, an operator, a call or a literal of
    several parts. -/
def readOperand (p : Parts) : Except Error Expr :=
  match p.kind with
  | "identifier" => do return .ident (← p.text bytes)
  | "self" => do return .ident (← p.text bytes)
  | "type_identifier" => do return .ident (← p.text bytes)
  | "scoped_identifier" => pathExpr bytes p
  | "scoped_type_identifier" => pathExpr bytes p
  | "generic_function" => do (← p.child "function").asExpr
  | "unary_expression" => unaryExpr bytes p
  | "binary_expression" => binaryExpr bytes p
  | "assignment_expression" => assignExpr bytes p
  | "compound_assignment_expr" => assignExpr bytes p
  | "call_expression" => callExpr bytes p
  | "field_expression" => fieldExpr bytes p
  | "index_expression" => indexExpr p
  | "struct_expression" => structExpr bytes p
  | "array_expression" => arrayExpr p
  | "tuple_expression" => do return .tupleLit (← sequence (p.named.map Phrase.asExpr))
  | "unit_expression" => .ok (.tupleLit [])
  | "parenthesized_expression" => do return .paren (← (← p.firstNamed).asExpr)
  | "closure_expression" => closureExpr bytes p
  | "macro_invocation" => do return .mac (← macroCall bytes p)
  | "reference_expression" => do
    return .ref (← (← p.child "value").asExpr) (p.has "mutable_specifier")
  | "type_cast_expression" => do
    let e ← (← p.child "value").asExpr
    return .cast e (← p.textIn bytes "type")
  | "try_expression" => do return .tryOp (← (← p.firstNamed).asExpr)
  | "await_expression" => do return .await (← (← p.firstNamed).asExpr)
  | "range_expression" => rangeExpr p
  | kind => .error (.refusal (.expressionNode kind))

/-- The node as an expression; `asBlock` is its reading as a block. -/
def readExpr (p : Parts) (asBlock : Except Error (List Stmt)) : Except Error Expr :=
  match literal? bytes p with
  | some value => do return .lit (← value)
  | none =>
    match p.kind with
    | "block" => do
      let stmts ← asBlock
      return .block stmts false (← p.label bytes)
    | "async_block" => do return .block (← (← p.childOf "block").asBlock) true none
    | "unsafe_block" => do return .block (← (← p.childOf "block").asBlock) false none
    | "if_expression" => ifExpr p
    | "if_let_expression" => ifLetExpr p
    | "while_expression" => whileExpr bytes p
    | "while_let_expression" => whileLetExpr bytes p
    | "loop_expression" => do
      let body ← (← p.child "body").asBlock
      return .loop body (← p.label bytes)
    | "for_expression" => forExpr bytes p
    | "match_expression" => matchExpr p
    | "return_expression" => do return .ret (← jumpValue p)
    | "break_expression" => do
      let label ← p.label bytes
      return .brk label (← jumpValue p)
    | "continue_expression" => do return .cont (← p.label bytes)
    | _ => readOperand bytes p

/-! ## Patterns -/

def literalPat (value : Except Error Expr) (negative : Bool) : Except Error Pat := do
  match ← value with
  | .lit value => return .lit ⟨value, negative⟩
  | _ => .error (.fault .illFormed)

/-- A field of a struct pattern: its own pattern, or a variable with the field's name. -/
def fieldPat (p : Parts) : Except Error FieldPat := do
  let name ← p.textIn bytes "name"
  match p.child? "pattern" with
  | some c => return ⟨name, ← c.asPat⟩
  | none => return ⟨name, .ident name (p.has "mutable_specifier") (p.has "ref") none⟩

def structPat (p : Parts) : Except Error Pat := do
  let type ← p.child "type"
  let inner := patternsAmong (p.childrenBut "type")
  let fields ←
    (inner.filter fun c => c.kind == "field_pattern").mapM fun c => fieldPat bytes c.parts
  let path := segments (← type.parts.text bytes)
  return .struct path fields (inner.any fun c => c.kind == "remaining_field_pattern")

/-- The bounds of a range pattern, which have to be literals. -/
def rangePatBounds (range : Option LitPat × Option LitPat × Bool) (pastOperator : Bool) :
    List Phrase → Except Error (Option LitPat × Option LitPat × Bool)
  | [] => .ok range
  | c :: rest =>
    let (start, stop, inclusive) := range
    if isRangeOperator c.kind then rangePatBounds (start, stop, c.kind != "..") true rest
    else if c.isNamed && !isComment c.kind then do
      match ← c.asPat with
      | .lit bound =>
        if pastOperator then rangePatBounds (start, some bound, inclusive) pastOperator rest
        else rangePatBounds (some bound, stop, inclusive) pastOperator rest
      | _ => .error (.refusal .rangeBounds)
    else rangePatBounds range pastOperator rest

/-- The alternatives of a pattern, of which those of an inner choice are part. -/
def alternatives : List Pat → List Pat
  | [] => []
  | .alt alts :: rest => alts ++ alternatives rest
  | p :: rest => p :: alternatives rest

/-- The node as a pattern; `asExpr` is its reading as an expression. -/
def readPat (p : Parts) (asExpr : Except Error Expr) : Except Error Pat :=
  if literalKinds.contains p.kind then literalPat asExpr false
  else
    match p.kind with
    | "_" => .ok .wild
    | "remaining_field_pattern" => .ok .rest
    | "identifier" => do
      let name ← p.text bytes
      return if name == "None" then .path ["None"] else .ident name false false none
    | "mut_pattern" => do
      match ← (← p.firstNamed).asPat with
      | .ident name _ byRef sub => return .ident name true byRef sub
      | inner => return inner
    | "ref_pattern" => do
      match ← (← p.firstNamed).asPat with
      | .ident name isMutable _ sub => return .ident name isMutable true sub
      | inner => return inner
    | "captured_pattern" =>
      match patternsAmong p.children with
      | name :: sub :: _ => do
        let name ← name.parts.text bytes
        return .ident name false false (some (← sub.asPat))
      | _ => .error (.fault .missingPair)
    | "negative_literal" => do literalPat (← p.firstNamed).asExpr true
    | "tuple_pattern" => do
      return .tuple (← sequence ((patternsAmong p.children).map Phrase.asPat))
    | "slice_pattern" => do
      return .slice (← sequence ((patternsAmong p.children).map Phrase.asPat))
    | "tuple_struct_pattern" => do
      let path := segments (← p.textIn bytes "type")
      return .tupleStruct path
        (← sequence ((patternsAmong (p.childrenBut "type")).map Phrase.asPat))
    | "struct_pattern" => structPat bytes p
    | "scoped_identifier" => do return .path (segments (← p.text bytes))
    | "scoped_type_identifier" => do return .path (segments (← p.text bytes))
    | "reference_pattern" =>
      match patternsAmong p.children with
      | [] => .error (.fault .notFound)
      | c :: _ => do return .ref (← c.asPat)
    | "or_pattern" => do
      return .alt (alternatives (← (patternsAmong p.children).mapM Phrase.asPat))
    | "range_pattern" => do
      let (start, stop, inclusive) ← rangePatBounds (none, none, true) false p.children
      return .range start stop inclusive
    | kind => .error (.refusal (.patternNode kind))

/-! ## Statements -/

def letStmt (p : Parts) : Except Error Stmt := do
  let pat ← (← p.child "pattern").asPat
  let pat :=
    match pat, p.has "mutable_specifier" with
    | .ident name _ byRef sub, true => .ident name true byRef sub
    | pat, _ => pat
  let init ←
    match p.child? "value" with
    | none => pure none
    | some c => do pure (some (← c.asExpr))
  let ty ← p.textIn? bytes "type"
  match p.child? "alternative" with
  | none => return .letIn pat init ty none
  | some c => return .letIn pat init ty (some (← c.asBlock))

/-- An expression with a semicolon. A macro call is a statement of its own kind. -/
def exprStmt (p : Parts) : Except Error Stmt := do
  let inner ← p.firstNamed
  let semi := p.children.getLast?.any fun c => c.kind == ";"
  if inner.kind == "macro_invocation" then return .mac (← macroCall bytes inner.parts) semi
  else return .expr (← inner.asExpr) semi

def nestedItem (p : Parts) : Except Error Stmt := do
  match ← item bytes p with
  | .unknown _ what => .error (.refusal (.unknownNested what))
  | i => return .item i

/-- A statement, none for a declaration without meaning. `beforeSemi` says that a semicolon
    follows. -/
def stmt? (c : Phrase) (beforeSemi : Bool) : Except Error (Option Stmt) :=
  if c.kind == "let_declaration" then do return some (← letStmt bytes c.parts)
  else if c.kind == "expression_statement" then do return some (← exprStmt bytes c.parts)
  else if c.kind == "macro_invocation" then do
    return some (.mac (← macroCall bytes c.parts) beforeSemi)
  else if (inert? c.kind).isSome then .ok none
  else if itemKinds.contains c.kind then do return some (← nestedItem bytes c.parts)
  else do return some (.expr (← c.asExpr) beforeSemi)

def isSemi (c : Phrase) : Bool := c.kind == ";" || c.kind == "empty_statement"

def stmts : List Phrase → Except Error (List Stmt)
  | [] => .ok []
  | c :: rest =>
    if isSemi c || c.kind == "attribute_item" then stmts rest
    else do
      let first ← stmt? bytes c (rest.head?.any isSemi)
      return first.toList ++ (← stmts rest)

def isInBlock (c : Phrase) : Bool :=
  !isComment c.kind && !(["\x7b", "\x7d", "label", ":"].contains c.kind)

def readBlock (p : Parts) : Except Error (List Stmt) := stmts bytes (p.children.filter isInBlock)

/-! ## Trees -/

mutual

def Phrase.ofNode : Node → Phrase
  | ⟨kind, start, stop, isNamed, _, field, children⟩ =>
    let parts : Parts := ⟨kind, start, stop, isNamed, field, Phrase.ofNodes children⟩
    let asBlock := readBlock bytes parts
    let asExpr := readExpr bytes parts asBlock
    ⟨parts, asExpr, readPat bytes parts asExpr, asBlock⟩

def Phrase.ofNodes : List Node → List Phrase
  | [] => []
  | n :: ns => Phrase.ofNode n :: Phrase.ofNodes ns

end

end

end RustScript.Source
