/-
  Expressions.

  An expression is an operand and what follows it: calls, fields and the like always, an operator if
  it binds at least as tightly as the level asked for. A range may lack its upper bound; what could
  go on with the expression as well as begin a bound then goes on with it.
-/
import RustScript.Grammar.Pattern

namespace RustScript.Grammar

namespace Parser

/-! ## Operators -/

/-- How tightly operators bind, and the nodes they make. -/
def operators : List (String × Nat × String) :=
  [("=", 0, "assignment_expression"), ("+=", 0, "compound_assignment_expr"),
   ("-=", 0, "compound_assignment_expr"), ("*=", 0, "compound_assignment_expr"),
   ("/=", 0, "compound_assignment_expr"), ("%=", 0, "compound_assignment_expr"),
   ("&=", 0, "compound_assignment_expr"), ("|=", 0, "compound_assignment_expr"),
   ("^=", 0, "compound_assignment_expr"), ("<<=", 0, "compound_assignment_expr"),
   (">>=", 0, "compound_assignment_expr"), ("||", 2, "binary_expression"),
   ("&&", 3, "binary_expression"), ("==", 4, "binary_expression"), ("!=", 4, "binary_expression"),
   ("<", 4, "binary_expression"), ("<=", 4, "binary_expression"), (">", 4, "binary_expression"),
   (">=", 4, "binary_expression"), ("|", 5, "binary_expression"), ("^", 6, "binary_expression"),
   ("&", 7, "binary_expression"), ("<<", 8, "binary_expression"), (">>", 8, "binary_expression"),
   ("+", 9, "binary_expression"), ("-", 9, "binary_expression"), ("*", 10, "binary_expression"),
   ("/", 10, "binary_expression"), ("%", 10, "binary_expression")]

def rangeLevel : Nat := 1

def castLevel : Nat := 11

def unaryLevel : Nat := 13

/-- Whether the characters begin a literal, a label or a word that does not go on with an
    expression. -/
def beginsOperand (cs : List Char) : Bool :=
  let word := String.ofList (cs.take (wordLength cs))
  opensRawString cs || opensString cs || cs.head? == some '\'' || cs.head?.any Char.isDigit ||
    (word != "" && word != "as" && word != "else")

/-- Whether the characters begin an operand and cannot go on with an expression, brackets apart. -/
def beginsOnlyOperand (mode : Mode) (cs : List Char) : Bool :=
  beginsOperand cs || ["!", "::", "$"].contains (markOf cs) ||
    (mode.structs && cs.head? == some '\x7b')

def beginsResult (mode : Mode) (cs : List Char) : Bool :=
  beginsOnlyOperand mode cs || ["-", "*", "&", "|", "<", "..", "(", "["].contains (markOf cs)

/-! ## Lists -/

def arguments (rules : Rules) : Parser Unit :=
  node "arguments" do
    symbol "("
    commaList do
      attributes rules
      rules.value
    symbol ")"

def array (rules : Rules) : Parser Unit :=
  node "array_expression" do
    symbol "["
    attributes rules
    if (← ahead).head? != some ']' && (← ahead).head? != some ',' then
      rules.value
      if (← ahead).head? == some ';' then
        symbol ";"
        inField "length" rules.value
      else
        many do
          symbol ","
          attributes rules
          rules.value
        orNothing (symbol ",")
    else orNothing (symbol ",")
    symbol "]"

def parenthesized (rules : Rules) : Parser Unit := do
  node "parenthesized_expression" do
    symbol "("
    attributes rules
    if (← ahead).head? != some ')' then
      rules.value
      many do
        symbol ","
        rules.value
      orNothing (symbol ",")
    symbol ")"
  amend fun n =>
    if n.children.any (·.kind == ",") then { n with kind := "tuple_expression" }
    else if n.children.any fun c => c.isNamed && !c.isComment then n
    else { n with kind := "unit_expression" }

/-- A field of a struct: its name alone, a name and a value, or another struct for the rest. -/
def fieldInitializer (rules : Rules) : Parser Unit := do
  if (← aheadMark) == ".." then
    node "base_field_initializer" do
      symbol ".."
      rules.value
  else
    node "shorthand_field_initializer" do
      attributes rules
      let cs ← ahead
      let length := if cs.head?.any Char.isDigit then (integerLength? cs).getD 0 else wordLength cs
      if markOf (← aheadAfter length) == ":" then
        inField "field" (integerLiteral.or (anyWord "field_identifier"))
        symbol ":"
        inField "value" rules.value
      else anyWord "identifier"
    amend fun n =>
      if n.children.any (·.kind == ":") then { n with kind := "field_initializer" } else n

def structBody (rules : Rules) : Parser Unit :=
  wrap "struct_expression" (some "name") do
    inField "body" do
      node "field_initializer_list" do
        symbol "\x7b"
        commaList (fieldInitializer rules)
        symbol "\x7d"

/-! ## Operands -/

def expressionKeywords : List String :=
  ["if", "match", "loop", "while", "for", "return", "break", "continue", "unsafe", "async",
   "static", "move", "const", "true", "false", "try", "yield"]

/-- An operand that begins with a path: a name, a macro, a struct or a generic function. -/
def pathOperand (rules : Rules) (mode : Mode) : Parser Unit := do
  let word ← aheadWord
  guard !(expressionKeywords.contains word)
  path rules
  let kind ← lastKind
  let isHard := kind == "identifier" && primitiveTypes.contains word
  let isSoft := kind == "identifier" && softKeywords.contains word
  let isPath := kind == "identifier" || kind == "scoped_identifier"
  if isPath && !isHard && (← isBang) then invocation
  else if mode.structs && (← ahead).head? == some '\x7b' && (isPath || kind == "generic_type") &&
      !isHard && !isSoft then
    amend fun n =>
      if n.kind == "generic_type" then { n with kind := "generic_type_with_turbofish" }
      else asType n
    structBody rules
  else if kind == "generic_type" then
    amend fun n =>
      { n with
        kind := "generic_function"
        children := n.children.map fun c =>
          if c.field != some "type" then c
          else if c.kind == "type_identifier" then
            { c with kind := "identifier", field := some "function" }
          else { c with field := some "function" } }
  else guard (kind != "super" && kind != "crate")

def closureParameter (rules : Rules) : Parser Unit :=
  (parameter rules false).or (rules (.pattern false))

def closure (rules : Rules) (mode : Mode) : Parser Unit :=
  node "closure_expression" do
    if ← isWord "static" then keyword "static"
    if ← isWord "async" then keyword "async"
    if ← isWord "move" then keyword "move"
    inField "parameters" do
      node "closure_parameters" do
        symbol "|"
        if (← ahead).head? != some '|' then
          separated1 (symbol ",") (closureParameter rules)
        symbol "|"
    if ← isAhead "->" then
      symbol "->"
      inField "return_type" rules.anyType
      inField "body" (rules .block)
    else if ← isWord "_" then inField "body" (keyword "_")
    else inField "body" (rules (.expr 0 mode.inner))

def jump (rules : Rules) (mode : Mode) (word kind : String) : Parser Unit :=
  node kind do
    keyword word
    if beginsResult mode (← ahead) then rules (.expr rangeLevel mode.inner)

def breakExpression (rules : Rules) (mode : Mode) : Parser Unit :=
  node "break_expression" do
    keyword "break"
    orNothing do
      label
      guard ((← aheadMark) != ":")
    let cs ← ahead
    if beginsOnlyOperand mode cs then rules (.expr rangeLevel mode.inner)

def continueExpression : Parser Unit :=
  node "continue_expression" do
    keyword "continue"
    if ← isQuoted then label

def unary (rules : Rules) (mode : Mode) (sign : String) : Parser Unit :=
  node "unary_expression" do
    symbol sign
    rules (.expr unaryLevel mode.inner)

def reference (rules : Rules) (mode : Mode) : Parser Unit :=
  node "reference_expression" do
    symbol "&"
    let next ← wordAfter 3
    if (← isWord "raw") && (next == "const" || next == "mut") then
      keyword "raw"
      if ← isWord "const" then keyword "const" else mutable
    else if ← isWord "mut" then mutable
    inField "value" (rules (.expr unaryLevel mode.inner))

def openRangeExpression (rules : Rules) (mode : Mode) : Parser Unit :=
  node "range_expression" do
    symbol ".."
    let cs ← ahead
    if beginsOnlyOperand mode cs || cs.head? == some '(' then
      rules (.expr (rangeLevel + 1) mode.inner)

/-! ## What follows an operand -/

def member (rules : Rules) : Parser Unit := do
  if (← wordAfter 1) == "await" then
    wrap "await_expression" none do
      symbol "."
      keyword "await"
  else
    wrap "field_expression" (some "value") do
      symbol "."
      inField "field" (integerLiteral.or (anyWord "field_identifier"))
    if (← isAhead "::") && (← aheadAfter 2).head? == some '<' then
      turbofish rules "generic_function" "function"

def operation (rules : Rules) (mode : Mode) (mark kind : String) (level : Nat) : Parser Unit :=
  wrap kind (some "left") do
    if kind == "assignment_expression" then symbol mark else inField "operator" (symbol mark)
    inField "right" (rules (.expr (level + 1) mode.inner))

def rangeExpression (rules : Rules) (mode : Mode) (mark : String) : Parser Unit :=
  wrap "range_expression" none do
    symbol mark
    let cs ← ahead
    if mark != ".." || beginsOnlyOperand mode cs || cs.head? == some '(' then
      rules (.expr (rangeLevel + 1) mode.inner)

/-- One thing that follows an operand at a level; false if there is none. -/
def continuation (rules : Rules) (level : Nat) (mode : Mode) : Parser Bool := do
  let cs ← ahead
  let mark := markOf cs
  if mark == "(" then
    if (← lastKind) == "range_expression" then return false
    wrap "call_expression" (some "function") (inField "arguments" (arguments rules))
    return true
  else if mark == "[" then
    wrap "index_expression" none do
      symbol "["
      rules.value
      symbol "]"
    return true
  else if mark == "?" then
    wrap "try_expression" none (symbol "?")
    return true
  else if mark == "." then
    member rules
    return true
  else if ← isWord "as" then
    if castLevel < level then return false
    wrap "type_cast_expression" (some "value") do
      keyword "as"
      inField "type" (rules (.type false))
    return true
  else if ["..", "..=", "..."].contains mark then
    if rangeLevel < level then return false
    rangeExpression rules mode mark
    return true
  else
    match operators.lookup mark with
    | none => return false
    | some (binding, kind) =>
      let stops ←
        if mark != "&&" then pure false
        else
          match mode.conjunction with
          | .joins => pure false
          | .stopsAtLet => pure ((← wordAfter 2) == "let")
          | .stops => pure true
      if binding < level || stops then return false
      operation rules mode mark kind binding
      return true

def continued (rules : Rules) (level : Nat) (mode : Mode) : Parser Unit :=
  loop (continuation rules level mode)

/-! ## Branches and loops -/

def blockAfter (rules : Rules) (kind word : String) (field : Option String) : Parser Unit :=
  node kind do
    keyword word
    if word == "async" || word == "gen" then
      if ← isWord "move" then keyword "move"
    match field with
    | some field => inField field (rules .block)
    | none => rules .block

def letCondition (rules : Rules) (structs : Bool) : Parser Unit :=
  node "let_condition" do
    keyword "let"
    inField "pattern" rules.anyPattern
    symbol "="
    inField "value" (rules (.expr 0 { structs, conjunction := .stops }))

def condition (rules : Rules) (structs : Bool) : Parser Unit := do
  if ← isWord "let" then letCondition rules structs
  else rules (.expr 0 { structs, conjunction := .stopsAtLet })
  if (← aheadMark) == "&&" then
    wrap "let_chain" none do
      loop do
        if (← aheadMark) != "&&" then return false
        symbol "&&"
        if ← isWord "let" then letCondition rules structs
        else rules (.expr 0 { structs, conjunction := .stops })
        return true

def branch (rules : Rules) : Parser Unit :=
  node "if_expression" do
    keyword "if"
    inField "condition" (rules (.condition false))
    inField "consequence" (rules .block)
    if ← isWord "else" then
      inField "alternative" do
        node "else_clause" do
          keyword "else"
          if ← isWord "if" then rules .branch else rules .block

def optionalLabel : Parser Unit := do
  if ← isQuoted then
    label
    symbol ":"

def loopExpression (rules : Rules) : Parser Unit := do
  node "loop_expression" do
    optionalLabel
    let word ← aheadWord
    keyword word
    if word == "while" then inField "condition" (rules (.condition false))
    else if word == "for" then
      inField "pattern" rules.anyPattern
      keyword "in"
      inField "value" (rules (.expr 0 { structs := false }))
    else guard (word == "loop")
    inField "body" (rules .block)
  amend fun n =>
    if n.children.any fun c => c.kind == "while" then { n with kind := "while_expression" }
    else if n.children.any fun c => c.kind == "for" then { n with kind := "for_expression" }
    else n

def isBlockLike : Parser Bool := do
  let cs ← ahead
  let word ← aheadWord
  let next := (← aheadAfter word.length)
  let nextWord := String.ofList (next.take (wordLength next))
  let opens := next.head? == some '\x7b'
  if cs.head? == some '\x7b' then return true
  else if ← isQuoted then return true
  else if ["if", "match", "while", "loop", "for"].contains word then return true
  else if ["unsafe", "try", "const"].contains word then return opens
  else if word == "async" || word == "gen" then
    let after ← aheadAfter word.length
    let cs := if nextWord == "move" then (after.drop 4).dropWhile Cursor.isSpace else after
    return cs.head? == some '\x7b'
  else return false

/-- Whether the characters begin a pattern, so that an arm that ends with a block is over. -/
def beginsPattern (cs : List Char) : Bool :=
  let word := String.ofList (cs.take (wordLength cs))
  opensRawString cs || opensString cs || (charLength? cs).isSome || cs.head?.any Char.isDigit ||
    (word != "" && word != "as") ||
    ["(", "[", "&", "-", "|", "..", "..=", "<", "::", "#", "\x7d"].contains (markOf cs)

def matchArm (rules : Rules) : Parser Unit :=
  node "match_arm" do
    many ((attributeItem rules).or (innerAttributeItem rules))
    inField "pattern" do
      node "match_pattern" do
        rules.anyPattern
        if ← isWord "if" then
          keyword "if"
          inField "condition" (rules (.condition true))
    symbol "=>"
    if ← isBlockLike then
      inField "value" (rules .blockLike)
      let cs ← ahead
      if cs.head? == some ',' then symbol ","
      else if !beginsPattern cs then
        inField "value" do
          amend fun n => { n with field := none }
          continued rules 0 {}
        if (← ahead).head? != some '\x7d' then symbol ","
    else
      inField "value" rules.value
      if (← ahead).head? != some '\x7d' then symbol ","

def matchExpression (rules : Rules) : Parser Unit :=
  node "match_expression" do
    keyword "match"
    inField "value" (rules (.expr 0 { structs := false }))
    inField "body" do
      node "match_block" do
        symbol "\x7b"
        loop do
          if (← ahead).head? == some '\x7d' then return false
          matchArm rules
          return true
        symbol "\x7d"

def blockLike (rules : Rules) : Parser Unit := do
  let word ← aheadWord
  if ← isQuoted then
    if (← succeeds (do optionalLabel; guard ((← ahead).head? == some '\x7b'))) then rules .block
    else loopExpression rules
  else if word == "if" then branch rules
  else if word == "match" then matchExpression rules
  else if ["loop", "while", "for"].contains word then loopExpression rules
  else if word == "unsafe" then blockAfter rules "unsafe_block" word none
  else if word == "try" then blockAfter rules "try_block" word none
  else if word == "async" then blockAfter rules "async_block" word none
  else if word == "gen" then blockAfter rules "gen_block" word none
  else if word == "const" then blockAfter rules "const_block" word (some "body")
  else rules .block

def operand (rules : Rules) (mode : Mode) : Parser Unit := do
  let cs ← ahead
  let word ← aheadWord
  if ← isLiteral then literal
  else if ← isBlockLike then rules .blockLike
  else if word == "return" then jump rules mode word "return_expression"
  else if word == "yield" then jump rules mode word "yield_expression"
  else if word == "break" then breakExpression rules mode
  else if word == "continue" then continueExpression
  else if ["static", "async", "move"].contains word then closure rules mode
  else
    match cs.head? with
    | some '(' => parenthesized rules
    | some '[' => array rules
    | some '-' => unary rules mode "-"
    | some '*' => unary rules mode "*"
    | some '!' => unary rules mode "!"
    | some '&' => reference rules mode
    | some '|' => closure rules mode
    | some '.' => openRangeExpression rules mode
    | _ => pathOperand rules mode

def expr (rules : Rules) (level : Nat) (mode : Mode) : Parser Unit := do
  operand rules mode
  continued rules level mode

end Parser

end RustScript.Grammar
