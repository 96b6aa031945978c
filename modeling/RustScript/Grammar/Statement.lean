/-
  Statements and declarations.

  A form that ends with a block is a statement without a semicolon, unless what follows can only go
  on with it. A macro can stand alone. The last expression of a block needs no semicolon.
-/
import RustScript.Grammar.Expression

namespace RustScript.Grammar

namespace Parser

/-! ## Declarations -/

def optionalVisibility : Parser Unit := do
  if ← isWord "pub" then visibility
  else if (← isWord "crate") && (← wordAfter 5) != "" then visibility

def fieldDeclaration (rules : Rules) : Parser Unit := do
  attributes rules
  node "field_declaration" do
    optionalVisibility
    inField "name" (anyWord "field_identifier")
    symbol ":"
    inField "type" rules.anyType

def fieldDeclarations (rules : Rules) : Parser Unit :=
  node "field_declaration_list" do
    symbol "\x7b"
    commaList (fieldDeclaration rules)
    symbol "\x7d"

def orderedFields (rules : Rules) : Parser Unit :=
  node "ordered_field_declaration_list" do
    symbol "("
    commaList do
      attributes rules
      optionalVisibility
      inField "type" rules.anyType
    symbol ")"

def structItem (rules : Rules) : Parser Unit :=
  node "struct_item" do
    optionalVisibility
    keyword "struct"
    inField "name" (anyWord "type_identifier")
    optionalTypeParameters rules
    if (← ahead).head? == some '(' then
      inField "body" (orderedFields rules)
      optionalWhere rules
      symbol ";"
    else if (← ahead).head? == some ';' then symbol ";"
    else
      optionalWhere rules
      inField "body" (fieldDeclarations rules)

def unionItem (rules : Rules) : Parser Unit :=
  node "union_item" do
    optionalVisibility
    keyword "union"
    inField "name" (anyWord "type_identifier")
    optionalTypeParameters rules
    optionalWhere rules
    inField "body" (fieldDeclarations rules)

def enumVariant (rules : Rules) : Parser Unit := do
  attributes rules
  node "enum_variant" do
    optionalVisibility
    inField "name" (anyWord "identifier")
    if (← ahead).head? == some '(' then inField "body" (orderedFields rules)
    else if (← ahead).head? == some '\x7b' then inField "body" (fieldDeclarations rules)
    if (← aheadMark) == "=" then
      symbol "="
      inField "value" rules.value

def enumItem (rules : Rules) : Parser Unit :=
  node "enum_item" do
    optionalVisibility
    keyword "enum"
    inField "name" (anyWord "type_identifier")
    optionalTypeParameters rules
    optionalWhere rules
    inField "body" do
      node "enum_variant_list" do
        symbol "\x7b"
        commaList (enumVariant rules)
        symbol "\x7d"

def functionItem (rules : Rules) : Parser Unit := do
  node "function_item" do
    optionalVisibility
    optionalModifiers
    keyword "fn"
    inField "name" ((anyWord "identifier").or metavariable)
    optionalTypeParameters rules
    inField "parameters" (rules .parameters)
    optionalResult rules true
    optionalWhere rules
    if (← ahead).head? == some ';' then symbol ";" else inField "body" (rules .block)
  amend fun n =>
    if n.children.any fun c => c.kind == ";" then { n with kind := "function_signature_item" }
    else n

def isTraitKind (kind : String) : Bool :=
  ["type_identifier", "scoped_type_identifier", "generic_type"].contains kind

def implItem (rules : Rules) : Parser Unit :=
  node "impl_item" do
    if ← isWord "unsafe" then keyword "unsafe"
    keyword "impl"
    optionalTypeParameters rules
    orNothing do
      if (← ahead).head? == some '!' then symbol "!"
      guard !(primitiveTypes.contains (← aheadWord))
      inField "trait" (namedType rules true)
      guard (isTraitKind (← lastKind))
      keyword "for"
    inField "type" rules.anyType
    optionalWhere rules
    if (← ahead).head? == some ';' then symbol ";" else inField "body" (rules .declarations)

def traitItem (rules : Rules) : Parser Unit :=
  node "trait_item" do
    optionalVisibility
    if ← isWord "unsafe" then keyword "unsafe"
    keyword "trait"
    inField "name" (anyWord "type_identifier")
    optionalTypeParameters rules
    optionalBounds rules
    optionalWhere rules
    inField "body" (rules .declarations)

def typeAlias (rules : Rules) : Parser Unit :=
  node "type_item" do
    optionalVisibility
    keyword "type"
    inField "name" (anyWord "type_identifier")
    optionalTypeParameters rules
    optionalWhere rules
    symbol "="
    inField "type" rules.anyType
    optionalWhere rules
    symbol ";"

def associatedType (rules : Rules) : Parser Unit :=
  node "associated_type" do
    keyword "type"
    inField "name" (anyWord "type_identifier")
    optionalTypeParameters rules
    optionalBounds rules
    optionalWhere rules
    symbol ";"

def constItem (rules : Rules) : Parser Unit :=
  node "const_item" do
    optionalVisibility
    keyword "const"
    inField "name" (anyWord "identifier")
    symbol ":"
    inField "type" rules.anyType
    if (← aheadMark) == "=" then
      symbol "="
      inField "value" rules.value
    symbol ";"

def staticItem (rules : Rules) : Parser Unit :=
  node "static_item" do
    optionalVisibility
    keyword "static"
    if ← isWord "ref" then keyword "ref"
    if ← isWord "mut" then mutable
    inField "name" (anyWord "identifier")
    symbol ":"
    inField "type" rules.anyType
    if (← aheadMark) == "=" then
      symbol "="
      inField "value" rules.value
    symbol ";"

def modItem (rules : Rules) : Parser Unit :=
  node "mod_item" do
    optionalVisibility
    keyword "mod"
    inField "name" (anyWord "identifier")
    if (← ahead).head? == some ';' then symbol ";" else inField "body" (rules .declarations)

def foreignItem (rules : Rules) : Parser Unit :=
  node "foreign_mod_item" do
    optionalVisibility
    externModifier
    if (← ahead).head? == some ';' then symbol ";" else inField "body" (rules .declarations)

def externCrate : Parser Unit :=
  node "extern_crate_declaration" do
    optionalVisibility
    keyword "extern"
    wordAs "crate" (· == "crate")
    inField "name" (anyWord "identifier")
    if ← isWord "as" then
      keyword "as"
      inField "alias" (anyWord "identifier")
    symbol ";"

/-! ## Imports -/

def useClause (rules : Rules) : Parser Unit := do
  let opening ← if ← isAhead "::" then pure (← aheadAfter 2).head? else pure none
  if (← ahead).head? == some '\x7b' then rules .useList
  else if (← ahead).head? == some '*' then node "use_wildcard" (symbol "*")
  else if opening == some '\x7b' then
    node "scoped_use_list" do
      symbol "::"
      inField "list" (rules .useList)
  else if opening == some '*' then
    node "use_wildcard" do
      symbol "::"
      symbol "*"
  else
    if ← isAhead "::" then absolute else pathHead
    loop do
      if !(← isAhead "::") then return false
      match (← aheadAfter 2).head? with
      | some '\x7b' =>
        wrap "scoped_use_list" (some "path") do
          symbol "::"
          inField "list" (rules .useList)
        return false
      | some '*' =>
        wrap "use_wildcard" none do
          symbol "::"
          symbol "*"
        return false
      | _ =>
        segment
        return true
    let kind ← lastKind
    if (← isWord "as") && kind != "scoped_use_list" && kind != "use_wildcard" then
      wrap "use_as_clause" (some "path") do
        keyword "as"
        inField "alias" (anyWord "identifier")

def useList (rules : Rules) : Parser Unit :=
  node "use_list" do
    symbol "\x7b"
    commaList (useClause rules)
    symbol "\x7d"

def useDeclaration (rules : Rules) : Parser Unit :=
  node "use_declaration" do
    optionalVisibility
    keyword "use"
    inField "argument" (useClause rules)
    symbol ";"

/-! ## Definitions of macros -/

def macroRule : Parser Unit :=
  node "macro_rule" do
    inField "left" (token "token_tree_pattern" true (treeLength? .matched))
    symbol "=>"
    inField "right" (token "token_tree" true (treeLength? .substituted))

def macroRules : Parser Unit := do
  orNothing (separated1 (symbol ";") macroRule)
  orNothing do
    symbol ";"

def macroDefinition : Parser Unit :=
  node "macro_definition" do
    symbol "macro_rules!"
    inField "name" (anyWord "identifier")
    if (← ahead).head? == some '\x7b' then
      symbol "\x7b"
      macroRules
      symbol "\x7d"
    else
      let isRound := (← ahead).head? == some '('
      symbol (if isRound then "(" else "[")
      macroRules
      symbol (if isRound then ")" else "]")
      symbol ";"

/-! ## Statements -/

def letDeclaration (rules : Rules) : Parser Unit :=
  node "let_declaration" do
    keyword "let"
    if ← isWord "mut" then mutable
    inField "pattern" rules.anyPattern
    if (← aheadMark) == ":" then
      symbol ":"
      inField "type" rules.anyType
    if (← aheadMark) == "=" then
      symbol "="
      inField "value" rules.value
    if ← isWord "else" then
      keyword "else"
      inField "alternative" (rules .block)
    symbol ";"

def declarationWords : List String :=
  ["let", "fn", "struct", "enum", "impl", "trait", "mod", "pub", "use", "extern", "type"]

def isDeclaration : Parser Bool := do
  let word ← aheadWord
  let next ← aheadAfter word.length
  let nextWord := String.ofList (next.take (wordLength next))
  if declarationWords.contains word then return true
  else if (← ahead).head? == some '#' || (← ahead).head? == some ';' then return true
  else if ← isAhead "macro_rules!" then return true
  else if word == "union" || word == "crate" then return nextWord != "" && nextWord != "as"
  else if word == "const" then return nextWord != ""
  else if word == "static" then return nextWord != "" && nextWord != "move" && nextWord != "async"
  else if word == "unsafe" then return nextWord != ""
  else if word == "async" || word == "default" then
    return nextWord == "fn" || modifierWords.contains nextWord
  else return false

def declaration (rules : Rules) : Parser Unit := do
  if (← ahead).head? == some ';' then node "empty_statement" (symbol ";")
  else if (← ahead).head? == some '#' then
    (attributeItem rules).or (innerAttributeItem rules)
  else if ← isAhead "macro_rules!" then macroDefinition
  else if ← isWord "let" then letDeclaration rules
  else
    firstOf [functionItem rules, structItem rules, enumItem rules, implItem rules, traitItem rules,
      constItem rules, staticItem rules, typeAlias rules, associatedType rules,
      useDeclaration rules, modItem rules, externCrate, foreignItem rules, unionItem rules]

def standaloneMacro : Parser Unit := do
  plainPath
  invocation

def declarations (rules : Rules) : Parser Unit :=
  node "declaration_list" do
    symbol "\x7b"
    loop do
      if (← ahead).head? == some '\x7d' then return false
      if ← isDeclaration then declaration rules else standaloneMacro
      return true
    symbol "\x7d"

/-- Whether a statement that ends with a block is over before the characters. -/
def endsStatement (cs : List Char) : Bool :=
  let word := String.ofList (cs.take (wordLength cs))
  cs.isEmpty || opensRawString cs || opensString cs || cs.head?.any Char.isDigit ||
    (word != "" && word != "as") ||
    ["(", "[", "&", "-", "*", "|", "..", "!", "<", "\x7b", "'", "#", "::", ";", "$",
      "\x7d"].contains (markOf cs)

/-- A statement, or the expression at the end of a block if `inBlock`. -/
def statement (rules : Rules) (inBlock : Bool) : Parser Unit := do
  if ← isDeclaration then declaration rules
  else
    let isBlock ← isBlockLike
    if isBlock then rules .blockLike
    if isBlock && endsStatement (← ahead) then wrap "expression_statement" none (pure ())
    else
      if isBlock then continued rules 0 {} else rules.value
      if (← ahead).head? == some ';' then wrap "expression_statement" none (symbol ";")
      else if (← lastKind) != "macro_invocation" then
        guard (inBlock && (← ahead).head? == some '\x7d')

def block (rules : Rules) : Parser Unit :=
  node "block" do
    optionalLabel
    symbol "\x7b"
    loop do
      if (← ahead).head? == some '\x7d' then return false
      statement rules true
      return true
    symbol "\x7d"

/-! ## Files -/

def shebangLength? (cs : List Char) : Option Nat :=
  match cs with
  | '#' :: '!' :: rest =>
    let blank := (rest.takeWhile fun c => c != '\n' && Cursor.isSpace c).length
    let line := (rest.takeWhile (· != '\n')).length
    if (rest.drop blank).head? == some '[' || line == rest.length then none
    else some (line + 3)
  | _ => none

def sourceFile (rules : Rules) : Parser Unit := do
  orNothing (token "shebang" true shebangLength?)
  loop do
    if (← ahead).isEmpty then return false
    statement rules false
    return true
  toToken

end Parser

def Rule.parser (rules : Rules) : Rule → Parser Unit
  | type sums => Parser.type rules sums
  | typeArguments => Parser.typeArguments rules
  | typeParameters => Parser.typeParameters rules
  | parameters => Parser.parameters rules
  | pattern alternatives => Parser.pattern rules alternatives
  | expr level mode => Parser.expr rules level mode
  | block => Parser.block rules
  | blockLike => Parser.blockLike rules
  | branch => Parser.branch rules
  | condition structs => Parser.condition rules structs
  | declarations => Parser.declarations rules
  | useList => Parser.useList rules

/-- The parsers of all rules that nest no deeper than a bound. -/
def Rules.within : (bound : Nat) → (rule : Rule) → State →  Except Nat (Unit × State)
  | 0, _, s => .error s.cursor.offset
  | bound + 1, rule, s => rule.parser (fun inner t => within bound inner t) s

end RustScript.Grammar
