/-
  Types, their arguments, parameters and bounds.
-/
import RustScript.Grammar.Path

namespace RustScript.Grammar

namespace Parser

/-! ## Bounds and generic parameters -/

def higherRanked (rules : Rules) : Parser Unit :=
  node "higher_ranked_trait_bound" do
    keyword "for"
    inField "type_parameters" (rules .typeParameters)
    inField "type" (rules (.type false))

def bound (rules : Rules) : Parser Unit := do
  if ← isQuoted then lifetime
  else (higherRanked rules).or (rules (.type false))

def traitBounds (rules : Rules) : Parser Unit :=
  node "trait_bounds" do
    guard !(← isAhead "::")
    symbol ":"
    separated1 (symbol "+") (bound rules)

def optionalBounds (rules : Rules) : Parser Unit := do
  if (← aheadMark) == ":" then inField "bounds" (traitBounds rules)

def typeParameter (rules : Rules) : Parser Unit := do
  attributes rules
  if (← ahead).head? == some '$' then metavariable
  else if ← isQuoted then
    node "lifetime_parameter" do
      inField "name" lifetime
      optionalBounds rules
  else if ← isWord "const" then
    node "const_parameter" do
      keyword "const"
      inField "name" (anyWord "identifier")
      symbol ":"
      inField "type" rules.anyType
      if (← aheadMark) == "=" then
        symbol "="
        inField "value" do
          if (← ahead).head? == some '-' then
            node "negative_literal" do
              symbol "-"
              numberLiteral
          else if ← isLiteral then literal
          else (rules .block).or (anyWord "identifier")
  else
    node "type_parameter" do
      inField "name" (anyWord "type_identifier")
      optionalBounds rules
      if (← aheadMark) == "=" then
        symbol "="
        inField "default_type" rules.anyType

def typeParameters (rules : Rules) : Parser Unit :=
  node "type_parameters" do
    symbol "<"
    separated1 (symbol ",") (typeParameter rules)
    orNothing (symbol ",")
    symbol ">"

def optionalTypeParameters (rules : Rules) : Parser Unit := do
  if (← ahead).head? == some '<' then inField "type_parameters" (rules .typeParameters)

/-- The kinds of types, lifetimes included, that a clause after `where` can bound. -/
def isBoundable (kind : String) : Bool :=
  ["lifetime", "type_identifier", "scoped_type_identifier", "generic_type", "reference_type",
   "pointer_type", "tuple_type", "array_type", "higher_ranked_trait_bound",
   "primitive_type"].contains kind

def wherePredicate (rules : Rules) : Parser Unit :=
  node "where_predicate" do
    inField "left" (bound rules)
    guard (isBoundable (← lastKind))
    inField "bounds" (traitBounds rules)

def whereClause (rules : Rules) : Parser Unit :=
  node "where_clause" do
    keyword "where"
    commaList (wherePredicate rules)

def optionalWhere (rules : Rules) : Parser Unit := do
  if ← isWord "where" then whereClause rules

def typeArgument (rules : Rules) : Parser Unit := do
  if ← isQuoted then
    lifetime
    if (← aheadMark) == "+" then
      wrap "bounded_type" none do
        symbol "+"
        separated1 (symbol "+") (bound rules)
  else if (← ahead).head? == some '\x7b' then rules .block
  else if ← isLiteral then literal
  else
    rules.anyType
    if (← aheadMark) == "=" then
      wrap "type_binding" (some "name") do
        symbol "="
        inField "type" rules.anyType
  orNothing (traitBounds rules)

def typeArguments (rules : Rules) : Parser Unit :=
  node "type_arguments" do
    symbol "<"
    separated1 (symbol ",") (typeArgument rules)
    orNothing (symbol ",")
    symbol ">"

/-! ## Functions -/

def externModifier : Parser Unit :=
  node "extern_modifier" do
    keyword "extern"
    if opensString (← ahead) then stringLiteral

def modifierWords : List String := ["async", "default", "const", "unsafe", "extern"]

def functionModifiers : Parser Unit :=
  node "function_modifiers" do
    guard (modifierWords.contains (← aheadWord))
    many do
      let word ← aheadWord
      guard (modifierWords.contains word)
      if word == "extern" then externModifier else keyword word

def optionalModifiers : Parser Unit := do
  if modifierWords.contains (← aheadWord) then functionModifiers

def optionalResult (rules : Rules) (sums : Bool) : Parser Unit := do
  if ← isAhead "->" then
    symbol "->"
    inField "return_type" (rules (.type sums))

def selfParameter : Parser Unit :=
  node "self_parameter" do
    if (← ahead).head? == some '&' then symbol "&"
    if ← isQuoted then lifetime
    if ← isWord "mut" then mutable
    wordAs "self" (· == "self")
    guard ((← aheadMark) != ":" && (← aheadMark) != "::")

def parameter (rules : Rules) (alternatives : Bool) : Parser Unit :=
  node "parameter" do
    if ← isWord "mut" then mutable
    inField "pattern" do
      if ← isWord "self" then wordAs "self" (· == "self") else rules (.pattern alternatives)
    symbol ":"
    inField "type" rules.anyType

def variadicParameter (rules : Rules) : Parser Unit :=
  node "variadic_parameter" do
    if ← isWord "mut" then mutable
    if (← aheadMark) != "..." then
      inField "pattern" rules.anyPattern
      symbol ":"
    symbol "..."

def anyParameter (rules : Rules) : Parser Unit := do
  orNothing (attributeItem rules)
  firstOf [selfParameter, parameter rules true, variadicParameter rules,
    do guard (← isWord "_"); keyword "_", rules.anyType]

def parameters (rules : Rules) : Parser Unit :=
  node "parameters" do
    symbol "("
    commaList (anyParameter rules)
    symbol ")"

/-! ## Types -/

def forLifetimes : Parser Unit :=
  node "for_lifetimes" do
    keyword "for"
    symbol "<"
    separated1 (symbol ",") lifetime
    orNothing (symbol ",")
    symbol ">"

def signature (rules : Rules) (sums : Bool) : Parser Unit := do
  inField "parameters" (rules .parameters)
  optionalResult rules sums

def functionType (rules : Rules) (sums : Bool) : Parser Unit :=
  node "function_type" do
    if ← isWord "for" then forLifetimes
    optionalModifiers
    if ← isWord "fn" then keyword "fn" else inField "trait" (plainPath >>= fun () => amend asType)
    signature rules sums

def typePathTail (rules : Rules) : Parser Unit :=
  loop do
    if ← isAhead "::" then
      if (← aheadAfter 2).head? == some '<' then
        nameType
        turbofish rules "generic_type" "type"
        guard (← isAhead "::")
      else segment
      return true
    else if (← ahead).head? == some '<' then
      amend asType
      wrap "generic_type" (some "type") (inField "type_arguments" (rules .typeArguments))
      return true
    else return false

def namedType (rules : Rules) (sums : Bool) : Parser Unit := do
  let word ← aheadWord
  pathStart rules
  let isBare := !(← isAhead "::") && (← ahead).head? != some '<'
  guard (!isBare || (headKind word == "identifier" && !softKeywords.contains word) || word == "")
  typePathTail rules
  if ← isBang then invocation
  else
    amend asType
    if (← ahead).head? == some '(' then wrap "function_type" (some "trait") (signature rules sums)

def simpleType (rules : Rules) (sums : Bool) : Parser Unit := do
  let cs ← ahead
  let word ← aheadWord
  match cs.head? with
  | some '(' =>
    if (← aheadAfter 1).head? == some ')' then
      node "unit_type" do
        symbol "("
        symbol ")"
    else
      node "tuple_type" do
        symbol "("
        separated1 (symbol ",") rules.anyType
        orNothing (symbol ",")
        symbol ")"
  | some '[' =>
    node "array_type" do
      symbol "["
      inField "element" rules.anyType
      if (← ahead).head? == some ';' then
        symbol ";"
        inField "length" rules.value
      symbol "]"
  | some '&' =>
    node "reference_type" do
      symbol "&"
      if ← isQuoted then lifetime
      if ← isWord "mut" then mutable
      inField "type" (rules (.type sums))
  | some '*' =>
    node "pointer_type" do
      symbol "*"
      if ← isWord "const" then keyword "const" else mutable
      inField "type" (rules (.type sums))
  | some '!' => node "never_type" (symbol "!")
  | some '?' =>
    node "removed_trait_bound" do
      symbol "?"
      rules (.type sums)
  | _ =>
    if word == "impl" then
      node "abstract_type" do
        keyword "impl"
        if ← isWord "for" then
          keyword "for"
          rules .typeParameters
        inField "trait" (rules (.type sums))
    else if word == "dyn" then
      node "dynamic_type" do
        keyword "dyn"
        inField "trait" ((higherRanked rules).or (rules (.type false)))
    else if word == "fn" || word == "for" ||
        (modifierWords.contains word && word != "default") then functionType rules sums
    else if primitiveTypes.contains word && markOf (← aheadAfter word.length) != "::" then
      anyWord "primitive_type"
    else if cs.head? == some '$' && markOf (← aheadAfter 1) != "::" then
      metavariable
    else namedType rules sums

def useBounds : Parser Unit :=
  node "use_bounds" do
    keyword "use"
    symbol "<"
    commaList (lifetime.or (anyWord "type_identifier"))
    symbol ">"

def type (rules : Rules) (sums : Bool) : Parser Unit := do
  if ← isQuoted then
    lifetime
    guard (sums && (← aheadMark) == "+")
  else simpleType rules sums
  if sums then
    loop do
      if (← aheadMark) != "+" then return false
      wrap "bounded_type" none do
        symbol "+"
        if ← isQuoted then lifetime
        else if ← isWord "use" then useBounds
        else simpleType rules sums
      return true

end Parser

end RustScript.Grammar
