/-
  Paths, lifetimes, attributes and visibility.

  Type arguments in the middle of a path, after two colons of their own, make the part before them a
  generic type.
-/
import RustScript.Grammar.Rule

namespace RustScript.Grammar

open Source (Node)

namespace Parser

def primitiveTypes : List String := numberTypes ++ ["bool", "str", "char"]

/-- Keywords that are names where they do not begin their own form. -/
def softKeywords : List String := ["default", "union", "gen", "raw"]

def metavariable : Parser Unit := token "metavariable" true variableLength?

def mutable : Parser Unit := wordAs "mutable_specifier" (· == "mut")

def quoted (kind : String) : Parser Unit :=
  node kind do
    guard (charLength? (← ahead)).isNone
    symbol "'"
    anyWord "identifier"

def lifetime : Parser Unit := quoted "lifetime"

def label : Parser Unit := quoted "label"

def isQuoted : Parser Bool := do
  let cs ← ahead
  return cs.head? == some '\'' && (charLength? cs).isNone

def pathName : Parser Unit := do
  if ← isWord "super" then anyWord "super" else anyWord "identifier"

def headKind (word : String) : String :=
  if word == "self" || word == "super" || word == "crate" then word else "identifier"

def pathHead : Parser Unit := do
  if (← ahead).head? == some '$' then metavariable
  else anyWord (headKind (← aheadWord))

def segment : Parser Unit :=
  wrap "scoped_identifier" (some "path") do
    symbol "::"
    inField "name" pathName

def absolute : Parser Unit :=
  node "scoped_identifier" do
    symbol "::"
    inField "name" pathName

def plainPath : Parser Unit := do
  if ← isAhead "::" then absolute else pathHead
  many segment

def turbofish (rules : Rules) (kind role : String) : Parser Unit :=
  wrap kind (some role) do
    symbol "::"
    inField "type_arguments" (rules .typeArguments)

def bracketedType (rules : Rules) : Parser Unit :=
  node "bracketed_type" do
    symbol "<"
    rules.anyType
    if ← isWord "as" then
      wrap "qualified_type" (some "type") do
        keyword "as"
        inField "alias" rules.anyType
    symbol ">"

def pathStart (rules : Rules) : Parser Unit := do
  if ← isAhead "::" then absolute
  else if (← ahead).head? == some '<' then
    bracketedType rules
    segment
  else pathHead

def nameType : Parser Unit :=
  amend fun n => if n.kind == "identifier" then { n with kind := "type_identifier" } else n

/-- A path of names and type arguments. Type arguments at the end are left as a generic type. -/
def path (rules : Rules) : Parser Unit := do
  pathStart rules
  loop do
    if !(← isAhead "::") then return false
    else if (← aheadAfter 2).head? == some '<' then
      nameType
      turbofish rules "generic_type" "type"
      isAhead "::"
    else
      segment
      return true

def asType (n : Node) : Node :=
  if n.kind == "identifier" then { n with kind := "type_identifier" }
  else if n.kind == "scoped_identifier" then
    { n with
      kind := "scoped_type_identifier"
      children := n.children.map fun c =>
        if c.field == some "name" then { c with kind := "type_identifier" } else c }
  else n

def invocation : Parser Unit :=
  wrap "macro_invocation" (some "macro") do
    symbol "!"
    tokenTree

def isBang : Parser Bool := do
  return (← aheadMark) == "!"

/-! ## Attributes and visibility -/

def attributeBody (rules : Rules) : Parser Unit :=
  node "attribute" do
    plainPath
    if (← aheadMark) == "=" then
      symbol "="
      inField "value" rules.value
    else if (closing? ((← ahead).headD ' ')).isSome then inField "arguments" tokenTree

def attributeItem (rules : Rules) : Parser Unit :=
  node "attribute_item" do
    symbol "#"
    symbol "["
    attributeBody rules
    symbol "]"

def innerAttributeItem (rules : Rules) : Parser Unit :=
  node "inner_attribute_item" do
    symbol "#"
    symbol "!"
    symbol "["
    attributeBody rules
    symbol "]"

def attributes (rules : Rules) : Parser Unit := many (attributeItem rules)

def visibility : Parser Unit :=
  node "visibility_modifier" do
    if ← isWord "crate" then anyWord "crate"
    else
      keyword "pub"
      orNothing do
        symbol "("
        if ← isWord "in" then
          keyword "in"
          plainPath
        else
          let word ← aheadWord
          guard (headKind word != "identifier")
          anyWord word
        symbol ")"

end Parser

end RustScript.Grammar
