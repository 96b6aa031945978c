/-
  Patterns.

  Alternatives bind loosest and may begin with a bar; the patterns under `ref`, `mut`, `&` and `@`
  take none without brackets.
-/
import RustScript.Grammar.Type

namespace RustScript.Grammar

namespace Parser

def literalPattern : Parser Unit := do
  if (← ahead).head? == some '-' then
    node "negative_literal" do
      symbol "-"
      numberLiteral
  else literal

def beginsBound (cs : List Char) : Bool :=
  let word := String.ofList (cs.take (wordLength cs))
  opensRawString cs || opensString cs || (charLength? cs).isSome || cs.head?.any Char.isDigit ||
    cs.head? == some '-' || markOf cs == "::" ||
    (word != "" && !(["if", "in", "_"].contains word))

def rangeBound : Parser Unit := do
  if (← isLiteral) || (← ahead).head? == some '-' then literalPattern else plainPath

def rangeTail : Parser Unit := do
  let mark ← aheadMark
  guard (["..", "..=", "..."].contains mark)
  wrap "range_pattern" (some "left") do
    symbol mark
    if mark != ".." || beginsBound (← ahead) then inField "right" rangeBound

/-- A range without a lower bound, or the rest of the fields or elements. -/
def openRange : Parser Unit := do
  let mark ← aheadMark
  guard (mark == ".." || mark == "..=")
  if mark == "..=" || beginsBound (← aheadAfter 2) then
    node "range_pattern" do
      symbol mark
      inField "right" rangeBound
  else node "remaining_field_pattern" (symbol "..")

def fieldPattern (rules : Rules) : Parser Unit :=
  node "field_pattern" do
    if ← isWord "ref" then keyword "ref"
    if ← isWord "mut" then mutable
    let word ← aheadWord
    if markOf (← aheadAfter word.length) == ":" then
      inField "name" (anyWord "field_identifier")
      symbol ":"
      inField "pattern" rules.anyPattern
    else inField "name" (anyWord "shorthand_field_identifier")

def remainingFields : Parser Unit :=
  node "remaining_field_pattern" do
    guard ((← aheadMark) == "..")
    symbol ".."

def pathPattern (rules : Rules) : Parser Unit := do
  let word ← aheadWord
  path rules
  let kind ← lastKind
  let isHard := kind == "identifier" && (primitiveTypes ++ softKeywords).contains word
  guard (kind == "identifier" || kind == "scoped_identifier" || kind == "generic_type")
  let cs ← ahead
  match cs.head? with
  | some '@' =>
    guard (kind == "identifier" && !isHard)
    wrap "captured_pattern" none do
      symbol "@"
      rules (.pattern false)
  | some '(' =>
    guard !isHard
    wrap "tuple_struct_pattern" (some "type") do
      symbol "("
      commaList rules.anyPattern
      symbol ")"
  | some '\x7b' =>
    guard !isHard
    amend asType
    wrap "struct_pattern" (some "type") do
      symbol "\x7b"
      commaList (remainingFields.or (fieldPattern rules))
      symbol "\x7d"
  | _ =>
    if markOf cs == "!" then
      guard !isHard
      invocation
    else if kind == "generic_type" then wrap "generic_pattern" none (pure ())
    else orNothing rangeTail

def simplePattern (rules : Rules) : Parser Unit := do
  let cs ← ahead
  let word ← aheadWord
  if (← isLiteral) || cs.head? == some '-' then
    literalPattern
    orNothing rangeTail
  else if word == "_" then keyword "_"
  else if word == "ref" then
    node "ref_pattern" do
      keyword "ref"
      rules (.pattern false)
  else if word == "mut" then
    node "mut_pattern" do
      mutable
      rules (.pattern false)
  else if word == "const" then
    node "const_block" do
      keyword "const"
      inField "body" (rules .block)
  else
    match cs.head? with
    | some '(' =>
      node "tuple_pattern" do
        symbol "("
        commaList rules.anyPattern
        symbol ")"
    | some '[' =>
      node "slice_pattern" do
        symbol "["
        commaList rules.anyPattern
        symbol "]"
    | some '&' =>
      node "reference_pattern" do
        symbol "&"
        if ← isWord "mut" then mutable
        rules (.pattern false)
    | some '.' => openRange
    | _ => pathPattern rules

def pattern (rules : Rules) (alternatives : Bool) : Parser Unit := do
  if alternatives && (← aheadMark) == "|" then
    node "or_pattern" do
      symbol "|"
      simplePattern rules
  else simplePattern rules
  if alternatives then
    loop do
      if (← aheadMark) != "|" then return false
      wrap "or_pattern" none do
        symbol "|"
        simplePattern rules
      return true

end Parser

end RustScript.Grammar
