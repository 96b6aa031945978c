/-
  Everything that can go wrong on the way from source text to JavaScript.

  Mistakes, refusals and parse errors concern the declaration being emitted and are reported with it
  (`Error.isReported`). A fault is not: it comes from a number or tree that no well-formed source
  gives, and it ends the whole operation.
-/
import RustScript.Text.Quoted

namespace RustScript

/-- A statement that leaves a loop, a block or a function. -/
inductive Jump where
  | ret
  | brk
  | cont
  deriving DecidableEq, Repr

def Jump.word : Jump → String
  | ret => "return"
  | brk => "break"
  | cont => "continue"

/-- A mistake in the source that is not a matter of unsupported constructs. -/
inductive Mistake where
  | selfWithoutReceiver
  | selfTypeOutsideImpl
  | unbalanced (closer : Char) (tokens : String)
  | unclosed (closer : Char) (tokens : String)
  | unterminatedRaw (tokens : String)
  | unterminated (tokens : String)
  | notAString (literal : String)
  | unknownEscape (letter : String)
  | unclosedPlaceholder (template : String)
  | unmatchedBrace (template : String)
  | tooFewArguments (template : String)
  | missingArgument (template : String) (index : Nat)
  | assertWithoutCondition
  | assertWithoutOperands
  | unread (text : String)
  | undocumented (name : String)
  deriving DecidableEq, Repr

def Mistake.message : Mistake → String
  | selfWithoutReceiver => "`self` used in an associated function without a receiver"
  | selfTypeOutsideImpl => "`Self` used outside of an impl block"
  | unbalanced c tokens => s!"Unbalanced '{c}' in macro arguments: {tokens}"
  | unclosed c tokens => s!"Unclosed '{c}' in macro arguments: {tokens}"
  | unterminatedRaw tokens => s!"Unterminated raw string in macro arguments: {tokens}"
  | unterminated tokens => s!"Unterminated string in macro arguments: {tokens}"
  | notAString literal => s!"Expected a string literal, got: {literal}"
  | unknownEscape letter => s!"Unknown escape '\\{letter}' in string literal"
  | unclosedPlaceholder t => "Unclosed placeholder in format string: " ++ Text.quoted t
  | unmatchedBrace t => "Unmatched '\x7d' in format string: " ++ Text.quoted t
  | tooFewArguments t =>
    "Format string " ++ Text.quoted t ++ " has more placeholders than arguments"
  | missingArgument t index =>
    "Format string " ++ Text.quoted t ++ s!" references missing argument {index}"
  | assertWithoutCondition => "assert! needs a condition"
  | assertWithoutOperands => "assert_eq!/assert_ne! need two operands"
  | unread text => s!"no parse for: {text}"
  | undocumented name => s!"@item on {name} needs a docstring holding the source"

/-- A construct without a JavaScript form. -/
inductive Refusal where
  | statement (form : String)
  | expression (form : String)
  | pattern (form : String)
  | declaration (form : String)
  | unknownDeclaration (what ident : String)
  | nestedDeclaration (form ident : String)
  | unknownNested (what : String)
  | uninitialized (form : String)
  | returnInValue
  | outsideLoop (jump : Jump)
  | unknownLabel (jump : Jump) (label : String)
  | jumpAsValue (jump : Jump)
  | tryOutsideFunction
  | unaryOperator (op : String)
  | binaryOperator (op : String)
  | assignOperator (op : String)
  | openRange
  | unequalAlternatives
  | bindingWithSub (name : String)
  | restNotLast
  | refutableWrapper (name : String)
  | refutable (form : String)
  | unknownMacro (name : String)
  | freeReceiver (function : String)
  | tagField (variant : String)
  | enumReceiver (type function : String)
  | missingPart (node part : String)
  | parameter (node : String)
  | fieldList (node : String)
  | associatedItem (type node : String)
  | expressionNode (node : String)
  | patternNode (node : String)
  | integerLiteral (text : String)
  | letChain
  | rangeBounds
  deriving DecidableEq, Repr

def Refusal.kind : Refusal → String
  | statement _ => "statement"
  | expression _ => "expression"
  | pattern _ => "pattern"
  | declaration _ => "item"
  | unknownDeclaration .. => "item"
  | nestedDeclaration .. => "item"
  | unknownNested _ => "item"
  | uninitialized _ => "let"
  | returnInValue => "return"
  | outsideLoop jump => jump.word
  | unknownLabel jump _ => jump.word
  | jumpAsValue jump => jump.word
  | tryOutsideFunction => "try"
  | unaryOperator _ => "operator"
  | binaryOperator _ => "operator"
  | assignOperator _ => "operator"
  | openRange => "range"
  | unequalAlternatives => "pattern"
  | bindingWithSub _ => "pattern"
  | restNotLast => "pattern"
  | refutableWrapper _ => "pattern"
  | refutable _ => "pattern"
  | unknownMacro _ => "macro"
  | freeReceiver _ => "function"
  | tagField _ => "enum"
  | enumReceiver .. => "impl"
  | missingPart node _ => node
  | parameter _ => "parameter"
  | fieldList _ => "struct"
  | associatedItem .. => "impl"
  | expressionNode node => node
  | patternNode _ => "pattern"
  | integerLiteral _ => "literal"
  | letChain => "let_chain"
  | rangeBounds => "pattern"

def Refusal.message : Refusal → String
  | statement form => s!"Unsupported statement: {form}"
  | expression form => s!"Unsupported expression: {form}"
  | pattern form => s!"Unsupported pattern: {form}"
  | declaration form => s!"Unsupported declaration: {form}"
  | unknownDeclaration what ident => s!"Unsupported declaration: {what} {ident}"
  | nestedDeclaration form ident => s!"Unsupported nested declaration: {form} {ident}"
  | unknownNested what => s!"Unsupported nested declaration: {what}"
  | uninitialized form => s!"Destructuring {form} needs an initializer"
  | returnInValue => "`return` inside a block used as an expression"
  | outsideLoop jump => "`" ++ jump.word ++ "` outside of a loop"
  | unknownLabel jump label => "`" ++ jump.word ++ "` to unknown label " ++ label
  | jumpAsValue jump => "`" ++ jump.word ++ "` used as a value"
  | tryOutsideFunction => "`?` outside of a function body"
  | unaryOperator op => s!"Unsupported unary operator: {op}"
  | binaryOperator op => s!"Unsupported binary operator: {op}"
  | assignOperator op => s!"Unsupported assignment operator: {op}"
  | openRange => "Open-ended ranges are only supported in slices"
  | unequalAlternatives => "Or-pattern alternatives must bind the same values"
  | bindingWithSub name => s!"Binding pattern `{name} @ ...` cannot destructure"
  | restNotLast => "`..` must come last when destructuring"
  | refutableWrapper name => s!"Refutable pattern {name}(..) needs `let ... else`"
  | refutable form => s!"Pattern {form} is refutable and cannot destructure"
  | unknownMacro name => s!"Unsupported macro: {name}!"
  | freeReceiver function => s!"Free function {function} takes `self`"
  | tagField variant => s!"Variant {variant} has a field named `type`"
  | enumReceiver type function => s!"Method {type}::{function} takes `self` on an enum"
  | missingPart node part => s!"{node} without {part}"
  | parameter node => s!"Unsupported parameter: {node}"
  | fieldList node => s!"Unsupported field list: {node}"
  | associatedItem type node => s!"Unsupported associated item in impl {type}: {node}"
  | expressionNode node => s!"Unsupported expression syntax: {node}"
  | patternNode node => s!"Unsupported pattern syntax: {node}"
  | integerLiteral text => s!"Unsupported integer literal: {text}"
  | letChain => "Unsupported `if let` chain"
  | rangeBounds => "Range pattern bounds must be literals"

/-- What a source text fails to be. -/
inductive ParseCause where
  | malformed
  | missing (node : String)
  | notOneDeclaration (count : Nat)
  | notAnExpression (text : String)
  | notASingleExpression (text : String)
  deriving DecidableEq, Repr

def ParseCause.message : ParseCause → String
  | malformed => "Syntax error"
  | missing node => s!"Missing {node}"
  | notOneDeclaration count => s!"Expected exactly one declaration, found {count}"
  | notAnExpression text => "Expected an expression: " ++ Text.quoted text
  | notASingleExpression text => "Expected a single expression: " ++ Text.quoted text

/-- A condition that ends the whole operation. -/
inductive Fault where
  /-- Digits that are no number, or a number that is no code point. -/
  | badNumber
  /-- A path, list of alternatives or list of children that holds too little. -/
  | missingElement
  /-- A pair of children of which one is absent. -/
  | missingPair
  /-- A search among children that finds nothing. -/
  | notFound
  /-- The same, on the way through a sequence. -/
  | notFoundInSequence
  /-- A tree that breaks a rule of its own form. -/
  | illFormed
  /-- A slice of the source that cuts through a character. -/
  | cutCharacter
  /-- Macro calls that nest without end. -/
  | nesting
  deriving DecidableEq, Repr

inductive Error where
  | mistake (cause : Mistake)
  | refusal (cause : Refusal)
  | parse (cause : ParseCause) (line column : Nat)
  | fault (cause : Fault)
  deriving DecidableEq, Repr

namespace Error

/-- The wording of an error. Places are counted from one; a fault has no wording. -/
def message : Error → String
  | mistake cause => cause.message
  | refusal cause => cause.message
  | parse cause line column => s!"{cause.message} at line {line + 1}, column {column + 1}"
  | fault _ => ""

/-- Whether the error is reported with the declaration in which it arose. -/
def isReported : Error → Bool
  | fault _ => false
  | _ => true

end Error

end RustScript
