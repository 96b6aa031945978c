/-
  The macros.

  An expansion works on the raw tokens of a call. What stands for an expression among them is
  handed to `arg`, which reads and emits it; all else is decided here.
-/
import RustScript.Emit.Context
import RustScript.Idiom.Cast
import RustScript.Literal.Decode
import RustScript.Macro.Arguments
import RustScript.Macro.Template

namespace RustScript.Macro

open Idiom (named)

def isArgumentStart (c : Char) : Bool := c.isAlpha || c == '_'

def isArgumentChar (c : Char) : Bool := c.isAlphanum || c == '_'

/-- The name and the value of a named argument: a name, one equals sign and the value. -/
def namedArgument? (part : String) : Option (String × String) :=
  let cs := Text.trimLeft part.toList
  match cs with
  | c :: _ =>
    if isArgumentStart c then
      match Text.trimLeft (cs.dropWhile isArgumentChar) with
      | '=' :: '=' :: _ => none
      | '=' :: value =>
        some (String.ofList (cs.takeWhile isArgumentChar), String.ofList (Text.trimLeft value))
      | _ => none
    else none
  | [] => none

/-- The code of a format's arguments. -/
structure Given where
  positional : List Js.Expr := []
  /-- Named arguments, the last one first. -/
  byName : List (String × Js.Expr) := []

def given (arg : String → Emit Js.Expr) : List String → Emit Given
  | [] => pure {}
  | part :: parts => do
    match namedArgument? part with
    | some (name, value) =>
      let code ← arg value
      let rest ← given arg parts
      return { rest with byName := rest.byName ++ [(name, code)] }
    | none =>
      let code ← arg part
      let rest ← given arg parts
      return { rest with positional := code :: rest.positional }

/-- A number of digits after a point, as a specification asks for it. -/
def places? (spec : String) : Option String :=
  match spec.toList with
  | '.' :: d :: ds => if (d :: ds).all Text.isDecimal then some (String.ofList (d :: ds)) else none
  | _ => none

/-- A value as its specification wants it shown. Widths, fills and alignments change nothing. -/
def showAs (value : Js.Expr) (p : Placeholder) : Js.Expr :=
  if p.isDebug then named "debug_repr" [value]
  else
    match places? p.spec with
    | some places => .call (.member (named "Number" [value]) "toFixed") [.atom places]
    | none => value

/-- The value that a placeholder shows, and the number of positional arguments used up by it. -/
def valueOf (arg : String → Emit Js.Expr) (template : String) (args : Given) (next : Nat)
    (p : Placeholder) : Emit (Js.Expr × Nat) := do
  if p.key.isEmpty then
    match args.positional[next]? with
    | some value => return (value, next + 1)
    | none => throw (.mistake (.tooFewArguments template))
  else if p.key.toList.all Text.isDigit then
    match Reading.natural? p.key.toList with
    | none => throw (.fault .badNumber)
    | some index =>
      match args.positional[index]? with
      | some value => return (value, next)
      | none => throw (.mistake (.missingArgument template index))
  else
    match args.byName.lookup p.key with
    | some value => return (value, next)
    | none => return (← arg p.key, next)

/-- The parts of a template literal; `next` positional arguments have been used. -/
def templateParts (arg : String → Emit Js.Expr) (template : String) (args : Given) :
    (next : Nat) → List Template.Piece → Emit (List Js.Part)
  | _, [] => pure []
  | next, .text s :: pieces => do
    return .chunk s :: (← templateParts arg template args next pieces)
  | next, .slot p :: pieces => do
    let (value, next) ← valueOf arg template args next p
    return .slot (showAs value p) :: (← templateParts arg template args next pieces)

def isSlot : Template.Piece → Bool
  | .slot _ => true
  | .text _ => false

/-- A template and its arguments, as a string or a template literal. -/
def format (arg : String → Emit Js.Expr) (tokens : String) : Emit Js.Expr := do
  match ← Emit.ofExcept (Arguments.split tokens ',') with
  | [] => return .str ""
  | first :: parts =>
    let template ← Emit.ofExcept (Literal.decode first)
    let args ← given arg parts
    let pieces ← Emit.ofExcept (Template.pieces template)
    if pieces.any isSlot then return .template (← templateParts arg template args 0 pieces)
    else return .str template

def each (arg : String → Emit Js.Expr) : List String → Emit (List Js.Expr)
  | [] => pure []
  | part :: parts => do
    let code ← arg part
    return code :: (← each arg parts)

def repeated (value count : Js.Expr) : Js.Expr :=
  named "Array.from" [.object [.pair "length" count], .arrow .helper false [] value]

def vector (arg : String → Emit Js.Expr) (tokens : String) : Emit Js.Expr := do
  match ← Emit.ofExcept (Arguments.split tokens ';') with
  | [value, count] =>
    let value ← arg value
    let count ← arg count
    return repeated value count
  | _ =>
    let parts ← Emit.ofExcept (Arguments.split tokens ',')
    return .array (← each arg parts)

/-- Output through a function; without tokens the function is called without an argument. -/
def print (func : String) (arg : String → Emit Js.Expr) (tokens : String) : Emit Js.Expr := do
  if (Text.strip tokens).isEmpty then return named func []
  else return named func [← format arg tokens]

def fail (default : String) (arg : String → Emit Js.Expr) (tokens : String) : Emit Js.Expr := do
  if (Text.strip tokens).isEmpty then return named "panic" [.str default]
  else return named "panic" [← format arg tokens]

def assertion (arg : String → Emit Js.Expr) (tokens : String) : Emit Js.Expr := do
  match ← Emit.ofExcept (Arguments.split tokens ',') with
  | [] => throw (.mistake .assertWithoutCondition)
  | cond :: message =>
    let code ← arg cond
    let text ←
      if message.isEmpty then pure (.str ("assertion failed: " ++ cond))
      else format arg (Js.commas message)
    return named "assert" [code, text]

/-- An assertion that two values are equal, or that they differ. -/
def comparison (negated : Bool) (arg : String → Emit Js.Expr) (tokens : String) :
    Emit Js.Expr := do
  match ← Emit.ofExcept (Arguments.split tokens ',') with
  | left :: right :: message =>
    let left ← arg left
    let right ← arg right
    let text ← if message.isEmpty then pure (.atom "undefined") else format arg (Js.commas message)
    return named "assert_eq" [left, right, text, .atom (if negated then "true" else "false")]
  | _ => throw (.mistake .assertWithoutOperands)

/-- How the tokens of a call are expanded, given what emits an expression among them. -/
abbrev Expander := (String → Emit Js.Expr) → String → Emit Js.Expr

def expanders : List (String × Expander) :=
  [("format", format),
   ("println", print "console.log"),
   ("print", print "write_stdout"),
   ("eprintln", print "console.error"),
   ("eprint", print "write_stderr"),
   ("vec", vector),
   ("panic", fail "explicit panic"),
   ("unreachable", fail "internal error: entered unreachable code"),
   ("todo", fail "not yet implemented"),
   ("unimplemented", fail "not implemented"),
   ("assert", assertion),
   ("debug_assert", assertion),
   ("assert_eq", comparison false),
   ("assert_ne", comparison true)]

def expand (arg : String → Emit Js.Expr) (m : MacroCall) : Emit Js.Expr :=
  match expanders.lookup m.baseName with
  | some expander => expander arg m.tokens
  | none => Emit.refuse (.unknownMacro m.baseName)

end RustScript.Macro
