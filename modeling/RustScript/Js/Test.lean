/-
  Conditions on a value, as patterns give rise to them.

  The subject is bound to a name first, so that each place inside it can be spelled out and read as
  often as needed. The order of tests is the order in which they are evaluated.
-/
import RustScript.Syntax.Spelling

namespace RustScript.Js

/-- A place inside a subject. -/
inductive Access where
  | root (name : String)
  /-- The element at an index. -/
  | slot (base : Access) (index : Int)
  /-- The element at a distance from the end. -/
  | fromEnd (base : Access) (distance : Nat)
  | prop (base : Access) (name : String)
  deriving DecidableEq

def Access.text : Access → String
  | root name => name
  | slot base index => base.text ++ "[" ++ toString index ++ "]"
  | fromEnd base distance =>
    base.text ++ "[" ++ base.text ++ ".length - " ++ toString distance ++ "]"
  | prop base name => base.text ++ "." ++ name

/-- What a place is compared with. -/
inductive Operand where
  | literal (value : LitPat)
  /-- A constant, by the name it has in scope. -/
  | constant (target : String)
  /-- A variant's name, which stands for the variant. -/
  | word (name : String)
  deriving DecidableEq

def Operand.text : Operand → String
  | literal value => value.spelling
  | constant target => target
  | word name => "\"" ++ name ++ "\""

/-- One condition on a subject. -/
inductive Test where
  | isNull (place : Access)
  | notNull (place : Access)
  | equals (place : Access) (operand : Operand)
  | atLeast (place : Access) (bound : LitPat)
  | atMost (place : Access) (bound : LitPat)
  | lessThan (place : Access) (bound : LitPat)
  /-- An array of this length, or at least this length. -/
  | length (place : Access) (exact : Bool) (count : Nat)
  | hasKey (key : String) (place : Access)
  /-- One of several lists of tests holds. -/
  | oneOf (alternatives : List (List Test))

namespace Test

mutual

def text : Test → String
  | isNull p => "(" ++ p.text ++ " === null || " ++ p.text ++ " === undefined)"
  | notNull p => p.text ++ " !== null && " ++ p.text ++ " !== undefined"
  | equals p o => p.text ++ " === " ++ o.text
  | atLeast p b => p.text ++ " >= " ++ b.spelling
  | atMost p b => p.text ++ " <= " ++ b.spelling
  | lessThan p b => p.text ++ " < " ++ b.spelling
  | length p exact count =>
    "Array.isArray(" ++ p.text ++ ") && " ++ p.text ++ ".length " ++
      (if exact then "===" else ">=") ++ " " ++ toString count
  | hasKey key p => "\"" ++ key ++ "\" in " ++ p.text
  | oneOf alternatives => "(" ++ " || ".intercalate (alternativeTexts alternatives) ++ ")"

def texts : List Test → List String
  | [] => []
  | t :: ts => t.text :: texts ts

/-- The code of each alternative; one of several tests stands in parentheses. -/
def alternativeTexts : List (List Test) → List String
  | [] => []
  | ts :: alternatives =>
    let joined := " && ".intercalate (texts ts)
    (if 1 < ts.length then "(" ++ joined ++ ")" else joined) :: alternativeTexts alternatives

end

def condition (tests : List Test) : String :=
  if tests.isEmpty then "true" else " && ".intercalate (texts tests)

end Test

end RustScript.Js
