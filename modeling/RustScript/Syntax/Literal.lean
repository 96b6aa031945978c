/-
  Literals of the source language.

  A character is kept as a text: the reader of character literals accepts an empty one and one
  written by several characters.
-/
import RustScript.Number.Double

namespace RustScript

inductive Literal where
  | int (value : Int)
  | float (value : Double)
  | str (value : String)
  | char (value : String)
  | bool (value : Bool)
  deriving DecidableEq

def Literal.text? : Literal → Option String
  | .str s => some s
  | .char s => some s
  | _ => none

def Literal.isNumber : Literal → Bool
  | .int _ => true
  | .float _ => true
  | _ => false

end RustScript
