/-
  JSON values.

  A text is a list of UTF-16 code units, because an escape can name half of a pair. Whole numbers
  have any size; all others are doubles. The members of an object keep the order in which their
  keys came first.
-/
import RustScript.Number.Double

namespace RustScript.Json

/-- A text in UTF-16 code units. -/
abbrev Units := List UInt16

def unitsOfChar (c : Char) : Units :=
  let n := c.toNat
  if n < 0x10000 then [n.toUInt16]
  else [(0xD800 + (n - 0x10000) / 0x400).toUInt16, (0xDC00 + (n - 0x10000) % 0x400).toUInt16]

def units (s : String) : Units := s.toList.flatMap unitsOfChar

inductive Value where
  | null
  | bool (b : Bool)
  | int (n : Int)
  | float (d : Double)
  | string (text : Units)
  | array (elements : List Value)
  | object (members : List (Units × Value))

/-- Adds a member to an object, or gives the member with its key another value. -/
def insertMember (members : List (Units × Value)) (key : Units) (v : Value) :
    List (Units × Value) :=
  if members.any fun m => m.1 == key then
    members.map fun m => if m.1 == key then (key, v) else m
  else members ++ [(key, v)]

end RustScript.Json
