/-
  The text of a JSON value.

  Only ASCII is written: every other code unit is an escape of four digits. A comma and a colon are
  followed by a blank.
-/
import RustScript.Json.Value
import RustScript.Number.Shortest
import RustScript.Text.Quoted

namespace RustScript.Json

def unitText (u : UInt16) : List Char :=
  let n := u.toNat
  if n == 0x22 then ['\\', '"']
  else if n == 0x5C then ['\\', '\\']
  else if n == 0x0A then ['\\', 'n']
  else if n == 0x0D then ['\\', 'r']
  else if n == 0x09 then ['\\', 't']
  else if n == 0x0C then ['\\', 'f']
  else if n == 0x08 then ['\\', 'b']
  else if 0x20 ≤ n && n ≤ 0x7E then [Char.ofNat n]
  else '\\' :: 'u' :: Text.hex 4 n

def quotedUnits (text : Units) : List Char := '"' :: text.flatMap unitText ++ ['"']

def floatText : Double → String
  | .infinite negative => if negative then "-Infinity" else "Infinity"
  | .nan => "NaN"
  | d => d.toText

mutual

def Value.chars : Value → List Char
  | .null => "null".toList
  | .bool b => (if b then "true" else "false").toList
  | .int n => (toString n).toList
  | .float d => (floatText d).toList
  | .string text => quotedUnits text
  | .array elements => '[' :: elementsChars true elements ++ [']']
  | .object members => '\x7b' :: membersChars true members ++ ['\x7d']

/-- The text of elements; all but the first of an array have a comma before them. -/
def elementsChars : (isFirst : Bool) → List Value → List Char
  | _, [] => []
  | isFirst, v :: vs => (if isFirst then [] else [',', ' ']) ++ v.chars ++ elementsChars false vs

def membersChars : (isFirst : Bool) → List (Units × Value) → List Char
  | _, [] => []
  | isFirst, (key, v) :: ms =>
    (if isFirst then [] else [',', ' ']) ++ quotedUnits key ++ [':', ' '] ++ v.chars ++
      membersChars false ms

end

def Value.text (v : Value) : String := String.ofList v.chars

end RustScript.Json
