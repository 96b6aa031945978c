/-
  Literals as they are written.

  Underscores between digits mean nothing. An integer may be written in base two, eight, ten or
  sixteen and may carry the name of its type; with the name of a floating-point type it is such a
  number.
-/
import RustScript.Literal.Decode
import RustScript.Name
import RustScript.Syntax.Literal

namespace RustScript.Source

def dropUnderscores (cs : List Char) : List Char := cs.filter (· != '_')

def hexDigit? (c : Char) : Option Nat :=
  if '0' ≤ c && c ≤ '9' then some (c.toNat - '0'.toNat)
  else if 'a' ≤ c && c ≤ 'f' then some (c.toNat - 'a'.toNat + 10)
  else if 'A' ≤ c && c ≤ 'F' then some (c.toNat - 'A'.toNat + 10)
  else none

def isDigitIn (base : Nat) (c : Char) : Bool := (hexDigit? c).any (· < base)

/-- The digits of an integer literal: the base, the digits and the suffix. A mark for the base
    needs a digit after it. -/
def splitInteger (cs : List Char) : Nat × List Char × List Char :=
  let based (base : Nat) (rest : List Char) : Option (Nat × List Char × List Char) :=
    match rest.takeWhile (isDigitIn base) with
    | [] => none
    | digits => some (base, digits, rest.dropWhile (isDigitIn base))
  let marked :=
    match cs with
    | '0' :: 'x' :: rest => based 16 rest
    | '0' :: 'o' :: rest => based 8 rest
    | '0' :: 'b' :: rest => based 2 rest
    | _ => none
  marked.getD (10, cs.takeWhile Text.isDecimal, cs.dropWhile Text.isDecimal)

/-- The suffixes that make an integer literal an integer of some type. -/
def integerSuffixes : List String :=
  ["", "i8", "i16", "i32", "i64", "i128", "isize", "u8", "u16", "u32", "u64", "u128", "usize"]

def integer (text : String) : Except Error Literal :=
  let cs := dropUnderscores text.toList
  let refused : Except Error Literal := .error (.refusal (.integerLiteral (String.ofList cs)))
  let (base, digits, suffix) := splitInteger (Name.dropFinalNewline cs)
  let suffix := String.ofList suffix
  if digits.isEmpty then refused
  else if suffix == "f32" || suffix == "f64" then
    match if base == 10 then Reading.float? digits else none with
    | some value => .ok (.float value)
    | none => .error (.fault .badNumber)
  else if integerSuffixes.contains suffix then
    match if base == 10 then Reading.natural? digits
        else (digits.mapM hexDigit?).map (Reading.ofDigits base) with
    | some value => .ok (.int value)
    | none => .error (.fault .badNumber)
  else refused

/-- The characters without a final `f32`, or `f64` after it. -/
def dropFloatSuffix (cs : List Char) : List Char :=
  let drop (suffix : String) (cs : List Char) : List Char :=
    if suffix.toList.isSuffixOf cs then cs.take (cs.length - suffix.length) else cs
  drop "f64" (drop "f32" cs)

def float (text : String) : Except Error Literal :=
  match Reading.float? (dropFloatSuffix (dropUnderscores text.toList)) with
  | some value => .ok (.float value)
  | none => .error (.fault .badNumber)

def inside (cs : List Char) : List Char := cs.tail.dropLast

def char (text : String) : Except Error Literal := do
  let cs := match text.toList with
    | 'b' :: cs => cs
    | cs => cs
  let body := match inside cs with
    | ['"'] => ['\\', '"']
    | body => body
  return .char (String.ofList (← Literal.decodeChars ('"' :: body ++ ['"'])))

end RustScript.Source
