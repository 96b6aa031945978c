/-
  Reading a JSON value.

  The words `NaN`, `Infinity` and `-Infinity` are numbers too. A whole number may have as many
  digits as other numbers read here. Every reader gives what it read and what follows it.
-/
import RustScript.Json.Value
import RustScript.Number.Reading

namespace RustScript.Json

inductive ReadError where
  /-- It breaks the rules of the format. -/
  | malformed
  /-- A whole number has too many digits. -/
  | longNumber
  deriving DecidableEq, Repr

def skipBlank (cs : List Char) : List Char :=
  cs.dropWhile fun c => c == ' ' || c == '\t' || c == '\n' || c == '\r'

def hexUnit? (cs : List Char) : Option (UInt16 × List Char) :=
  let digits := cs.take 4
  let isDigit (c : Char) : Bool := (Reading.hexadecimal? c).isSome && c.toNat < 0x80
  if digits.length == 4 && digits.all isDigit then
    some ((Reading.ofDigits 16 (digits.filterMap Reading.hexadecimal?)).toUInt16, cs.drop 4)
  else none

def escapeUnit? (c : Char) : Option UInt16 :=
  if c == '"' || c == '\\' || c == '/' then some c.toNat.toUInt16
  else if c == 'b' then some 0x08
  else if c == 'f' then some 0x0C
  else if c == 'n' then some 0x0A
  else if c == 'r' then some 0x0D
  else if c == 't' then some 0x09
  else none

/-- A text after its opening quote. There are `bound` characters at most. -/
def textTail : (bound : Nat) → List Char → Except ReadError (Units × List Char)
  | 0, _ => .error .malformed
  | _, [] => .error .malformed
  | bound + 1, c :: cs =>
    if c == '"' then .ok ([], cs)
    else if c == '\\' then
      match cs with
      | 'u' :: cs =>
        match hexUnit? cs with
        | some (u, cs) => do
          let (us, cs) ← textTail bound cs
          return (u :: us, cs)
        | none => .error .malformed
      | e :: cs =>
        match escapeUnit? e with
        | some u => do
          let (us, cs) ← textTail bound cs
          return (u :: us, cs)
        | none => .error .malformed
      | [] => .error .malformed
    else if c.toNat < 0x20 then .error .malformed
    else do
      let (us, cs) ← textTail bound cs
      return (unitsOfChar c ++ us, cs)

def text (cs : List Char) : Except ReadError (Units × List Char) := textTail (cs.length + 1) cs

def wholeLength (cs : List Char) : Nat :=
  let sign := if cs.head? == some '-' then 1 else 0
  match cs.drop sign with
  | '0' :: _ => sign + 1
  | c :: rest => if c.isDigit then sign + 1 + (rest.takeWhile Char.isDigit).length else 0
  | [] => 0

def fractionLength (cs : List Char) : Nat :=
  match cs with
  | '.' :: rest =>
    let digits := (rest.takeWhile Char.isDigit).length
    if digits == 0 then 0 else digits + 1
  | _ => 0

def powerLength (cs : List Char) : Nat :=
  match cs with
  | e :: rest =>
    if e == 'e' || e == 'E' then
      let sign := if rest.head? == some '+' || rest.head? == some '-' then 1 else 0
      let digits := ((rest.drop sign).takeWhile Char.isDigit).length
      if digits == 0 then 0 else 1 + sign + digits
    else 0
  | [] => 0

def wholeNumber (cs : List Char) : Except ReadError Int :=
  let negative := cs.head? == some '-'
  let digits := (if negative then cs.drop 1 else cs).filterMap Reading.decimal?
  if Reading.maxDigits < digits.length then .error .longNumber
  else
    let n : Int := Reading.ofDigits 10 digits
    .ok (if negative then -n else n)

def number (cs : List Char) : Except ReadError (Value × List Char) :=
  let whole := wholeLength cs
  let fraction := fractionLength (cs.drop whole)
  let power := powerLength (cs.drop (whole + fraction))
  if whole == 0 then .error .malformed
  else if fraction == 0 && power == 0 then do
    return (.int (← wholeNumber (cs.take whole)), cs.drop whole)
  else
    let length := whole + fraction + power
    match Reading.float? (cs.take length) with
    | some d => .ok (.float d, cs.drop length)
    | none => .error .malformed

def wordValues : List (String × Value) :=
  [("null", .null), ("true", .bool true), ("false", .bool false), ("NaN", .float .nan),
   ("Infinity", .float (.infinite false)), ("-Infinity", .float (.infinite true))]

def scalar (cs : List Char) : Except ReadError (Value × List Char) :=
  match wordValues.find? fun w => w.1.toList.isPrefixOf cs with
  | some (word, v) => .ok (v, cs.drop word.length)
  | none => number cs

mutual

/-- A value. The bound is on how often the parts of values nest or follow one another. -/
def value : (bound : Nat) → List Char → Except ReadError (Value × List Char)
  | 0, _ => .error .malformed
  | bound + 1, cs =>
    match cs with
    | '"' :: cs => do
      let (us, cs) ← text cs
      return (.string us, cs)
    | '[' :: cs =>
      match skipBlank cs with
      | ']' :: cs => .ok (.array [], cs)
      | cs => do
        let (vs, cs) ← elements bound cs
        return (.array vs, cs)
    | '\x7b' :: cs =>
      match skipBlank cs with
      | '\x7d' :: cs => .ok (.object [], cs)
      | cs => do
        let (ms, cs) ← members bound [] cs
        return (.object ms, cs)
    | cs => scalar cs

def elements : (bound : Nat) → List Char → Except ReadError (List Value × List Char)
  | 0, _ => .error .malformed
  | bound + 1, cs => do
    let (v, cs) ← value bound cs
    match skipBlank cs with
    | ']' :: cs => return ([v], cs)
    | ',' :: cs =>
      let (vs, cs) ← elements bound (skipBlank cs)
      return (v :: vs, cs)
    | _ => .error .malformed

/-- The members of an object and its closing brace, after those that were read. -/
def members : (bound : Nat) → List (Units × Value) → List Char →
    Except ReadError (List (Units × Value) × List Char)
  | 0, _, _ => .error .malformed
  | bound + 1, done, cs =>
    match cs with
    | '"' :: cs => do
      let (key, cs) ← text cs
      match skipBlank cs with
      | ':' :: cs =>
        let (v, cs) ← value bound (skipBlank cs)
        let done := insertMember done key v
        match skipBlank cs with
        | '\x7d' :: cs => return (done, cs)
        | ',' :: cs => members bound done (skipBlank cs)
        | _ => .error .malformed
      | _ => .error .malformed
    | _ => .error .malformed

end

def read (s : String) : Except ReadError Value := do
  let cs := skipBlank s.toList
  let (v, rest) ← value (2 * cs.length + 2) cs
  if (skipBlank rest).isEmpty then return v else .error .malformed

end RustScript.Json
