/-
  Reading numbers.

  Numbers may stand between blanks, carry a sign and use the digits of any script; a single
  underscore may stand between two digits. Decimal numerals are limited in length.
-/
import RustScript.Number.Double
import RustScript.Text.Blank
import RustScript.Text.Digit

namespace RustScript.Reading

def maxDigits : Nat := 4300

/-- A blank that may surround a number; the separator controls may not. -/
def isPad (c : Char) : Bool := Text.isBlank c && !(0x1C ≤ c.toNat && c.toNat ≤ 0x1F)

def unpad (cs : List Char) : List Char := ((cs.dropWhile isPad).reverse.dropWhile isPad).reverse

/-- A sign in front, if there is one, and what follows it. -/
def sign : List Char → Bool × List Char
  | '-' :: cs => (true, cs)
  | '+' :: cs => (false, cs)
  | cs => (false, cs)

def decimal? (c : Char) : Option Nat := Text.decimalValue? c

/-- The value of a digit in base sixteen: a decimal digit of any script or a Latin letter. -/
def hexadecimal? (c : Char) : Option Nat :=
  match Text.decimalValue? c with
  | some d => some d
  | none =>
    if 'a' ≤ c && c ≤ 'f' then some (c.toNat - 'a'.toNat + 10)
    else if 'A' ≤ c && c ≤ 'F' then some (c.toNat - 'A'.toNat + 10)
    else none

/-- The digits at the front, with single underscores between them, and the rest. An underscore
    with no digit after it is left in the rest. -/
def digitRun (digit? : Char → Option Nat) : List Char → List Nat × List Char
  | [] => ([], [])
  | c :: cs =>
    match digit? c with
    | none => ([], c :: cs)
    | some d =>
      match cs with
      | '_' :: c' :: cs' =>
        if (digit? c').isSome then
          let (ds, rest) := digitRun digit? (c' :: cs')
          (d :: ds, rest)
        else ([d], '_' :: c' :: cs')
      | cs' =>
        let (ds, rest) := digitRun digit? cs'
        (d :: ds, rest)

/-- The number with these digits, most significant first. -/
def ofDigits (base : Nat) (ds : List Nat) : Nat := ds.foldl (fun n d => n * base + d) 0

/-- A whole text of digits, as a number; none when another character stands among them or there
    are none. -/
def numeral? (digit? : Char → Option Nat) (base : Nat) (cs : List Char) : Option Nat :=
  match digitRun digit? cs with
  | ([], _) => none
  | (ds, []) => some (ofDigits base ds)
  | _ => none

def natural? (cs : List Char) : Option Nat :=
  if maxDigits < cs.length then none
  else if cs.isEmpty then none
  else (cs.mapM decimal?).map (ofDigits 10)

/-- An integer in base sixteen, with padding, a sign and the mark `0x` allowed. -/
def integer? (cs : List Char) : Option Int :=
  let (negative, cs) := sign (unpad cs)
  let digits :=
    match cs with
    | '0' :: x :: '_' :: cs' => if x == 'x' || x == 'X' then cs' else cs
    | '0' :: x :: cs' => if x == 'x' || x == 'X' then cs' else cs
    | _ => cs
  (numeral? hexadecimal? 16 digits).map fun n => if negative then -(n : Int) else n

/-- The exponent of a number: a mark, a sign and digits, or nothing at all. -/
def exponent? : List Char → Option Int
  | [] => some 0
  | c :: cs =>
    if c == 'e' || c == 'E' then
      let (negative, cs) := sign cs
      (numeral? decimal? 10 cs).map fun n => if negative then -(n : Int) else n
    else none

/-- An unsigned decimal number with fraction and exponent. -/
def magnitude? (negative : Bool) (cs : List Char) : Option Double :=
  let (whole, rest) := digitRun decimal? cs
  let (fraction, rest) :=
    match rest with
    | '.' :: rest => digitRun decimal? rest
    | rest => ([], rest)
  if whole.isEmpty && fraction.isEmpty then none
  else
    (exponent? rest).map fun e =>
      Double.ofDecimal negative (ofDigits 10 (whole ++ fraction)) (e - fraction.length)

/-- The Latin letters of a text in lower case; other characters stay. -/
def lower (cs : List Char) : String := String.ofList (cs.map Char.toLower)

def float? (cs : List Char) : Option Double :=
  let (negative, cs) := sign (unpad cs)
  match lower cs with
  | "inf" => some (.infinite negative)
  | "infinity" => some (.infinite negative)
  | "nan" => some .nan
  | _ => magnitude? negative cs

end RustScript.Reading
