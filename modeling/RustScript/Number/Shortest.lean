/-
  The shortest decimal text of a floating-point value.

  Of all decimal numbers that round to the value, the text shows one with the fewest digits, and of
  those the nearest. One digit is tried, then two, and so on: on each grid the neighbours of the
  value are tested against the interval of numbers that round to it.
-/
import RustScript.Number.Double

namespace RustScript

/-- Digits with the place of the point: `0.d₁d₂… · 10 ^ point`. -/
structure Digits where
  digits : List Char
  point : Int

namespace Shortest

/-- The comparison `a · 2 ^ i ≤ b · 10 ^ j` or, when `strict`, `<`, between integers. -/
def below (strict : Bool) (a : Nat) (i : Int) (b : Nat) (j : Int) : Bool :=
  let l := a * Nat.pow 2 i.toNat * Nat.pow 10 (-j).toNat
  let r := b * Nat.pow 10 j.toNat * Nat.pow 2 (-i).toNat
  if strict then l < r else l ≤ r

/-- The comparison `b · 10 ^ j ≤ a · 2 ^ i` or, when `strict`, `<`. -/
def above (strict : Bool) (a : Nat) (i : Int) (b : Nat) (j : Int) : Bool :=
  let l := a * Nat.pow 2 i.toNat * Nat.pow 10 (-j).toNat
  let r := b * Nat.pow 10 j.toNat * Nat.pow 2 (-i).toNat
  if strict then r < l else r ≤ l

/-- Whether `c · 10 ^ j` rounds to `m · 2 ^ e`. The interval reaches half a unit to either side,
    a quarter below a power of two, and holds its ends when the mantissa is even. -/
def rounds (m : Nat) (e : Int) (c : Nat) (j : Int) : Bool :=
  let gap := if m == Nat.pow 2 (Double.precision - 1) && Double.minExponent < e then 1 else 2
  let strict := m % 2 == 1
  below strict (4 * m - gap) (e - 2) c j && above strict (4 * m + 2) (e - 2) c j

/-- The least `k` below `bound` with `den ≤ num · 10 ^ k`. -/
def leadingZeros (num den : Nat) : (bound : Nat) → Nat
  | 0 => 0
  | bound + 1 => if den ≤ num then 0 else leadingZeros (num * 10) den bound + 1

/-- The place of the point of `m · 2 ^ e`: the `p` with `10 ^ (p - 1) ≤ m · 2 ^ e < 10 ^ p`. -/
def point (m : Nat) (e : Int) : Int :=
  let num := m * Nat.pow 2 e.toNat
  let den := Nat.pow 2 (-e).toNat
  if den ≤ num then (Nat.toDigits 10 (num / den)).length
  else 1 - (leadingZeros num den 400 : Int)

def floorOn (m : Nat) (e j : Int) : Nat :=
  (m * Nat.pow 2 e.toNat * Nat.pow 10 (-j).toNat) / (Nat.pow 10 j.toNat * Nat.pow 2 (-e).toNat)

/-- The nearer of the two neighbours `c` and `c + 1` on the grid of `10 ^ j`, among those that
    round to the value; a tie goes to the even one. -/
def choose (m : Nat) (e : Int) (c : Nat) (j : Int) : Option Nat :=
  match rounds m e c j, rounds m e (c + 1) j with
  | false, false => none
  | true, false => some c
  | false, true => some (c + 1)
  | true, true =>
    if below true (2 * m) e (2 * c + 1) j then some c
    else if above true (2 * m) e (2 * c + 1) j then some (c + 1)
    else some (if c % 2 == 0 then c else c + 1)

/-- The first grid, from `count` digits on, with a neighbour that rounds to the value. -/
def search (m : Nat) (e : Int) (p : Int) (count : Nat) : (more : Nat) → Nat × Int
  | 0 => (floorOn m e (p - count), p - count)
  | more + 1 =>
    let j := p - count
    match choose m e (floorOn m e j) j with
    | some c => (c, j)
    | none => search m e p (count + 1) more

/-- The shortest digits of the positive value `m · 2 ^ e`. -/
def digits (m : Nat) (e : Int) : Digits :=
  let (c, j) := search m e (point m e) 1 17
  let all := Nat.toDigits 10 c
  let kept := (all.reverse.dropWhile (· == '0')).reverse
  ⟨kept, all.length + j⟩

end Shortest

namespace Double

/-- Numbers with the point from three places before the digits to sixteen places into them are
    written out; the others have an exponent with a sign and at least two digits. -/
def isPlain (point : Int) : Bool := -4 < point && point ≤ 16

def exponentText (exponent : Int) : List Char :=
  let size := Nat.toDigits 10 exponent.natAbs
  let size := if size.length < 2 then '0' :: size else size
  'e' :: (if exponent < 0 then '-' else '+') :: size

/-- Sets the digits out. A whole number written out ends in `.0`. -/
def layout (d : Digits) : List Char :=
  if isPlain d.point then
    if d.point ≤ 0 then
      '0' :: '.' :: List.replicate (-d.point).toNat '0' ++ d.digits
    else
      let whole := d.point.toNat
      if d.digits.length ≤ whole then
        d.digits ++ List.replicate (whole - d.digits.length) '0' ++ ['.', '0']
      else d.digits.take whole ++ '.' :: d.digits.drop whole
  else
    match d.digits with
    | [] => exponentText (d.point - 1)
    | [c] => c :: exponentText (d.point - 1)
    | c :: cs => c :: '.' :: cs ++ exponentText (d.point - 1)

def signed (negative : Bool) (cs : List Char) : String :=
  String.ofList (if negative then '-' :: cs else cs)

/-- The shortest text of a value; infinities and the undefined value have names. -/
def toText : Double → String
  | .nan => "nan"
  | .infinite negative => signed negative "inf".toList
  | .finite negative 0 _ => signed negative "0.0".toList
  | .finite negative m e => signed negative (layout (Shortest.digits m e))

end Double

end RustScript
