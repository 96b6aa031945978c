/-
  Sets of code points.

  A set is written as the increasing list of the code points at which membership changes, starting
  outside: `[a, b, c]` holds `a ≤ n < b` and `c ≤ n`. The large sets are given by the lengths of the
  runs between their boundaries.
-/
namespace RustScript.Text

/-- Whether the code point `n` lies in the set with these boundaries; `inside` says on which
    side of the first boundary membership starts. -/
def memberFrom (n : Nat) : (inside : Bool) → (bounds : List Nat) → Bool
  | inside, [] => inside
  | inside, b :: bs => if n < b then inside else memberFrom n (!inside) bs

/-- Whether the character lies in the set with these boundaries. -/
def inBounds (bounds : List Nat) (c : Char) : Bool := memberFrom c.toNat false bounds

/-- The boundaries of a set whose runs, outside and inside in turn, have these lengths from `start`
    on. -/
def boundsOf (start : Nat) : (lengths : List Nat) → List Nat
  | [] => []
  | n :: ns => (start + n) :: boundsOf (start + n) ns

end RustScript.Text
