/-
  The rules of the grammar that refer to one another.

  A rule that needs another one gets the parsers of all rules as an argument; the knot is tied in
  one place, with a bound on how deep rules may nest. What a rule depends on from outside is part of
  its name.
-/
import RustScript.Grammar.Token

namespace RustScript.Grammar

/-- Where a conjunction ends an expression instead of continuing it: conditions may be chained with
    `let`. -/
inductive Conjunction where
  /-- A conjunction is part of the expression. -/
  | joins
  /-- It ends the expression when `let` follows. -/
  | stopsAtLet
  /-- It ends the expression. -/
  | stops
  deriving DecidableEq

/-- What may stand at the top of an expression. -/
structure Mode where
  /-- A brace after a path opens the fields of a struct, and not the block of a statement. -/
  structs : Bool := true
  conjunction : Conjunction := .joins

/-- The mode of an operand: only the question of braces is inherited. -/
def Mode.inner (m : Mode) : Mode := { structs := m.structs }

inductive Rule where
  /-- A type; a sum of bounds may be excluded. -/
  | type (sums : Bool)
  | typeArguments
  | typeParameters
  | parameters
  /-- A pattern; alternatives may be excluded. -/
  | pattern (alternatives : Bool)
  /-- An expression whose operators bind at least as tightly as a level. -/
  | expr (level : Nat) (mode : Mode)
  | block
  | blockLike
  | branch
  | condition (structs : Bool)
  | declarations
  | useList

/-- The parsers of all rules. -/
abbrev Rules := Rule → Parser Unit

namespace Rules

def value (rules : Rules) : Parser Unit := rules (.expr 0 {})

def anyType (rules : Rules) : Parser Unit := rules (.type true)

def anyPattern (rules : Rules) : Parser Unit := rules (.pattern true)

end Rules

end RustScript.Grammar
