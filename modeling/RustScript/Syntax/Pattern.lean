/-
  Patterns of the source language.
-/
import RustScript.Syntax.Literal

namespace RustScript

/-- A literal in a pattern, with the minus sign that may stand before it. -/
structure LitPat where
  lit : Literal
  negative : Bool := false
  deriving DecidableEq

mutual

inductive Pat where
  | wild
  | rest
  | ident (name : String) (isMutable byRef : Bool) (sub : Option Pat)
  | lit (lit : LitPat)
  | tuple (elems : List Pat)
  | tupleStruct (path : List String) (elems : List Pat)
  | struct (path : List String) (fields : List FieldPat) (rest : Bool)
  | path (path : List String)
  | ref (pat : Pat)
  | alt (alts : List Pat)
  | range (start stop : Option LitPat) (inclusive : Bool)
  | slice (elems : List Pat)
  | bare

structure FieldPat where
  name : String
  pat : Pat

end

namespace Pat

def kind : Pat → String
  | wild => "WildPat"
  | rest => "RestPat"
  | ident .. => "IdentPat"
  | lit .. => "LitPat"
  | tuple .. => "TuplePat"
  | tupleStruct .. => "TupleStructPat"
  | struct .. => "StructPat"
  | path .. => "PathPat"
  | ref .. => "RefPat"
  | alt .. => "OrPat"
  | range .. => "RangePat"
  | slice .. => "SlicePat"
  | bare => "Pat"

def isRest : Pat → Bool
  | rest => true
  | _ => false

/-- The name of a plain identifier pattern: no `@` after it. -/
def plainName? : Pat → Option String
  | ident name _ _ none => some name
  | _ => none

mutual

/-- Whether a name bound by the pattern is declared `mut`, in the forms that can destructure. -/
def hasMutable : Pat → Bool
  | ident _ isMutable _ _ => isMutable
  | ref p => p.hasMutable
  | tuple ps => anyMutable ps
  | slice ps => anyMutable ps
  | tupleStruct _ ps => anyMutable ps
  | struct _ fs _ => anyFieldMutable fs
  | _ => false

def anyMutable : List Pat → Bool
  | [] => false
  | p :: ps => p.hasMutable || anyMutable ps

def anyFieldMutable : List FieldPat → Bool
  | [] => false
  | ⟨_, p⟩ :: fs => p.hasMutable || anyFieldMutable fs

end

end Pat

end RustScript
