/-
  Number types and casts.
-/
import RustScript.Js.Tree

namespace RustScript.Idiom

def intTypes : List String :=
  ["i8", "i16", "i32", "i64", "i128", "isize", "u8", "u16", "u32", "u64", "u128", "usize"]

def floatTypes : List String := ["f32", "f64"]

def isNumberType (ty : String) : Bool := intTypes.contains ty || floatTypes.contains ty

def named (func : String) (args : List Js.Expr) : Js.Expr := .call (.atom func) args

/-- The value converted to a type. A type without a conversion leaves the value as it is, with a
    comment behind it. -/
def cast (value : Js.Expr) (ty : String) : Js.Expr :=
  let ty := Text.strip ty
  if intTypes.contains ty then named "Math.trunc" [value]
  else if floatTypes.contains ty then named "Number" [value]
  else if ["String", "str", "&str"].contains ty then named "String" [value]
  else if ty == "bool" then named "Boolean" [value]
  else if ty == "char" then named "String.fromCharCode" [value]
  else .note value ("as " ++ ty)

end RustScript.Idiom
