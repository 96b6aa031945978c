/-
  Associated functions and constants of library types.
-/
import RustScript.Idiom.Cast

namespace RustScript.Idiom

/-- What a call `Type::function(…)` of the library becomes. -/
inductive CallForm where
  /-- Fixed code; the arguments are dropped. -/
  | fixed (code : String)
  /-- The first argument alone. -/
  | first
  /-- A call with the first argument. -/
  | apply (func : String)

def callForm? (type func : String) : Option CallForm :=
  match type, func with
  | "Vec", "new" => some (.fixed "[]")
  | "Vec", "with_capacity" => some (.fixed "[]")
  | "Vec", "from" => some (.apply "Array.from")
  | "VecDeque", "new" => some (.fixed "[]")
  | "HashMap", "new" => some (.fixed "\x7b\x7d")
  | "HashMap", "with_capacity" => some (.fixed "\x7b\x7d")
  | "BTreeMap", "new" => some (.fixed "\x7b\x7d")
  | "HashSet", "new" => some (.fixed "new Set()")
  | "BTreeSet", "new" => some (.fixed "new Set()")
  | "String", "new" => some (.fixed "\"\"")
  | "String", "from" => some (.apply "String")
  | "Box", "new" => some .first
  | "Rc", "new" => some .first
  | "Arc", "new" => some .first
  | "RefCell", "new" => some .first
  | "Cell", "new" => some .first
  | "env", "args" => some (.fixed "env.args()")
  | _, _ => none

/-- The code of a library call, none when it has no form of its own or lacks its argument. -/
def associated? (type func : String) (args : List Js.Expr) : Option Js.Expr :=
  match callForm? type func, args with
  | none, _ => none
  | some (.fixed code), _ => some (.atom code)
  | some .first, arg :: _ => some arg
  | some .first, [] => none
  | some (.apply f), arg :: _ => some (named f [arg])
  | some (.apply _), [] => none

def constant? (owner name : String) : Option String :=
  match owner, name with
  | "consts", "PI" => some "Math.PI"
  | "consts", "E" => some "Math.E"
  | "f64", "MAX" => some "Number.MAX_VALUE"
  | "f64", "MIN" => some "-Number.MAX_VALUE"
  | "f64", "INFINITY" => some "Infinity"
  | "f64", "NEG_INFINITY" => some "-Infinity"
  | "f64", "NAN" => some "NaN"
  | "f32", "MAX" => some "Number.MAX_VALUE"
  | "i32", "MAX" => some "2147483647"
  | "i32", "MIN" => some "-2147483648"
  | "u32", "MAX" => some "4294967295"
  | "i64", "MAX" => some "Number.MAX_SAFE_INTEGER"
  | "i64", "MIN" => some "Number.MIN_SAFE_INTEGER"
  | "u64", "MAX" => some "Number.MAX_SAFE_INTEGER"
  | "usize", "MAX" => some "Number.MAX_SAFE_INTEGER"
  | _, _ => none

def mathFunctions : List String :=
  ["max", "min", "abs", "sqrt", "floor", "ceil", "round", "trunc", "pow"]

def numeric? (owner func : String) (args : List Js.Expr) : Option Js.Expr :=
  if isNumberType owner then
    if mathFunctions.contains func then some (named ("Math." ++ func) args)
    else
      match func, args with
      | "from", [arg] => some (named "Number" [arg])
      | _, _ => none
  else none

end RustScript.Idiom
