/-
  Methods of library types.

  Vectors and maps both become plain values, arrays and objects, so an operation on a container
  cannot know which one it meets. It becomes an arrow function that is called at once: it binds the
  receiver, prefers a method that it has itself, and otherwise asks what it can do.
-/
import RustScript.Idiom.Cast

namespace RustScript.Idiom

def renamed? : String → Option String
  | "to_uppercase" => some "toUpperCase"
  | "to_lowercase" => some "toLowerCase"
  | "to_ascii_uppercase" => some "toUpperCase"
  | "to_ascii_lowercase" => some "toLowerCase"
  | "trim" => some "trim"
  | "trim_start" => some "trimStart"
  | "trim_end" => some "trimEnd"
  | "starts_with" => some "startsWith"
  | "ends_with" => some "endsWith"
  | "replace" => some "replaceAll"
  | "split" => some "split"
  | "join" => some "join"
  | "push" => some "push"
  | "pop" => some "pop"
  | "map" => some "map"
  | "filter" => some "filter"
  | "find" => some "find"
  | "any" => some "some"
  | "all" => some "every"
  | "for_each" => some "forEach"
  | "position" => some "findIndex"
  | "concat" => some "concat"
  | "repeat" => some "repeat"
  | "char_at" => some "charAt"
  | "find_index" => some "findIndex"
  | _ => none

/-- Methods that concern ownership or iteration only and do nothing at run time. -/
def identities : List String :=
  ["iter", "iter_mut", "into_iter", "clone", "cloned", "copied", "collect", "as_str", "as_ref",
   "as_mut", "as_slice", "to_owned", "to_vec", "into", "borrow", "borrow_mut", "by_ref"]

/-- Accessors of the host's objects that are properties in JavaScript. -/
def hostProperties : List String :=
  ["body", "head", "title", "documentElement", "URL", "readyState", "location", "innerWidth",
   "innerHeight"]

def hostGlobals : List String := ["document", "window", "navigator", "location"]

def textMethods : List String :=
  ["to_string", "to_owned", "to_uppercase", "to_lowercase", "to_ascii_uppercase",
   "to_ascii_lowercase", "trim", "trim_start", "trim_end", "repeat", "replace", "join"]

def dispatch (params : List String) (code : String) (args : List Js.Expr) : Js.Expr :=
  .call (.paren (.arrow .helper false (params.map .name) (.atom code))) args

def own (method args fallback : String) : String :=
  "typeof obj." ++ method ++ " === \"function\" ? obj." ++ method ++ "(" ++ args ++ ") : " ++
    fallback

/-- The number of elements of an array, a text, a set, a map or an object. -/
def lengthCode : String :=
  "obj.length !== undefined ? obj.length : obj.size !== undefined ? obj.size : " ++
    "Object.keys(obj).length"

/-- A question about a value: spelled out when the value may be read twice, else an arrow function
    that is called at once. -/
def askNull (recv : Js.Expr) (isSimple : Bool) (op joint : String) : Js.Expr :=
  let ask (v : Js.Expr) : Js.Expr :=
    .binary joint (.binary op v (.atom "null")) (.binary op v (.atom "undefined"))
  if isSimple then .paren (ask recv)
  else .call (.paren (.arrow .helper false [.name "value"] (ask (.atom "value")))) [recv]

def container? (recv : Js.Expr) (method : String) (args : List Js.Expr) : Option Js.Expr :=
  match method, args with
  | "len", [] => some (dispatch ["obj"] (own "len" "" lengthCode) [recv])
  | "count", [] => some (dispatch ["obj"] (own "count" "" lengthCode) [recv])
  | "is_empty", [] =>
    some (dispatch ["obj"] (own "is_empty" "" ("(" ++ lengthCode ++ ") === 0")) [recv])
  | "contains", [item] =>
    some (dispatch ["obj", "item"]
      (own "contains" "item"
        ("typeof obj.includes === \"function\" ? obj.includes(item) : " ++
         "typeof obj.has === \"function\" ? obj.has(item) : " ++
         "Object.prototype.hasOwnProperty.call(obj, item)"))
      [recv, item])
  | "contains_key", [key] =>
    some (dispatch ["obj", "key"]
      (own "contains_key" "key"
        ("typeof obj.has === \"function\" ? obj.has(key) : " ++
         "Object.prototype.hasOwnProperty.call(obj, key)"))
      [recv, key])
  | "get", [key] =>
    some (dispatch ["obj", "key"]
      "typeof obj.get === \"function\" ? obj.get(key) : obj[key]" [recv, key])
  | "insert", [value] =>
    some (dispatch ["obj", "value"]
      (own "insert" "value"
        ("typeof obj.add === \"function\" ? obj.add(value) : " ++
         "obj.includes(value) ? false : (obj.push(value), true)"))
      [recv, value])
  | "insert", [key, value] =>
    some (dispatch ["obj", "key", "value"]
      (own "insert" "key, value"
        ("typeof obj.splice === \"function\" ? obj.splice(key, 0, value) : " ++
         "typeof obj.set === \"function\" ? obj.set(key, value) : (obj[key] = value)"))
      [recv, key, value])
  | "remove", [key] =>
    some (dispatch ["obj", "key"]
      (own "remove" "key"
        ("typeof obj.splice === \"function\" ? obj.splice(key, 1)[0] : " ++
         "typeof obj.delete === \"function\" ? obj.delete(key) : " ++
         "((value) => (delete obj[key], value))(obj[key])"))
      [recv, key])
  | "keys", [] =>
    some (dispatch ["obj"]
      ("typeof obj.keys === \"function\" && !Array.isArray(obj) ? Array.from(obj.keys()) : " ++
       "Object.keys(obj)")
      [recv])
  | "values", [] =>
    some (dispatch ["obj"]
      ("typeof obj.values === \"function\" && !Array.isArray(obj) ? Array.from(obj.values()) : " ++
       "Object.values(obj)")
      [recv])
  | _, _ => none

/-- What a loop over pairs runs through: a plain object gives its entries. -/
def entries (source : Js.Expr) : Js.Expr :=
  dispatch ["obj"] "typeof obj[Symbol.iterator] === \"function\" ? obj : Object.entries(obj)"
    [source]

def optional? (recv : Js.Expr) (method : String) (args : List Js.Expr) (isSimple : Bool) :
    Option Js.Expr :=
  match method, args with
  | "is_some", [] => some (askNull recv isSimple "!==" "&&")
  | "is_none", [] => some (askNull recv isSimple "===" "||")
  | "is_ok", [] => some (.paren (.binary "in" (.atom "\"ok\"") recv))
  | "is_err", [] => some (.paren (.binary "in" (.atom "\"error\"") recv))
  | "unwrap_or", [fallback] => some (.paren (.binary "??" recv fallback))
  | "unwrap_or_else", [fallback] => some (.paren (.binary "??" recv (.call (.paren fallback) [])))
  | _, _ => none

def sequence? (recv : Js.Expr) (method : String) (args : List Js.Expr) (isSimple : Bool) :
    Option Js.Expr :=
  match method, args with
  | "to_string", [] => some (named "String" [recv])
  | "chars", [] => some (named "Array.from" [recv])
  | "rev", [] => some (.call (.member (named "Array.from" [recv]) "reverse") [])
  | "enumerate", [] =>
    some (.call (.member (named "Array.from" [recv]) "map")
      [.arrow .helper false [.name "$v", .name "$i"] (.array [.atom "$i", .atom "$v"])])
  | "sum", [] =>
    some (.call (.member recv "reduce")
      [.arrow .helper false [.name "$a", .name "$b"] (.binary "+" (.atom "$a") (.atom "$b")),
       .atom "0"])
  | "first", [] => some (.index recv (.atom "0"))
  | "last", [] => some (dispatch ["arr"] "arr[arr.length - 1]" [recv])
  | "push_str", [text] => if isSimple then some (.paren (.binary "+=" recv text)) else none
  | "extend", [more] => some (.call (.member recv "push") [.spread more])
  | "abs", [] => some (named "Math.abs" [recv])
  | "max", [other] => some (named "Math.max" [recv, other])
  | "min", [other] => some (named "Math.min" [recv, other])
  | "pow", [exponent] => some (.paren (.binary "**" recv exponent))
  | "powi", [exponent] => some (.paren (.binary "**" recv exponent))
  | "powf", [exponent] => some (.paren (.binary "**" recv exponent))
  | "floor", [] => some (named "Math.floor" [recv])
  | "ceil", [] => some (named "Math.ceil" [recv])
  | "round", [] => some (named "Math.round" [recv])
  | "sqrt", [] => some (named "Math.sqrt" [recv])
  | "trunc", [] => some (named "Math.trunc" [recv])
  | "clear", [] =>
    some (dispatch ["obj"]
      ("Array.isArray(obj) ? (obj.length = 0, undefined) : " ++
       "typeof obj.clear === \"function\" ? obj.clear() : " ++
       "Object.keys(obj).forEach((key) => delete obj[key])")
      [recv])
  | "sort", [] =>
    some (.call (.member recv "sort") [.atom "($a, $b) => ($a < $b ? -1 : $a > $b ? 1 : 0)"])
  | _, _ => none

/-- The code of a method call with an idiom of its own, none when the call is emitted as it is.
    `isSimple` says that the receiver may be read twice, `isHost` that it is one of the host's
    objects. -/
def method? (recv : Js.Expr) (method : String) (args : List Js.Expr) (isSimple isHost : Bool) :
    Option Js.Expr :=
  if isHost && args.isEmpty && hostProperties.contains method then some (.member recv method)
  else if identities.contains method && args.length ≤ 1 then some recv
  else
    match method, args with
    | "unwrap", [] => some (named "unwrap" [recv])
    | "expect", [message] => some (named "unwrap" [recv, message])
    | _, _ =>
      (container? recv method args) <|> (optional? recv method args isSimple) <|>
        (sequence? recv method args isSimple) <|>
        ((renamed? method).map fun name => .call (.member recv name) args)

end RustScript.Idiom
