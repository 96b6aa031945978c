/-
  Declarations.

  A struct becomes a class that can be written to and read from JSON, an enum an object with one
  member for each variant. The functions of an impl block are attached to the type or to its
  prototype. Every declaration is emitted in a fresh state, so that no rename and no temporary
  passes from one to another.
-/
import RustScript.Emit.Reader

namespace RustScript

open Js (commas braces)

abbrev Enums := List String

namespace Emit

def run {α : Type} (place : Place) (body : Emit α) : Except Error α := (body place {}).1

end Emit

namespace StructDecl

def method (head : String) (lines : List String) : String := head ++ " " ++ braces lines

def fieldNames (d : StructDecl) : List String :=
  match d.shape with
  | .named => d.fields
  | _ => (List.range d.fields.length).map toString

/-- The members of a class with these parameters, assignments and conversions. -/
def members (name : String) (params assigns : List String) (toJson : String)
    (args : List String) : List String :=
  [method ("constructor(" ++ commas params ++ ")") assigns,
   method "toJSON()" ["return " ++ toJson ++ ";"],
   method "static fromJSON(json)" ["return new " ++ name ++ "(" ++ commas args ++ ");"]]

def emit (d : StructDecl) : String :=
  let body :=
    match d.shape with
    | .unit =>
      [method "toJSON()" ["return \x7b\x7d;"],
       method "static fromJSON(json)" ["return new " ++ d.ident ++ "();"]]
    | .tuple =>
      let slots := d.fieldNames
      members d.ident (slots.map fun i => "_" ++ i)
        (slots.map fun i => "this[" ++ i ++ "] = _" ++ i ++ ";")
        ("[" ++ commas (slots.map fun i => "this[" ++ i ++ "]") ++ "]")
        (slots.map fun i => "json[" ++ i ++ "]")
    | .named =>
      let props := commas (d.fields.map fun f => f ++ ": this." ++ f)
      members d.ident (d.fields.map Name.target)
        (d.fields.map fun f => "this." ++ f ++ " = " ++ Name.target f ++ ";")
        (if props.isEmpty then "\x7b\x7d" else "\x7b " ++ props ++ " \x7d")
        (d.fields.map fun f => "json." ++ f)
  "class " ++ d.ident ++ " " ++ braces body

end StructDecl

namespace Variant

def factory (name : String) (params props : List String) : String :=
  let obj := "\x7b " ++ commas (("type: \"" ++ name ++ "\"") :: props) ++ " \x7d"
  name ++ ": function(" ++ commas params ++ ") \x7b\nreturn " ++ obj ++ ";\n\x7d"

def emit (v : Variant) : Except Error String :=
  match v.shape with
  | .unit => .ok (v.name ++ ": \"" ++ v.name ++ "\"")
  | .tuple =>
    let slots := (List.range v.fields.length).map fun i => "value" ++ toString i
    .ok (factory v.name slots slots)
  | .named =>
    if v.fields.contains "type" then .error (.refusal (.tagField v.name))
    else
      .ok (factory v.name (v.fields.map Name.target)
        (v.fields.map fun f => if f == Name.target f then f else f ++ ": " ++ Name.target f))

end Variant

namespace EnumDecl

def conversions (name : String) : List String :=
  ["fromJSON(json) \x7b\nif (!is" ++ name ++ "(json)) throw new Error(`Invalid " ++ name ++
      ": $\x7bJSON.stringify(json)\x7d`);\nreturn json;\n\x7d",
   "toJSON(value) \x7b\nreturn value;\n\x7d"]

/-- The predicate for the values of the enum: names of variants and objects tagged with one. -/
def predicate (name names : String) : String :=
  "function is" ++ name ++ "(value) \x7b\nif (typeof value === \"string\") \x7b\nreturn " ++
    names ++ ".includes(value);\n\x7d\nreturn value !== null && typeof value === \"object\" && " ++
    names ++ ".includes(value.type);\n\x7d"

def emit (d : EnumDecl) : Except Error String := do
  let names := "[" ++ commas (d.variants.map fun v => "\"" ++ v.name ++ "\"") ++ "]"
  let members := (← d.variants.mapM Variant.emit) ++ conversions d.ident
  return "const " ++ d.ident ++ " = \x7b\n" ++ ",\n".intercalate members ++ "\n\x7d;\n" ++
    predicate d.ident names

end EnumDecl

def functionKeyword (isAsync : Bool) : String := Js.asyncText isAsync ++ "function"

def functionText (params : List Js.Binding) (body : List Js.Stmt) : String :=
  "(" ++ Js.paramsText params ++ ") " ++ braces (Js.blockLines body)

def FnDecl.emit (r : Reader) (structs : Structs) (d : FnDecl) : Except Error String :=
  if d.receiver.isSome then .error (.refusal (.freeReceiver d.ident))
  else do
    let (params, body) ← Emit.run { structs } (r.emitFn d)
    return functionKeyword d.isAsync ++ " " ++ Name.target d.ident ++ functionText params body

namespace ImplDecl

/-- A function of an impl block as a fragment. It has a receiver or belongs to the type itself. -/
def method (r : Reader) (structs : Structs) (type : String) (d : FnDecl) : Emit String := do
  let isStatic := d.receiver.isNone
  let (params, body) ←
    withReader (fun _ => { selfType := some type, isStatic, structs }) (r.emitFn d)
  let owner := if isStatic then type else type ++ ".prototype"
  return owner ++ "." ++ d.ident ++ " = " ++ functionKeyword d.isAsync ++
    functionText params body ++ ";"

/-- The functions in order. They share the count of temporaries. -/
def methods (r : Reader) (structs : Structs) (type : String) : List FnDecl → Emit (List String)
  | [] => pure []
  | d :: ds => do
    let fragment ← method r structs type d
    return fragment :: (← methods r structs type ds)

def marker (type : String) : String := "// Methods for " ++ type

def withMarker (type : String) : List String → List String
  | [] => [marker type]
  | first :: rest => (marker type ++ "\n" ++ first) :: rest

/-- The fragments of an impl block, one for each function. The object of an enum has no prototype,
    so that its functions cannot have a receiver. -/
def emit (r : Reader) (structs : Structs) (enums : Enums) (d : ImplDecl) :
    Except Error (List String) :=
  match if enums.contains d.ident then d.fns.find? fun f => f.receiver.isSome else none with
  | some f => .error (.refusal (.enumReceiver d.ident f.ident))
  | none => do
    return withMarker d.ident (← Emit.run { structs } (methods r structs d.ident d.fns))

end ImplDecl

def ConstDecl.emit (r : Reader) (structs : Structs) (d : ConstDecl) : Except Error String := do
  let code ← Emit.run { structs } (r.emit d.value .value)
  return "const " ++ Name.target d.ident ++ " = " ++ code.text ++ ";"

def Item.fragments (r : Reader) (structs : Structs) (enums : Enums) :
    Item → Except Error (List String)
  | .struct d => .ok [d.emit]
  | .enum d => do return [← d.emit]
  | .fn d => do return [← d.emit r structs]
  | .impl d => d.emit r structs enums
  | .const d => do return [← d.emit r structs]
  | .inert ident what => .ok ["// Skipped " ++ what ++ ": " ++ ident]
  | .unknown ident what => .error (.refusal (.unknownDeclaration what ident))
  | .bare => .error (.refusal (.declaration Item.bare.kind))

def Item.code (r : Reader) (structs : Structs) (enums : Enums) (i : Item) :
    Except Error String := do
  return "\n".intercalate (← i.fragments r structs enums)

end RustScript
