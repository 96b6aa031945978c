/-
  Declarations read from nodes.

  Declarations without meaning at run time are kept by their label. One that cannot be read
  becomes an unknown declaration, which says why; only a fault goes further.
-/
import RustScript.Source.Path
import RustScript.Source.Phrase

namespace RustScript.Source

/-- The word for a declaration without meaning at run time. -/
def inert? : String → Option String
  | "use_declaration" => some "use"
  | "mod_item" => some "mod"
  | "attribute_item" => some "attribute"
  | "inner_attribute_item" => some "attribute"
  | "trait_item" => some "trait"
  | "type_item" => some "type alias"
  | "extern_crate_declaration" => some "extern crate"
  | "foreign_mod_item" => some "extern block"
  | "macro_definition" => some "macro_rules"
  | _ => none

namespace Parts

/-- What a declaration is called in reports: its name, what it imports, its type or its text. -/
def itemLabel (bytes : Bytes) (p : Parts) : Except Error String :=
  match (p.child? "name") <|> (p.child? "argument") <|> (p.child? "type") with
  | some c => c.parts.text bytes
  | none => do return Text.collapse (← p.text bytes)

end Parts

def markMutable (isMutable : Bool) : Pat → Pat
  | .ident name old byRef sub =>
    if isMutable then .ident name true false none else .ident name old byRef sub
  | p => p

/-- The receiver and the parameters of a function. -/
structure Signature where
  receiver : Option SelfParam := none
  params : List Param := []

/-- Reads parameters in order; the last receiver counts. -/
def signature (bytes : Bytes) : List Phrase → Except Error Signature
  | [] => .ok {}
  | c :: rest =>
    if c.kind == "self_parameter" then do
      let after ← signature bytes rest
      let receiver := ⟨c.parts.has "mutable_specifier", c.parts.has "&"⟩
      return { after with receiver := after.receiver <|> some receiver }
    else if c.kind == "parameter" then do
      let pat ← (← c.parts.child "pattern").asPat
      let ty ← c.parts.textIn? bytes "type"
      let after ← signature bytes rest
      let param := ⟨markMutable (c.parts.has "mutable_specifier") pat, ty⟩
      return { after with params := param :: after.params }
    else .error (.refusal (.parameter c.kind))

/-- Whether one of the modifiers of a function is `async`. -/
def isAsync (bytes : Bytes) : List Phrase → Except Error Bool
  | [] => .ok false
  | c :: rest =>
    if c.kind == "function_modifiers" then do
      if (Text.words (← c.parts.text bytes)).contains "async" then return true
      else isAsync bytes rest
    else isAsync bytes rest

def function (bytes : Bytes) (p : Parts) : Except Error FnDecl := do
  let isAsync ← isAsync bytes p.children
  let s ← signature bytes (← p.child "parameters").parts.named
  let ident ← p.textIn bytes "name"
  let body ←
    match p.child? "body" with
    | some c => c.asBlock
    | none => pure []
  let ret ← p.textIn? bytes "return_type"
  return ⟨ident, s.params, body, s.receiver, ret, isAsync⟩

/-- The shape and the field names of a struct or variant. -/
def fieldNames (bytes : Bytes) (body : Option Phrase) : Except Error (Shape × List String) :=
  match body with
  | none => .ok (.unit, [])
  | some c =>
    if c.kind == "field_declaration_list" then do
      let fields := c.parts.children.filter fun f => f.isNamed && f.kind == "field_declaration"
      return (.named, ← fields.mapM fun f => f.parts.textIn bytes "name")
    else if c.kind == "ordered_field_declaration_list" then
      let slots := c.parts.children.filter fun f => f.parts.field == some "type"
      .ok (.tuple, (List.range slots.length).map toString)
    else .error (.refusal (.fieldList c.kind))

def structItem (bytes : Bytes) (p : Parts) : Except Error StructDecl := do
  let (shape, fields) ← fieldNames bytes (p.child? "body")
  return ⟨← p.textIn bytes "name", fields, shape⟩

def enumItem (bytes : Bytes) (p : Parts) : Except Error EnumDecl := do
  let body ← p.child "body"
  let variants ← (body.parts.named.filter fun c => c.kind == "enum_variant").mapM fun c => do
    let (shape, fields) ← fieldNames bytes (c.parts.child? "body")
    return (⟨← c.parts.textIn bytes "name", shape, fields⟩ : Variant)
  return ⟨← p.textIn bytes "name", variants⟩

def implItem (bytes : Bytes) (p : Parts) : Except Error ImplDecl := do
  let type := implName (← p.textIn bytes "type")
  let members :=
    match p.child? "body" with
    | some c => c.parts.named
    | none => []
  let fns ← members.mapM fun c =>
    if c.kind == "function_item" then function bytes c.parts
    else .error (.refusal (.associatedItem type c.kind))
  return ⟨type, fns, ← p.textIn? bytes "trait"⟩

def constItem (bytes : Bytes) (p : Parts) : Except Error ConstDecl := do
  let ident ← p.textIn bytes "name"
  let value ← (← p.child "value").asExpr
  let ty ← p.textIn bytes "type"
  return ⟨ident, value, some ty, p.kind == "static_item"⟩

/-- The kinds of declarations that have a meaning at run time. -/
def itemKinds : List String :=
  ["function_item", "struct_item", "enum_item", "impl_item", "const_item", "static_item"]

/-- A declaration that has a meaning at run time, none for any other node. -/
def item? (bytes : Bytes) (p : Parts) : Option (Except Error Item) :=
  match p.kind with
  | "function_item" => some (do return .fn (← function bytes p))
  | "struct_item" => some (do return .struct (← structItem bytes p))
  | "enum_item" => some (do return .enum (← enumItem bytes p))
  | "impl_item" => some (do return .impl (← implItem bytes p))
  | "const_item" => some (do return .const (← constItem bytes p))
  | "static_item" => some (do return .const (← constItem bytes p))
  | _ => none

def item (bytes : Bytes) (p : Parts) : Except Error Item :=
  match inert? p.kind with
  | some what => do return .inert (← p.itemLabel bytes) what
  | none =>
    match item? bytes p with
    | none => do return .unknown (← p.itemLabel bytes) p.kind
    | some (.ok i) => .ok i
    | some (.error e) =>
      if e.isReported then do
        return .unknown (← p.itemLabel bytes) (p.kind ++ " (" ++ e.message ++ ")")
      else .error e

def items (bytes : Bytes) (root : Parts) : Except Error (List Item) :=
  (root.children.filter fun c =>
    c.isNamed && !isComment c.kind && c.kind != "empty_statement").mapM fun c => item bytes c.parts

end RustScript.Source
