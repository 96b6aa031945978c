/-
  Programs put together from fragments.

  The declarations of a unit are emitted one by one, in order. A declaration that fails is reported
  and left out; a fault ends the whole unit.
-/
import RustScript.Declaration
import RustScript.Program.Layout
import RustScript.Program.Preamble

namespace RustScript

structure Diagnostic where
  item : String
  error : Error
  deriving DecidableEq, Repr

def Diagnostic.text (d : Diagnostic) : String := d.item ++ ": " ++ d.error.message

namespace Structs

def insert (structs : Structs) (name : String) (fields : List String) : Structs :=
  if structs.any fun s => s.1 == name then
    structs.map fun s => if s.1 == name then (name, fields) else s
  else structs ++ [(name, fields)]

def addItems (structs : Structs) (items : List Item) : Structs :=
  items.foldl
    (fun structs i =>
      match i with
      | .struct d => insert structs d.ident d.fieldNames
      | _ => structs)
    structs

def ofItems (items : List Item) : Structs := addItems [] items

end Structs

namespace Enums

def addItems (enums : Enums) (items : List Item) : Enums :=
  items.foldl
    (fun enums i =>
      match i with
      | .enum d => if enums.contains d.ident then enums else enums ++ [d.ident]
      | _ => enums)
    enums

def ofItems (items : List Item) : Enums := addItems [] items

end Enums

/-- What a unit gives: the fragments of the declarations that went well, and a report for each of
    the others. -/
structure Outcome where
  fragments : List String := []
  diagnostics : List Diagnostic := []
  deriving DecidableEq

namespace Outcome

def isOk (o : Outcome) : Bool := o.diagnostics.isEmpty

def complaint (o : Outcome) : Option String :=
  if o.isOk then none
  else
    some (toString o.diagnostics.length ++ " declaration(s) failed:\n" ++
      "\n".intercalate (o.diagnostics.map Diagnostic.text))

def ofItemsWith (r : Reader) (structs : Structs) (enums : Enums) :
    List Item → Except Error Outcome
  | [] => .ok {}
  | i :: items =>
    match i.fragments r structs enums with
    | .ok fragments => do
      let rest ← ofItemsWith r structs enums items
      return { rest with fragments := fragments ++ rest.fragments }
    | .error e =>
      if e.isReported then do
        let rest ← ofItemsWith r structs enums items
        return { rest with diagnostics := ⟨i.name, e⟩ :: rest.diagnostics }
      else .error e

/-- Emits the declarations of a unit, which all know its structs and enums. -/
def ofItems (r : Reader) (items : List Item) : Except Error Outcome :=
  ofItemsWith r (Structs.ofItems items) (Enums.ofItems items) items

end Outcome

namespace Program

def header : String := "// Transpiled by ferrojs"

/-- How a program is put together. -/
structure Style where
  /-- The helpers are included. -/
  preamble : Bool := true
  /-- The code is indented and has blank lines between its parts. -/
  pretty : Bool := false

def parts (fragments : List String) (style : Style) : List String :=
  header :: (if style.preamble then [preamble] else []) ++ fragments

def assemble (fragments : List String) (style : Style) : String :=
  let code := (if style.pretty then "\n\n" else "\n").intercalate (parts fragments style) ++ "\n"
  if style.pretty then Layout.indent "  " code else code

end Program

end RustScript
