/-
  Fragments collected over time.

  Single declarations are made known before they are emitted, so they are known even if that fails.
  A whole source text is taken in completely or not at all.
-/
import RustScript.Program.Assemble
import RustScript.Source.Parse
import RustScript.Text.Margin

namespace RustScript

/-- Fragments and what is known of declarations. -/
structure Registry where
  fragments : List String := []
  structs : Structs := []
  enums : Enums := []

namespace Registry

def size (g : Registry) : Nat := g.fragments.length

/-- Makes the structs and enums among declarations known. -/
def learn (g : Registry) (items : List Item) : Registry :=
  { g with structs := g.structs.addItems items, enums := Enums.addItems g.enums items }

def append (g : Registry) (fragments : List String) : Registry :=
  { g with fragments := g.fragments ++ fragments }

/-- The fragments of declarations that know what the registry knows. -/
def emit (g : Registry) (r : Reader) : List Item → Except Error (List String)
  | [] => .ok []
  | i :: items => do
    let fragments ← i.fragments r g.structs g.enums
    return fragments ++ (← g.emit r items)

/-- Registers a declaration: its fragments or an error, and the registry afterwards. -/
def register (g : Registry) (r : Reader) (i : Item) : Except Error (List String) × Registry :=
  let known := g.learn [i]
  match i.fragments r known.structs known.enums with
  | .ok fragments => (.ok fragments, known.append fragments)
  | .error e => (.error e, known)

/-- Registers all declarations that are read from a text. -/
def registerSource (g : Registry) (text : String) (r : Reader := Source.reader)
    (read : String → Except Error (List Item) := Source.readItems) :
    Except Error (List String) × Registry :=
  match read text with
  | .error e => (.error e, g)
  | .ok items =>
    let known := g.learn items
    match known.emit r items with
    | .ok fragments => (.ok fragments, known.append fragments)
    | .error e => (.error e, g)

/-- Registers the source text in the documentation of something with a name. -/
def registerDocumented (g : Registry) (name : String) (doc : Option String) :
    Except Error (List String) × Registry :=
  let text := Text.unindent (doc.getD "")
  if text.isEmpty then (.error (.mistake (.undocumented name)), g) else g.registerSource text

def assemble (g : Registry) (style : Program.Style) : String := Program.assemble g.fragments style

end Registry

end RustScript
