/-
  Patterns.

  A refutable pattern becomes the tests that must hold of its subject, in order, and the names to
  bind once they do (`Pat.compile`). A pattern in a `let`, a parameter or a loop head becomes a
  destructuring binding (`destructure`).
-/
import RustScript.Emit.Context

namespace RustScript

/-- A name bound by a pattern, and the place whose value it gets. -/
structure Bound where
  name : String
  place : Js.Access
  isMutable : Bool

/-- What a pattern demands of its subject and what it binds. -/
structure Matcher where
  tests : List Js.Test := []
  bindings : List Bound := []

namespace Matcher

def isIrrefutable (m : Matcher) : Bool := m.tests.isEmpty

def append (m n : Matcher) : Matcher := ⟨m.tests ++ n.tests, m.bindings ++ n.bindings⟩

instance : Append Matcher := ⟨append⟩

def test (t : Js.Test) : Matcher := ⟨[t], []⟩

def shown (m : Matcher) : List (String × String × Bool) :=
  m.bindings.map fun b => (b.name, b.place.text, b.isMutable)

/-- A choice between patterns. One that always matches makes the choice match without binding
    anything; otherwise all have to bind the same values. -/
def oneOf (alternatives : List Matcher) : Except Error Matcher :=
  if alternatives.any isIrrefutable then .ok {}
  else
    match alternatives with
    | [] => .error (.fault .missingElement)
    | first :: others =>
      if others.all fun m => m.shown == first.shown then
        .ok ⟨[.oneOf (alternatives.map tests)], first.bindings⟩
      else .error (.refusal .unequalAlternatives)

end Matcher

/-- What is known of types: the type of the impl block and the structs. -/
structure KnownTypes where
  selfType : Option String
  structs : Structs

/-- The number of slots of the struct that a pattern names, none for an enum variant or an unknown
    name. -/
def KnownTypes.arity? (known : KnownTypes) (path : List String) (name : String) : Option Nat := do
  if Path.isVariant path then none
  else
    let struct ← if name == "Self" then known.selfType else some name
    return (← known.structs.lookup struct).length

/-- What a pattern's meaning depends on besides its subject. -/
structure Vocabulary extends KnownTypes where
  scopes : Scopes

def Path.last (path : List String) : Except Error String :=
  match path.getLast? with
  | some name => .ok name
  | none => .error (.fault .missingElement)

def LitPat.checked (p : LitPat) : Except Error LitPat :=
  if p.lit.isWritable then .ok p else .error (.fault .badNumber)

/-- The test that a bound of a range asks for. A bound that is missing asks for none. -/
def Matcher.bound (test : LitPat → Js.Test) : Option LitPat → Except Error Matcher
  | none => .ok {}
  | some p => do return .test (test (← p.checked))

/-- The slot after a rest mark in a tuple struct: what follows the mark fills the last slots. -/
def slotAfterRest (arity : Nat) (elems : List Pat) : Int :=
  (arity : Int) - ((elems.dropWhile fun p => !p.isRest).length - 1)

/-- The places of elements from an index on: `front` gives one by its index, and `back` gives one
    behind a rest mark by the number of elements from there to the end. -/
def spots (front back : Nat → Js.Access) (index : Nat) (pastRest : Bool) :
    List Pat → List Js.Access
  | [] => []
  | p :: ps =>
    (if pastRest then back (ps.length + 1) else front index) ::
      spots front back (index + 1) (pastRest || p.isRest) ps

/-- The places of elements by position; those behind a rest mark count from the end. -/
def elementSpots (place : Js.Access) (elems : List Pat) : List Js.Access :=
  spots (fun i => .slot place i) (.fromEnd place) 0 false elems

/-- The places of elements in consecutive cells; a rest mark moves on to the cell `afterRest`. -/
def cellSpots (place : Js.Access) (afterRest cell : Int) : List Pat → List Js.Access
  | [] => []
  | p :: ps =>
    .slot place cell :: cellSpots place afterRest (if p.isRest then afterRest else cell + 1) ps

/-- The places of the payload `value0`, `value1`, … of a variant. -/
def payloadSpots (place : Js.Access) (index : Nat) : List Pat → List Js.Access
  | [] => []
  | _ :: ps => .prop place ("value" ++ toString index) :: payloadSpots place (index + 1) ps

def sameSpots (place : Js.Access) (elems : List Pat) : List Js.Access := elems.map fun _ => place

/-- What the head of a tuple-struct pattern demands of the value at `place`, and the places of the
    elements. -/
def Vocabulary.layout (v : Vocabulary) (place : Js.Access) (path : List String) (name : String)
    (elems : List Pat) : List Js.Test × List Js.Access :=
  if name == "Some" then ([.notNull place], sameSpots place elems)
  else if name == "Ok" then ([.hasKey "ok" place], sameSpots (.prop place "ok") elems)
  else if name == "Err" then ([.hasKey "error" place], sameSpots (.prop place "error") elems)
  else
    match v.arity? path name with
    | some arity => ([], cellSpots place (slotAfterRest arity elems) 0 elems)
    | none => ([.equals (.prop place "type") (.word name)], payloadSpots place 0 elems)

namespace Pat

mutual

/-- What the pattern demands of the value at `place`, and what it binds. -/
def compile (v : Vocabulary) (place : Js.Access) : Pat → Except Error Matcher
  | wild => .ok {}
  | rest => .ok {}
  | ref p => p.compile v place
  | ident name isMutable _ (some sub) => do
    let m ← sub.compile v place
    return m ++ ⟨[], [⟨name, place, isMutable⟩]⟩
  | ident name isMutable _ none =>
    if name == "None" then .ok (.test (.isNull place))
    else if Name.isConstant name then
      .ok (.test (.equals place (.constant (v.scopes.resolve name))))
    else .ok ⟨[], [⟨name, place, isMutable⟩]⟩
  | lit p => do return .test (.equals place (.literal (← p.checked)))
  | range start stop inclusive => do
    let low ← Matcher.bound (.atLeast place) start
    let high ← Matcher.bound (if inclusive then .atMost place else .lessThan place) stop
    return low ++ high
  | tuple elems => compileAt v elems (elementSpots place elems)
  | slice elems => do
    let fixed := elems.filter fun p => !p.isRest
    let m ← compileAt v elems (elementSpots place elems)
    return .test (.length place (fixed.length == elems.length) fixed.length) ++ m
  | path segments => do
    let name ← Path.last segments
    if name == "None" then return .test (.isNull place)
    else if segments.length == 1 && Name.isConstant name then
      return .test (.equals place (.constant (v.scopes.resolve name)))
    else return .test (.equals place (.word name))
  | tupleStruct segments elems => do
    let (tests, places) := v.layout place segments (← Path.last segments) elems
    return ⟨tests, []⟩ ++ (← compileAt v elems places)
  | struct segments fields _ => do
    let m ← compileFields v place fields
    match Path.isVariant segments, segments.getLast? with
    | true, some name => return .test (.equals (.prop place "type") (.word name)) ++ m
    | _, _ => return m
  | alt alts => do Matcher.oneOf (← compileEach v place alts)
  | bare => .error (.refusal (.pattern (kind bare)))

def compileAt (v : Vocabulary) : List Pat → List Js.Access → Except Error Matcher
  | p :: ps, place :: places => do
    let m ← p.compile v place
    return m ++ (← compileAt v ps places)
  | _, _ => .ok {}

def compileEach (v : Vocabulary) (place : Js.Access) : List Pat → Except Error (List Matcher)
  | [] => .ok []
  | p :: ps => do
    let m ← p.compile v place
    return m :: (← compileEach v place ps)

def compileFields (v : Vocabulary) (place : Js.Access) : List FieldPat → Except Error Matcher
  | [] => .ok {}
  | ⟨name, p⟩ :: fs => do
    let m ← p.compile v (.prop place name)
    return m ++ (← compileFields v place fs)

end

def withoutFinalRests (elems : List Pat) : List Pat := (elems.reverse.dropWhile isRest).reverse

end Pat

namespace Emit

def matcher (pat : Pat) (subject : String) : Emit Matcher :=
  fun place state =>
    (pat.compile ⟨⟨place.selfType, place.structs⟩, state.scopes⟩ (.root subject), state)

def bindMatched : List Bound → Emit (List Js.Stmt)
  | [] => pure []
  | b :: bs => do
    let target ← declare b.name
    let stmt := Js.Stmt.declare (.of b.isMutable) (.name target) (some (.atom b.place.text))
    return stmt :: (← bindMatched bs)

mutual

/-- Declares the names of a pattern and gives the binding to write. A wildcard gives a hole. -/
def destructure : Pat → Emit Js.Binding
  | .ident name _ _ none => do return .name (← declare name)
  | .ident name _ _ (some _) => refuse (.bindingWithSub name)
  | .wild => pure .hole
  | .rest => pure .hole
  | .ref p => destructure p
  | .tuple elems =>
    if (Pat.withoutFinalRests elems).any Pat.isRest then refuse .restNotLast
    else do return .array (← destructureUpTo (Pat.withoutFinalRests elems).length elems)
  | .slice elems =>
    if (Pat.withoutFinalRests elems).any Pat.isRest then refuse .restNotLast
    else do return .array (← destructureUpTo (Pat.withoutFinalRests elems).length elems)
  | .tupleStruct path elems =>
    if Path.isVariant path then refuse (.refutable (Pat.tupleStruct path elems).kind)
    else do
      let name ← ofExcept (Path.last path)
      if ["Some", "Ok", "Err"].contains name then refuse (.refutableWrapper name)
      else return .slots (← destructureSlots 0 elems)
  | .struct path fields rest =>
    if Path.isVariant path then refuse (.refutable (Pat.struct path fields rest).kind)
    else do return .object (← destructureFields fields)
  | p => refuse (.refutable p.kind)

def destructureUpTo : Nat → List Pat → Emit (List Js.Binding)
  | 0, _ => pure []
  | _, [] => pure []
  | count + 1, p :: ps => do
    let b ← destructure p
    return b :: (← destructureUpTo count ps)

def destructureSlots (index : Nat) : List Pat → Emit (List (Nat × Js.Binding))
  | [] => pure []
  | p :: ps => do
    let b ← destructure p
    let bs ← destructureSlots (index + 1) ps
    return if b.text.isEmpty then bs else (index, b) :: bs

def destructureFields : List FieldPat → Emit (List (String × Js.Binding))
  | [] => pure []
  | ⟨name, p⟩ :: fs => do
    let b ← destructure p
    let bs ← destructureFields fs
    return if b.text.isEmpty then bs else (name, b) :: bs

end

/-- The binding, or a name of no use when it would be empty. -/
def orUnused (binding : Js.Binding) (name : String) : Js.Binding :=
  if binding.text.isEmpty then .name name else binding

/-- The bindings of parameters, of which plain names have their targets already. -/
def bindParams (index : Nat) : List Param → List String → Emit (List Js.Binding)
  | [], _ => pure []
  | param :: params, targets => do
    match param.pat.plainName?, targets with
    | some _, target :: targets => return .name target :: (← bindParams (index + 1) params targets)
    | _, _ =>
      let b ← destructure param.pat
      return orUnused b ("$unused" ++ toString index) :: (← bindParams (index + 1) params targets)

/-- Declares the parameters of a function: plain names first, then the names in patterns. -/
def params (params : List Param) : Emit (List Js.Binding) := do
  let targets ← seed (params.filterMap fun p => p.pat.plainName?)
  bindParams 0 params targets

end Emit

end RustScript
