/-
  The setting in which code is emitted.

  `Place` says what the code belongs to and never changes. `State` is what emission works on. It
  outlives errors, and every bracket (`inScope`, `inFunction`, `inTarget`, `asValue`) takes back
  what it opened on the way out, with or without one.
-/
import RustScript.Error
import RustScript.Js.Print
import RustScript.Scope
import RustScript.Syntax.Tree

namespace RustScript

abbrev Structs := List (String × List String)

/-- What a jump can leave: a loop or a labelled block, and where its value goes. -/
structure JumpTarget where
  label : Option String
  tail : Option Js.Tail
  isBlock : Bool := false

/-- What the code being emitted belongs to. -/
structure Place where
  selfType : Option String := none
  /-- No receiver is at hand. -/
  isStatic : Bool := false
  structs : Structs := []

/-- What is known of a function while its body is emitted. -/
structure Frame where
  isAsync : Bool := false
  usesTry : Bool := false
  /-- The number of blocks around the code that are used as values. -/
  valueDepth : Nat := 0
  deriving DecidableEq

/-- What emission works on and leaves behind. -/
structure State where
  scopes : Scopes := {}
  /-- The temporaries that have been drawn, the latest first. -/
  drawn : List String := []
  /-- The frame of the current function. There is one outside of functions too. -/
  frame : Frame := {}
  /-- The frames around it, innermost first. -/
  callers : List Frame := []
  /-- The jump targets in reach, innermost first. -/
  targets : List JumpTarget := []

namespace State

/-- How many temporaries have been drawn, and the number of the next one. -/
def temps (s : State) : Nat := s.drawn.length

def enterFunction (s : State) (isAsync : Bool) : State :=
  { s with frame := { isAsync }, callers := s.frame :: s.callers, targets := [] }

def leaveFunction (s : State) (targets : List JumpTarget) : State :=
  match s.callers with
  | [] => { s with targets }
  | frame :: callers => { s with frame, callers, targets }

def enterValue (s : State) : State :=
  { s with frame := { s.frame with valueDepth := s.frame.valueDepth + 1 }, targets := [] }

def leaveValue (s : State) (targets : List JumpTarget) : State :=
  { s with frame := { s.frame with valueDepth := s.frame.valueDepth - 1 }, targets }

def enterTarget (s : State) (target : JumpTarget) : State :=
  { s with targets := target :: s.targets }

def leaveTarget (s : State) : State := { s with targets := s.targets.tail }

end State

/-- Emission: it sees its place, may fail, and leaves a state behind in either case. -/
abbrev Emit := ReaderT Place (ExceptT Error (StateM State))

namespace Emit

def ofExcept {α : Type} (result : Except Error α) : Emit α := fun _ state => (result, state)

def refuse {α : Type} (cause : Refusal) : Emit α := throw (.refusal cause)

def temporary (stem : String) (n : Nat) : String := "$" ++ stem ++ toString n

/-- Draws a name that no source name and no other temporary has. -/
def fresh (stem : String) : Emit String :=
  fun _ state =>
    let name := temporary stem state.temps
    (.ok name, { state with drawn := name :: state.drawn })

def declare (name : String) : Emit String :=
  fun _ state =>
    let (target, scopes) := state.scopes.declare name
    (.ok target, { state with scopes })

def seed (names : List String) : Emit (List String) :=
  fun _ state =>
    let (targets, scopes) := state.scopes.seed names
    (.ok targets, { state with scopes })

/-- Hands out a target for a name that is not visible yet. -/
def reserve (name : String) : Emit String :=
  fun _ state =>
    let (target, scopes) := state.scopes.reserve name
    (.ok target, { state with scopes })

def bindName (name target : String) : Emit Unit :=
  fun _ state => (.ok (), { state with scopes := state.scopes.bind name target })

def inScope {α : Type} (body : Emit α) : Emit α :=
  fun place state =>
    let (result, after) := body place { state with scopes := state.scopes.push }
    (result, { after with scopes := after.scopes.pop })

/-- Runs as the body of a function, and tells whether it uses `?`. -/
def inFunction {α : Type} (isAsync : Bool) (body : Emit α) : Emit (α × Bool) :=
  fun place state =>
    let (result, after) := body place (state.enterFunction isAsync)
    (result.map fun value => (value, after.frame.usesTry), after.leaveFunction state.targets)

def inTarget {α : Type} (target : JumpTarget) (body : Emit α) : Emit α :=
  fun place state =>
    let (result, after) := body place (state.enterTarget target)
    (result, after.leaveTarget)

/-- Statements as a value: an arrow function that is called at once, and awaited in an asynchronous
    function. -/
def calledArrow (isAsync : Bool) (lines : List Js.Stmt) : Js.Expr :=
  let run := Js.Expr.call (.paren (.arrowBlock .value isAsync [] lines)) []
  if isAsync then .await run else run

def asValue (body : Emit (List Js.Stmt)) : Emit Js.Expr :=
  fun place state =>
    let (result, after) := body place state.enterValue
    (result.map (calledArrow state.frame.isAsync), after.leaveValue state.targets)

def ident (name : String) : Emit String :=
  fun place state =>
    let result :=
      match name with
      | "self" => if place.isStatic then .error (.mistake .selfWithoutReceiver) else .ok "this"
      | "Self" =>
        match place.selfType with
        | some type => .ok type
        | none => .error (.mistake .selfTypeOutsideImpl)
      | "None" => .ok "null"
      | _ => .ok (state.scopes.resolve name)
    (result, state)

/-- The code of a type's name: all but `Self` keep theirs. -/
def typeName (name : String) : Emit String := if name == "Self" then ident "Self" else pure name

end Emit

/-- The JavaScript label for a label of the source, which has a quote in front. -/
def labelName (label : String) : String :=
  Name.target (String.ofList (label.toList.dropWhile (· == '\'')))

/-- The label of a loop or a jump; an empty one counts as none. -/
def labelName? (label : Option String) : Option String :=
  match label with
  | none => none
  | some label => if label.isEmpty then none else some (labelName label)

end RustScript
