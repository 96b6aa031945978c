/-
  Scopes: which JavaScript name each local of the source has.

  A JavaScript block cannot declare a name twice, and a closure between two bindings of one name
  would capture the wrong one. So each new binding whose name is live anywhere in the chain of
  scopes gets a suffix (`x_1`, `x_2`, …).
-/
import RustScript.Name

namespace RustScript

/-- One scope: the target of each name bound in it, newest first, and the targets it handed out. -/
structure Layer where
  bindings : List (String × String) := []
  taken : List String := []
  deriving DecidableEq, Repr

/-- The chain of scopes, of which the innermost always exists. -/
structure Scopes where
  inner : Layer := {}
  outer : List Layer := []
  renames : Nat := 0
  deriving DecidableEq, Repr

namespace Scopes

def layers (s : Scopes) : List Layer := s.inner :: s.outer

def push (s : Scopes) : Scopes := { s with inner := {}, outer := s.inner :: s.outer }

/-- Closes the innermost scope; the outermost one stays. -/
def pop? (s : Scopes) : Option Scopes :=
  match s.outer with
  | [] => none
  | l :: ls => some { s with inner := l, outer := ls }

/-- Closes the innermost scope if there is one around it. -/
def pop (s : Scopes) : Scopes := s.pop?.getD s

def taken (s : Scopes) : List String := s.layers.flatMap Layer.taken

def isLive (s : Scopes) (target : String) : Bool := s.taken.contains target

def suffixed (base : String) (n : Nat) : String := base ++ "_" ++ toString n

/-- The first of `base_n`, `base_(n+1)`, … that is not live. There are `tries` names to pass at
    most, so that the search ends. -/
def firstFree (s : Scopes) (base : String) (n : Nat) : (tries : Nat) → String
  | 0 => suffixed base n
  | tries + 1 =>
    if s.isLive (suffixed base n) then s.firstFree base (n + 1) tries else suffixed base n

def fresh (s : Scopes) (name : String) : String :=
  let base := Name.target name
  if s.isLive base then s.firstFree base 1 s.taken.length else base

/-- Hands out a target for `name` without making it visible yet. -/
def reserve (s : Scopes) (name : String) : String × Scopes :=
  let target := s.fresh name
  (target,
   { s with
     inner := { s.inner with taken := target :: s.inner.taken }
     renames := if target == Name.target name then s.renames else s.renames + 1 })

/-- Makes `target` what `name` stands for in the innermost scope. -/
def bind (s : Scopes) (name target : String) : Scopes :=
  { s with
    inner :=
      { bindings := (name, target) :: s.inner.bindings
        taken := target :: s.inner.taken } }

/-- Hands out a target for `name` and makes it visible. -/
def declare (s : Scopes) (name : String) : String × Scopes :=
  let (target, s) := s.reserve name
  (target, s.bind name target)

def seed (s : Scopes) : List String → List String × Scopes
  | [] => ([], s)
  | name :: names =>
    let (target, s) := s.declare name
    let (targets, s) := s.seed names
    (target :: targets, s)

/-- The target of `name` in the innermost layer that binds it. -/
def lookup (name : String) : List Layer → Option String
  | [] => none
  | l :: ls =>
    match l.bindings.lookup name with
    | some target => some target
    | none => lookup name ls

/-- What a reference to `name` means; a free name keeps its own. -/
def resolve (s : Scopes) (name : String) : String := (lookup name s.layers).getD (Name.target name)

end Scopes

end RustScript
