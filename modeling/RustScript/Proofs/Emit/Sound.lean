/-
  Trees and macro calls that cannot lead to a fault.

  What is sound is checked wherever it could be emitted, and in macro calls down to the depth up to
  which they nest (`Reader.isSoundWithin`). The checks made on the way then fail with reported
  errors only.
-/
import RustScript.Emit.Reader
import RustScript.Proofs.Emit.Conduct

namespace RustScript

/-! ## Sound patterns -/

namespace Pat

def isSoundBound : Option LitPat → Bool
  | none => true
  | some p => p.lit.isWritable

mutual

/-- The pattern cannot lead to a fault. -/
def isSound : Pat → Bool
  | wild | rest | bare => true
  | ident _ _ _ none => true
  | ident _ _ _ (some sub) => sub.isSound
  | ref p => p.isSound
  | lit p => p.lit.isWritable
  | range start stop _ => isSoundBound start && isSoundBound stop
  | tuple elems | slice elems => allSound elems
  | path segments => !segments.isEmpty
  | tupleStruct segments elems => !segments.isEmpty && allSound elems
  | struct _ fields _ => allFieldsSound fields
  | alt alts => !alts.isEmpty && allSound alts

def allSound : List Pat → Bool
  | [] => true
  | p :: ps => p.isSound && allSound ps

def allFieldsSound : List FieldPat → Bool
  | [] => true
  | ⟨_, p⟩ :: fs => p.isSound && allFieldsSound fs

end

end Pat

/-! ## Sound trees -/

/-- A path that is called has an owner; whatever else is called can be emitted on its own. -/
def Expr.isCallable : Expr → Bool
  | .path segments => (Path.lastTwo? segments).isSome
  | _ => true

section

variable (call : MacroCall → Bool)

mutual

/-- The expression cannot lead to a fault, provided that the macro calls that `call` accepts
    cannot. -/
def Expr.isSound : Expr → Bool
  | .ident _ | .cont _ | .bare => true
  | .lit value => value.isWritable
  | .path segments => !segments.isEmpty
  | .mac m => call m
  | .paren e | .unary _ e | .field e _ | .ref e _ | .deref e | .cast e _ | .tryOp e | .await e =>
    e.isSound
  | .binary _ l r | .assign l r _ | .index l r | .arrayRepeat l r => l.isSound && r.isSound
  | .call func args => func.isCallable && func.isSound && Expr.allSound args
  | .methodCall receiver _ args => receiver.isSound && Expr.allSound args
  | .structLit segments fields base =>
    !segments.isEmpty && FieldInit.allSound fields && Expr.optionSound base
  | .arrayLit elems | .tupleLit elems => Expr.allSound elems
  | .closure params body _ => (params.all fun p => p.pat.isSound) && body.isSound
  | .block stmts _ _ | .loop stmts _ => Stmt.allSound stmts
  | .ifElse cond stmts orelse => cond.isSound && Stmt.allSound stmts && Expr.optionSound orelse
  | .ifLet pat value stmts orelse =>
    pat.isSound && value.isSound && Stmt.allSound stmts && Expr.optionSound orelse
  | .whileLoop cond stmts _ => cond.isSound && Stmt.allSound stmts
  | .whileLet pat value stmts _ | .forLoop pat value stmts _ =>
    pat.isSound && value.isSound && Stmt.allSound stmts
  | .matchOn subject arms => subject.isSound && Arm.allSound arms
  | .ret value | .brk _ value => Expr.optionSound value
  | .range start stop _ => Expr.optionSound start && Expr.optionSound stop

def Expr.allSound : List Expr → Bool
  | [] => true
  | e :: es => e.isSound && Expr.allSound es

def Expr.optionSound : Option Expr → Bool
  | none => true
  | some e => e.isSound

def FieldInit.allSound : List FieldInit → Bool
  | [] => true
  | ⟨_, value⟩ :: fields => value.isSound && FieldInit.allSound fields

def Arm.allSound : List Arm → Bool
  | [] => true
  | ⟨pat, body, guard⟩ :: arms =>
    pat.isSound && body.isSound && Expr.optionSound guard && Arm.allSound arms

def Stmt.isSound : Stmt → Bool
  | .letIn pat (some init) _ (some orelse) => pat.isSound && init.isSound && Stmt.allSound orelse
  | .letIn _ none _ (some _) => false
  | .letIn pat init _ none => pat.isSound && Expr.optionSound init
  | .expr e _ => e.isSound
  | .mac m _ => call m
  | .item (.fn decl) => decl.isSound
  | .item (.const ⟨_, value, _, _⟩) => value.isSound
  | .item _ | .bare => true

def Stmt.allSound : List Stmt → Bool
  | [] => true
  | s :: ss => s.isSound && Stmt.allSound ss

def FnDecl.isSound : FnDecl → Bool
  | ⟨_, params, body, _, _, _⟩ => (params.all fun p => p.pat.isSound) && Stmt.allSound body

end

def Item.isSound : Item → Bool
  | .fn decl => decl.isSound call
  | .impl decl => decl.fns.all fun fn => fn.isSound call
  | .const decl => decl.value.isSound call
  | _ => true

end

/-! ## Sound macro calls -/

namespace Macro

section

variable (arg : String → Bool)

/-- The value of an argument of a format, without its name. -/
def argumentText (part : String) : String :=
  match namedArgument? part with
  | some (_, value) => value
  | none => part

/-- Whether the number in a placeholder can be read. -/
def isSoundPiece : Template.Piece → Bool
  | .text _ => true
  | .slot p =>
    if p.key.isEmpty then true
    else if p.key.toList.all Text.isDigit then (Reading.natural? p.key.toList).isSome
    else arg p.key

/-- Whether the template of a format can be read and its arguments are sound. -/
def isSoundFormat (tokens : String) : Bool :=
  match Arguments.split tokens ',' with
  | .ok (first :: parts) =>
    match Literal.decode first with
    | .ok template =>
      (parts.all fun part => arg (argumentText part)) &&
        match Template.pieces template with
        | .ok pieces => pieces.all (isSoundPiece arg)
        | .error _ => true
    | .error e => e.isReported
  | _ => true

/-- Whether the operands and the message of an assertion are sound. -/
def isSoundAssertion (count : Nat) (tokens : String) : Bool :=
  match Arguments.split tokens ',' with
  | .ok parts => (parts.take count).all arg && isSoundFormat arg (Js.commas (parts.drop count))
  | .error _ => true

/-- Whether the elements of a vector are sound. -/
def isSoundVector (tokens : String) : Bool :=
  match Arguments.split tokens ';' with
  | .ok [value, count] => arg value && arg count
  | _ =>
    match Arguments.split tokens ',' with
    | .ok parts => parts.all arg
    | .error _ => true

/-- Whether the tokens of a call of the macro are sound. -/
def isSoundFor (name tokens : String) : Bool :=
  if name == "vec" then isSoundVector arg tokens
  else if name == "assert" || name == "debug_assert" then isSoundAssertion arg 1 tokens
  else if name == "assert_eq" || name == "assert_ne" then isSoundAssertion arg 2 tokens
  else if (expanders.lookup name).isSome then isSoundFormat arg tokens
  else true

/-- The call cannot lead to a fault, provided that the arguments that `arg` accepts cannot. -/
def isSound (m : MacroCall) : Bool := isSoundFor arg m.baseName m.tokens

end

end Macro

namespace Reader

/-- The macro call is sound, and calls in it nest up to the depth given. -/
def isSoundWithin (r : Reader) : (depth : Nat) → MacroCall → Bool
  | 0, _ => false
  | depth + 1, m =>
    Macro.isSound (fun text =>
      match r.read text with
      | .ok e => e.isSound (r.isSoundWithin depth)
      | .error e => e.isReported) m

def isSound (r : Reader) (m : MacroCall) : Bool := r.isSoundWithin (r.depth m.tokens) m

end Reader

/-! ## Checks on patterns -/

section

variable {faults : Prop}

theorem Path.fails_last {path : List String} (h : faults ∨ (!path.isEmpty) = true) :
    Fails faults (Path.last path) := by
  cases path with
  | nil => exact .error (h.imp_right nofun)
  | cons name names =>
    simp only [Path.last, List.getLast?_cons]
    exact .ok _

theorem LitPat.fails_checked {p : LitPat} (h : faults ∨ p.lit.isWritable = true) :
    Fails faults p.checked := by
  unfold LitPat.checked
  split
  · exact .ok _
  · next hwritable => exact .error (h.imp_right fun h => absurd h hwritable)

theorem Matcher.fails_bound {bound : Option LitPat} (h : faults ∨ Pat.isSoundBound bound = true)
    (test : LitPat → Js.Test) : Fails faults (Matcher.bound test bound) := by
  cases bound with
  | none => exact .ok _
  | some p => exact (LitPat.fails_checked h).andReturn _

theorem Matcher.fails_oneOf {alternatives : List Matcher} (h : faults ∨ alternatives ≠ []) :
    Fails faults (Matcher.oneOf alternatives) := by
  unfold Matcher.oneOf
  split
  · exact .ok _
  · cases alternatives with
    | nil => exact .error (h.imp_right fun h => absurd rfl h)
    | cons first others =>
      dsimp only
      split
      · exact .ok _
      · exact .error (.inr rfl)

namespace Pat

variable {v : Vocabulary}

theorem compileEach_ne_nil {place : Js.Access} {ps : List Pat} {ms : List Matcher}
    (h : compileEach v place ps = .ok ms) (hps : (!ps.isEmpty) = true) : ms ≠ [] := by
  cases ps with
  | nil => cases hps
  | cons p ps =>
    rw [compileEach] at h
    revert h
    rcases p.compile v place with _ | m <;> rcases compileEach v place ps with _ | ms' <;>
      simp +contextual [bind, Except.bind, pure, Except.pure, eq_comm]

mutual

theorem fails_compile {place : Js.Access} : ∀ p : Pat, (faults ∨ p.isSound = true) →
    Fails faults (p.compile v place)
  | wild, _ | rest, _ => by
    rw [compile]
    exact .ok _
  | bare, _ => by
    rw [compile]
    exact .error (.inr rfl)
  | ref p, h => by
    rw [isSound] at h
    rw [compile]
    exact fails_compile p h
  | ident name isMutable byRef (some sub), h => by
    rw [isSound] at h
    rw [compile]
    exact (fails_compile sub h).andReturn _
  | ident name isMutable byRef none, h => by
    rw [compile]
    split
    · exact .ok _
    · split
      · exact .ok _
      · exact .ok _
  | lit p, h => by
    rw [isSound] at h
    rw [compile]
    exact (LitPat.fails_checked h).andReturn _
  | range start stop inclusive, h => by
    simp only [isSound, sound_and] at h
    rw [compile]
    exact (Matcher.fails_bound h.1 _).bind fun _ _ => (Matcher.fails_bound h.2 _).andReturn _
  | tuple elems, h => by
    rw [isSound] at h
    rw [compile]
    exact fails_compileAt elems _ h
  | slice elems, h => by
    rw [isSound] at h
    rw [compile]
    exact (fails_compileAt elems _ h).andReturn _
  | path segments, h => by
    rw [isSound] at h
    rw [compile]
    refine (Path.fails_last h).bind fun name _ => ?_
    split
    · exact .ok _
    · split
      · exact .ok _
      · exact .ok _
  | tupleStruct segments elems, h => by
    simp only [isSound, sound_and] at h
    rw [compile]
    exact (Path.fails_last h.1).bind fun name _ => (fails_compileAt elems _ h.2).andReturn _
  | struct segments fields _, h => by
    rw [isSound] at h
    rw [compile]
    refine (fails_compileFields fields h).bind fun m _ => ?_
    split
    · exact .ok _
    · exact .ok _
  | alt alts, h => by
    simp only [isSound, sound_and] at h
    rw [compile]
    refine (fails_compileEach alts h.2).bind fun ms hms => ?_
    exact Matcher.fails_oneOf (h.1.imp_right (compileEach_ne_nil hms))

theorem fails_compileAt : ∀ (ps : List Pat) (places : List Js.Access),
    (faults ∨ allSound ps = true) → Fails faults (compileAt v ps places)
  | [], _, _ => by
    rw [compileAt]
    · exact .ok _
    · simp
  | _ :: _, [], _ => by
    rw [compileAt]
    · exact .ok _
    · simp
  | p :: ps, place :: places, h => by
    simp only [allSound, sound_and] at h
    rw [compileAt]
    exact (fails_compile p h.1).bind fun _ _ => (fails_compileAt ps places h.2).andReturn _

theorem fails_compileEach {place : Js.Access} : ∀ ps : List Pat,
    (faults ∨ allSound ps = true) → Fails faults (compileEach v place ps)
  | [], _ => by
    rw [compileEach]
    exact .ok _
  | p :: ps, h => by
    simp only [allSound, sound_and] at h
    rw [compileEach]
    exact (fails_compile p h.1).bind fun _ _ => (fails_compileEach ps h.2).andReturn _

theorem fails_compileFields {place : Js.Access} : ∀ fs : List FieldPat,
    (faults ∨ allFieldsSound fs = true) → Fails faults (compileFields v place fs)
  | [], _ => by
    rw [compileFields]
    exact .ok _
  | ⟨name, p⟩ :: fs, h => by
    simp only [allFieldsSound, sound_and] at h
    rw [compileFields]
    exact (fails_compile p h.1).bind fun _ _ => (fails_compileFields fs h.2).andReturn _

end

end Pat

/-! ## Checks on the text of macro calls -/

namespace Arguments

theorem fails_literalLength (tokens : String) (previous : Option Char) (c : Char)
    (cs : List Char) : Fails faults (literalLength tokens previous c cs) := by
  unfold literalLength stringLength rawLength
  split
  · split
    · exact .ok _
    · exact .error (.inr rfl)
  · split
    · dsimp only
      split
      · exact .ok _
      · exact .error (.inr rfl)
    · split
      · exact .ok _
      · exact .ok _

theorem fails_step (tokens : String) (sep : Char) (p : Progress) (c : Char) :
    Fails faults (p.step tokens sep c) := by
  unfold Progress.step
  split
  · exact .ok _
  · split
    · split
      · split
        · exact .ok _
        · exact .error (.inr rfl)
      · exact .error (.inr rfl)
    · split
      · exact .ok _
      · exact .ok _

theorem fails_scan (tokens : String) (sep : Char) (skip : Nat) (previous : Option Char)
    (p : Progress) (cs : List Char) : Fails faults (scan tokens sep skip previous p cs) := by
  induction cs generalizing skip previous p with
  | nil =>
    rw [scan]
    exact .ok _
  | cons c cs ih =>
    cases skip with
    | succ skip =>
      rw [scan]
      exact ih _ _ _
    | zero =>
      rw [scan]
      refine (fails_literalLength tokens previous c cs).bind fun n _ => ?_
      cases n with
      | zero => exact (fails_step tokens sep p c).bind fun _ _ => ih _ _ _
      | succ n => exact ih _ _ _

theorem fails_split (tokens : String) (sep : Char) : Fails faults (split tokens sep) := by
  refine (fails_scan _ _ _ _ _ _).bind fun p _ => ?_
  split
  · exact .error (.inr rfl)
  · exact .ok _

end Arguments

namespace Template

theorem fails_piecesFrom (template : String) (skip : Nat) (buffer cs : List Char) :
    Fails faults (piecesFrom template skip buffer cs) := by
  induction cs generalizing skip buffer with
  | nil =>
    rw [piecesFrom]
    exact .ok _
  | cons c cs ih =>
    cases skip with
    | succ skip =>
      rw [piecesFrom]
      exact ih _ _
    | zero =>
      rw [piecesFrom]
      split
      · split
        · exact ih _ _
        · split
          · exact (ih _ _).andReturn _
          · exact .error (.inr rfl)
      · split
        · split
          · exact ih _ _
          · exact .error (.inr rfl)
        · exact ih _ _

theorem fails_pieces (template : String) : Fails faults (pieces template) :=
  fails_piecesFrom _ _ _ _

end Template

end

end RustScript
