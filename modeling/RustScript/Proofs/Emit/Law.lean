/-
  What a tree says before it is emitted.

  A law asks something of the names and types in a tree and of where something is awaited in it
  (`isLawful`), and `tries` says whether a `?` stands in what is emitted as part of the function
  around it. A macro call holds text instead of a tree: what is asked of a call is asked of what is
  read out of it.
-/
import RustScript.Proofs.Emit.Sound
import RustScript.Proofs.Pattern.Arms

namespace RustScript

/-! ## Laws -/

/-- Where an expression stands, with regard to what can be awaited there. -/
inductive Mode where
  | sync
  | async
  /-- In an asynchronous function of the source, but in a part that a function which is not
      asynchronous is emitted around. -/
  | helper
  deriving DecidableEq

namespace Mode

/-- The mode of the body of a function. -/
def body (isAsync : Bool) : Mode := if isAsync then async else sync

/-- The mode inside a function that only helps the code around it and is not asynchronous. -/
def inHelper : Mode → Mode
  | sync => sync
  | async | helper => helper

def isAsync : Mode → Bool
  | sync => false
  | async | helper => true

@[simp] theorem isAsync_inHelper (mode : Mode) : mode.inHelper.isAsync = mode.isAsync := by
  cases mode <;> rfl

@[simp] theorem isAsync_body (isAsync : Bool) : (body isAsync).isAsync = isAsync := by
  cases isAsync <;> rfl

end Mode

/-- What is asked of a tree. -/
structure Law where
  name : String → Bool := fun _ => true
  label : String → Bool := fun _ => true
  jump : String → Bool := fun _ => true
  cast : String → Bool := fun _ => true
  /-- The summands of a sum, of which texts that are spelled out are given. -/
  sum : List (Option String) → Bool := fun _ => true
  /-- Modes in which something is awaited. -/
  await : Mode → Bool := fun _ => true
  /-- Modes in which statements are used as a value. -/
  control : Mode → Bool := fun _ => true
  /-- Types whose literals are filled in by a function of their own. -/
  own : String → Bool := fun _ => true

/-- The summands of a sum, flattened: the texts that are spelled out, and nothing for the rest. -/
def Expr.summands : Expr → List (Option String)
  | .binary op l r => if op == "+" then l.summands ++ r.summands else [none]
  | .lit value => [value.text?]
  | .ref e _ => [e.text?]
  | .deref e => [e.text?]
  | _ => [none]

section

variable (law : Law)

namespace Pat

mutual

def isLawful : Pat → Bool
  | wild | rest | bare | lit _ | range .. => true
  | ident name _ _ none => law.name name
  | ident name _ _ (some sub) => law.name name && sub.isLawful
  | ref p => p.isLawful
  | tuple elems | slice elems | alt elems => allLawful elems
  | path segments => segments.all law.name
  | tupleStruct segments elems => segments.all law.name && allLawful elems
  | struct segments fields _ => segments.all law.name && allFieldsLawful fields

def allLawful : List Pat → Bool
  | [] => true
  | p :: ps => p.isLawful && allLawful ps

def allFieldsLawful : List FieldPat → Bool
  | [] => true
  | ⟨name, p⟩ :: fs => law.name name && p.isLawful && allFieldsLawful fs

end

end Pat

variable (call : Mode → MacroCall → Bool)

/-- Whether a literal of the type of the impl block is filled in by a function around its fields. -/
def Law.fillsIn {α : Type} (segments : List String) (base : Option α) : Bool :=
  base.isNone && !Path.isVariant segments && segments.getLast?.any law.own

/-- Whether the expression is a range with both ends. -/
def Expr.isBounded : Expr → Bool
  | .paren e => e.isBounded
  | .range start stop _ => start.isSome && stop.isSome
  | _ => false

/-- A loop over the expression counts from one bound to the other and never builds the range. -/
def Expr.isCounted (pat : Pat) : Expr → Bool
  | .range start stop _ => Emit.isCounter pat && start.isSome && stop.isSome
  | .methodCall receiver method [] => Emit.isCounter pat && method == "rev" && receiver.isBounded
  | _ => false

mutual

/-- The names and texts in the expression are lawful in the mode that it stands in, and so are the
    macro calls. -/
def Expr.isLawful (mode : Mode) : Expr → Bool
  | .lit _ | .bare => true
  | .ident name => law.name name
  | .path segments => segments.all law.name
  | .mac m => call mode m
  | .paren e | .unary _ e | .ref e _ | .deref e | .tryOp e => e.isLawful mode
  | .await e => law.await mode && e.isLawful mode
  | .field e name => law.name name && e.isLawful mode
  | .cast e ty => law.cast ty && e.isLawful mode
  | .binary op l r => law.sum (Expr.binary op l r).summands && l.isLawful mode && r.isLawful mode
  | .assign l r _ => l.isLawful mode && r.isLawful mode
  | .index e (.range start stop _) =>
    e.isLawful mode && Expr.optionLawful mode start && Expr.optionLawful mode stop
  | .index e i => e.isLawful mode && i.isLawful mode
  | .arrayRepeat value count => value.isLawful mode.inHelper && count.isLawful mode
  | .call func args => func.isLawful mode && Expr.allLawful mode args
  | .methodCall receiver method args =>
    law.name method && receiver.isLawful mode && Expr.allLawful mode args
  | .structLit segments fields base =>
    segments.all law.name &&
      FieldInit.allLawful (if law.fillsIn segments base then mode.inHelper else mode) fields &&
      Expr.optionLawful mode base
  | .arrayLit elems | .tupleLit elems => Expr.allLawful mode elems
  | .closure params body isAsync =>
    (params.all fun p => p.pat.isLawful law) && body.isLawful (.body isAsync)
  | .block stmts isAsync label =>
    label.all law.label &&
      if isAsync then Stmt.allLawful .async stmts else law.control mode && Stmt.allLawful mode stmts
  | .loop stmts label => law.control mode && label.all law.label && Stmt.allLawful mode stmts
  | .ifElse cond stmts orelse =>
    (law.control mode || (Expr.hasValue stmts && Expr.elseHasValue orelse)) &&
      cond.isLawful mode && Stmt.allLawful mode stmts && Expr.elseLawful mode orelse
  | .ifLet pat value stmts orelse =>
    law.control mode && pat.isLawful law && value.isLawful mode && Stmt.allLawful mode stmts &&
      Expr.elseLawful mode orelse
  | .whileLoop cond stmts label =>
    law.control mode && label.all law.label && cond.isLawful mode && Stmt.allLawful mode stmts
  | .whileLet pat value stmts label =>
    law.control mode && label.all law.label && pat.isLawful law && value.isLawful mode &&
      Stmt.allLawful mode stmts
  | .forLoop pat iter stmts label =>
    law.control mode && label.all law.label && pat.isLawful law &&
      (if iter.isCounted pat then iter.boundsLawful mode else iter.isLawful mode) &&
      Stmt.allLawful mode stmts
  | .matchOn subject arms => law.control mode && subject.isLawful mode && Arm.allLawful mode arms
  | .ret value => Expr.optionLawful mode value
  | .brk label value => label.all law.jump && Expr.optionLawful mode value
  | .cont label => label.all law.jump
  | .range start stop _ => Expr.optionLawful mode.inHelper start && Expr.optionLawful mode stop

/-- What the law asks of the ends of a range that is looped over. -/
def Expr.boundsLawful (mode : Mode) : Expr → Bool
  | .range start stop _ => Expr.optionLawful mode start && Expr.optionLawful mode stop
  | .paren e | .methodCall e _ _ => e.boundsLawful mode
  | _ => true

/-- `Expr.isLawful` for what an `else` leads to; a block there is not used as a value itself. -/
def Expr.elseLawful (mode : Mode) : Option Expr → Bool
  | none => true
  | some (.block stmts false _) => Stmt.allLawful mode stmts
  | some e => e.isLawful mode

def Expr.allLawful (mode : Mode) : List Expr → Bool
  | [] => true
  | e :: es => e.isLawful mode && Expr.allLawful mode es

def Expr.optionLawful (mode : Mode) : Option Expr → Bool
  | none => true
  | some e => e.isLawful mode

def FieldInit.allLawful (mode : Mode) : List FieldInit → Bool
  | [] => true
  | ⟨name, value⟩ :: fields =>
    law.name name && value.isLawful mode && FieldInit.allLawful mode fields

def Arm.allLawful (mode : Mode) : List Arm → Bool
  | [] => true
  | ⟨pat, body, guard⟩ :: arms =>
    pat.isLawful law && body.isLawful mode && Expr.optionLawful mode guard &&
      Arm.allLawful mode arms

def Stmt.isLawful (mode : Mode) : Stmt → Bool
  | .letIn pat (some init) _ (some orelse) =>
    pat.isLawful law && init.isLawful mode && Stmt.allLawful mode orelse
  | .letIn _ none _ (some _) => true
  | .letIn pat init _ none => pat.isLawful law && Expr.optionLawful mode init
  | .expr e _ => e.isLawful mode
  | .mac m _ => call mode m
  | .item (.fn decl) => decl.isLawful
  | .item (.const ⟨ident, value, _, _⟩) => law.name ident && value.isLawful mode
  | .item _ | .bare => true

def Stmt.allLawful (mode : Mode) : List Stmt → Bool
  | [] => true
  | s :: ss => s.isLawful mode && Stmt.allLawful mode ss

def FnDecl.isLawful : FnDecl → Bool
  | ⟨ident, params, body, _, _, isAsync⟩ =>
    law.name ident && (params.all fun p => p.pat.isLawful law) &&
      Stmt.allLawful (.body isAsync) body

end

end

/-! ## Patterns that always fit -/

namespace Pat

mutual

/-- Every value fits the pattern, as far as can be seen from it. -/
def alwaysFits (known : KnownTypes) : Pat → Bool
  | wild | rest => true
  | ref p => p.alwaysFits known
  | ident _ _ _ (some sub) => sub.alwaysFits known
  | ident name _ _ none => name != "None" && !Name.isConstant name
  | range start stop _ => start.isNone && stop.isNone
  | tuple elems => allFit known elems
  | tupleStruct segments elems =>
    match segments.getLast? with
    | some name =>
      !(["Some", "Ok", "Err"].contains name) && (known.arity? segments name).isSome &&
        allFit known elems
    | none => false
  | struct segments fields _ => !Path.isVariant segments && allFieldsFit known fields
  | alt alts => anyFits known alts
  | lit _ | slice _ | path _ | bare => false

def allFit (known : KnownTypes) : List Pat → Bool
  | [] => true
  | p :: ps => p.alwaysFits known && allFit known ps

/-- Whether one of the patterns takes every value. -/
def anyFits (known : KnownTypes) : List Pat → Bool
  | [] => false
  | p :: ps => p.alwaysFits known || anyFits known ps

def allFieldsFit (known : KnownTypes) : List FieldPat → Bool
  | [] => true
  | ⟨_, p⟩ :: fs => p.alwaysFits known && allFieldsFit known fs

end

variable {v : Vocabulary} {m : Matcher} {ms : List Matcher}

theorem isEmpty_layout (place : Js.Access) (path : List String) (name : String)
    (elems : List Pat) : (v.layout place path name elems).1.isEmpty =
      (!(["Some", "Ok", "Err"].contains name) && (v.arity? path name).isSome) := by
  unfold Vocabulary.layout
  by_cases hsome : name = "Some"
  · simp [hsome]
  by_cases hok : name = "Ok"
  · simp [hok]
  by_cases herr : name = "Err"
  · simp [herr]
  cases harity : v.arity? path name with
  | none => simp [hsome, hok, herr]
  | some arity => simp [hsome, hok, herr]

theorem isEmpty_bound {test : LitPat → Js.Test} {bound : Option LitPat}
    (h : Matcher.bound test bound = .ok m) : m.tests.isEmpty = bound.isNone := by
  cases bound with
  | none =>
    cases h
    rfl
  | some p =>
    obtain ⟨q, -, rfl⟩ := exists_of_return_eq_ok h
    rfl

theorem isEmpty_append (m n : Matcher) :
    (m ++ n).tests.isEmpty = (m.tests.isEmpty && n.tests.isEmpty) := by
  change (m.tests ++ n.tests).isEmpty = _
  cases m.tests <;> rfl

theorem isEmpty_oneOf (h : Matcher.oneOf ms = .ok m) :
    m.tests.isEmpty = ms.any Matcher.isIrrefutable := by
  unfold Matcher.oneOf at h
  split at h
  case isTrue hany =>
    cases h
    rw [hany]
    rfl
  case isFalse hany =>
    have hfalse : ms.any Matcher.isIrrefutable = false := by simpa using hany
    rw [hfalse]
    cases ms with
    | nil => cases h
    | cons first others =>
      dsimp only at h
      split at h
      · cases h
        rfl
      · cases h

theorem any_isIrrefutable {known : KnownTypes} {ps : List Pat}
    (h : List.Forall₂ (fun p m => m.tests.isEmpty = p.alwaysFits known) ps ms) :
    ms.any Matcher.isIrrefutable = anyFits known ps := by
  induction h with
  | nil => rfl
  | cons hp _ ih => rw [List.any_cons, Matcher.isIrrefutable, hp, ih, anyFits]

theorem isEmpty_cases : Cases v (fun _ p m => m.tests.isEmpty = p.alwaysFits v.toKnownTypes)
    (fun _ ps m => m.tests.isEmpty = allFit v.toKnownTypes ps)
    (fun _ fs m => m.tests.isEmpty = allFieldsFit v.toKnownTypes fs) where
  wild _ := rfl
  rest _ := rfl
  ref h := by rwa [alwaysFits]
  named h := by
    rw [isEmpty_append, h, alwaysFits]
    exact Bool.and_true _
  absent _ _ _ := by simp [alwaysFits, Matcher.test]
  constant _ _ _ _ hconst := by simp [alwaysFits, hconst, Matcher.test]
  fresh _ _ _ hname hconst := by simp [alwaysFits, hname, hconst]
  lit _ _ := rfl
  range hlow hhigh := by rw [isEmpty_append, isEmpty_bound hlow, isEmpty_bound hhigh, alwaysFits]
  tuple h := by rwa [alwaysFits]
  slice _ := rfl
  path _ _ := rfl
  tupleStruct hname h := by rw [isEmpty_append, isEmpty_layout, h, alwaysFits, hname]
  variant hvariant _ _ := by simp [alwaysFits, hvariant, isEmpty_append, Matcher.test]
  struct hvariant h := by
    rw [alwaysFits, hvariant, h]
    rfl
  alt _ hms h := by rw [isEmpty_oneOf h, any_isIrrefutable hms, alwaysFits]
  nil := rfl
  cons hp hps := by rw [isEmpty_append, hp, hps, allFit]
  noFields _ := rfl
  field hp hfs := by rw [isEmpty_append, hp, hfs, allFieldsFit]

theorem isEmpty_compile (p : Pat) {place : Js.Access} (h : p.compile v place = .ok m) :
    m.tests.isEmpty = p.alwaysFits v.toKnownTypes :=
  isEmpty_cases.compile p h

end Pat

/-! ## Where `?` stands -/

/-- The arms are one for a value that is there and one for a value that is not. -/
def Arm.isPair : List Arm → Bool
  | [⟨p, _, none⟩, ⟨q, _, none⟩] => (p.takesSome && q.takesNone) || (q.takesSome && p.takesNone)
  | _ => false

section

variable (known : KnownTypes) (call : MacroCall → Bool)

mutual

/-- A `?` stands in what is emitted for the expression, in the function that the expression belongs
    to. -/
def Expr.tries : Expr → Bool
  | .tryOp _ => true
  | .lit _ | .ident _ | .path _ | .closure .. | .cont _ | .bare => false
  | .mac m => call m
  | .paren e | .unary _ e | .ref e _ | .deref e | .await e | .field e _ | .cast e _ => e.tries
  | .binary _ l r | .assign l r _ | .index l r | .arrayRepeat l r => l.tries || r.tries
  | .call func args | .methodCall func _ args => func.tries || Expr.anyTries args
  | .structLit _ fields base => FieldInit.anyTries fields || Expr.optionTries base
  | .arrayLit elems | .tupleLit elems => Expr.anyTries elems
  | .block stmts isAsync _ => !isAsync && Stmt.anyTries stmts
  | .loop stmts _ => Stmt.anyTries stmts
  | .ifElse cond stmts orelse | .ifLet _ cond stmts orelse =>
    cond.tries || (Stmt.anyTries stmts || Expr.optionTries orelse)
  | .whileLoop cond stmts _ | .whileLet _ cond stmts _ | .forLoop _ cond stmts _ =>
    cond.tries || Stmt.anyTries stmts
  | .matchOn subject arms => subject.tries || Arm.anyTries (Arm.isPair arms) arms
  | .ret value | .brk _ value => Expr.optionTries value
  | .range start stop _ => Expr.optionTries start || Expr.optionTries stop

def Expr.anyTries : List Expr → Bool
  | [] => false
  | e :: es => e.tries || Expr.anyTries es

def Expr.optionTries : Option Expr → Bool
  | none => false
  | some e => e.tries

def FieldInit.anyTries : List FieldInit → Bool
  | [] => false
  | ⟨_, value⟩ :: fields => value.tries || FieldInit.anyTries fields

/-- A `?` stands in one of the arms that are emitted: all of a pair, otherwise those up to the first
    that always fits. -/
def Arm.anyTries (isPair : Bool) : List Arm → Bool
  | [] => false
  | ⟨pat, body, guard⟩ :: arms =>
    (Expr.optionTries guard || body.tries) ||
      ((isPair || guard.isSome || !pat.alwaysFits known) && Arm.anyTries isPair arms)

def Stmt.tries : Stmt → Bool
  | .letIn _ (some init) _ (some orelse) => init.tries || Stmt.anyTries orelse
  | .letIn _ none _ (some _) => false
  | .letIn _ init _ none => Expr.optionTries init
  | .expr e _ => e.tries
  | .mac m _ => call m
  | .item (.const ⟨_, value, _, _⟩) => value.tries
  | .item _ | .bare => false

def Stmt.anyTries : List Stmt → Bool
  | [] => false
  | s :: ss => s.tries || Stmt.anyTries ss

end

end

/-! ## Macro calls -/

namespace Macro

/-- The name that a placeholder takes from the scope around the call, if no argument has it. -/
def captured? (parts : List String) : Template.Piece → Option String
  | .text _ => none
  | .slot p =>
    if p.key.isEmpty || p.key.toList.all Text.isDigit then none
    else if (parts.filterMap namedArgument?).any fun named => named.1 == p.key then none
    else some p.key

/-- The variables around the call that the placeholders of a format name. -/
def capturedIn (first : String) (parts : List String) : List String :=
  match Literal.decode first with
  | .error _ => []
  | .ok template =>
    match Template.pieces template with
    | .error _ => []
    | .ok pieces => pieces.filterMap (captured? parts)

/-- The texts that a format reads as expressions. -/
def formatTexts (tokens : String) : List String :=
  match Arguments.split tokens ',' with
  | .ok (first :: parts) => parts.map argumentText ++ capturedIn first parts
  | _ => []

/-- The texts that an assertion with so many operands reads as expressions. -/
def assertionTexts (count : Nat) (tokens : String) : List String :=
  match Arguments.split tokens ',' with
  | .ok parts =>
    parts.take count ++
      if (parts.drop count).isEmpty then [] else formatTexts (Js.commas (parts.drop count))
  | .error _ => []

/-- The texts that a message reads as expressions; a blank one has none. -/
def messageTexts (tokens : String) : List String :=
  if (Text.strip tokens).isEmpty then [] else formatTexts tokens

/-- The elements of a vector that are listed. -/
def elementTexts (tokens : String) : List String :=
  match Arguments.split tokens ',' with
  | .ok parts => parts
  | .error _ => []

/-- The texts of a vector, listed or repeated. -/
def vectorTexts (tokens : String) : List String :=
  match Arguments.split tokens ';' with
  | .ok [value, count] => [value, count]
  | _ => elementTexts tokens

/-- The texts that are read as expressions when the tokens of a call are expanded. -/
def textsFor (name tokens : String) : List String :=
  if name == "vec" then vectorTexts tokens
  else if name == "assert" || name == "debug_assert" then assertionTexts 1 tokens
  else if name == "assert_eq" || name == "assert_ne" then assertionTexts 2 tokens
  else if name == "format" then formatTexts tokens
  else messageTexts tokens

/-- The texts that the expansion of a call reads as expressions. -/
def texts (m : MacroCall) : List String := textsFor m.baseName m.tokens

/-- The text of the value that a vector repeats, which is put into a function. -/
def repeatedFor? (name tokens : String) : Option String :=
  match name == "vec", Arguments.split tokens ';' with
  | true, .ok [value, _] => some value
  | _, _ => none

/-- What is read out of the tokens of a call of the name has a property. The value that is repeated
    has it in a function that is emitted around it. -/
def allReadFor (ok : Mode → String → Bool) (mode : Mode) (name tokens : String) : Bool :=
  (textsFor name tokens).all (ok mode) && (repeatedFor? name tokens).all (ok mode.inHelper)

/-- Whether all texts of a call are as asked, each in the mode in which it is emitted. -/
def allRead (ok : Mode → String → Bool) (mode : Mode) (m : MacroCall) : Bool :=
  allReadFor ok mode m.baseName m.tokens

end Macro

namespace Reader

/-- All that is read out of the call is lawful, in calls that nest up to the depth given. -/
def isLawfulWithin (r : Reader) (law : Law) : (depth : Nat) → Mode → MacroCall → Bool
  | 0, _, _ => true
  | depth + 1, mode, m =>
    Macro.allRead (fun mode text =>
      match r.read text with
      | .ok e => e.isLawful law (r.isLawfulWithin law depth) mode
      | .error _ => true) mode m

def isLawful (r : Reader) (law : Law) (mode : Mode) (m : MacroCall) : Bool :=
  r.isLawfulWithin law (r.depth m.tokens) mode m

/-- Whether a `?` stands in what is read out of a call, down to a depth. -/
def triesWithin (r : Reader) (known : KnownTypes) : (depth : Nat) → MacroCall → Bool
  | 0, _ => false
  | depth + 1, m =>
    (Macro.texts m).any fun text =>
      match r.read text with
      | .ok e => e.tries known (r.triesWithin known depth)
      | .error _ => false

def tries (r : Reader) (known : KnownTypes) (m : MacroCall) : Bool :=
  r.triesWithin known (r.depth m.tokens) m

end Reader

end RustScript
