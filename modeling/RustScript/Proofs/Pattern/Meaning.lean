/-
  What patterns mean.

  Values of the source and their types, which patterns speak about values of a type (`Pat.Fits`),
  when a pattern matches a value and what it then binds (`Pat.match?`), and which JavaScript value
  stands for a value (`Value.encode`). Constants and floating-point numbers are not covered.
-/
import Mathlib.Data.List.Forall2
import RustScript.Emit.Pattern
import RustScript.Proofs.Js.Conditions

namespace RustScript

/-! ## Values -/

/-- Values of the source. -/
inductive Value where
  | int (n : Int)
  | bool (b : Bool)
  | str (s : String)
  | tuple (elems : List Value)
  /-- An array, a vector or a slice. -/
  | slice (elems : List Value)
  | record (fields : List (String × Value))
  | slots (elems : List Value)
  | absent
  | present (v : Value)
  | success (v : Value)
  | failure (v : Value)
  | unit (variant : String)
  | payload (variant : String) (elems : List Value)
  | fields (variant : String) (fields : List (String × Value))

namespace Value

mutual

/-- The JavaScript value that stands for a value. An optional value that is there is the value
    itself, and the empty tuple is `undefined`. -/
def encode : Value → Js.Val
  | int n => .num n
  | bool b => .bool b
  | str s => .str s
  | tuple [] => .undefined
  | tuple (v :: vs) => .array (encodeAll (v :: vs))
  | slice vs => .array (encodeAll vs)
  | record fs => .object (encodeFields fs)
  | slots vs => .object (encodeNumbered "" 0 vs)
  | absent => .null
  | present v => v.encode
  | success v => .object [("ok", v.encode)]
  | failure v => .object [("error", v.encode)]
  | unit variant => .str variant
  | payload variant vs => .object (("type", .str variant) :: encodeNumbered "value" 0 vs)
  | fields variant fs => .object (("type", .str variant) :: encodeFields fs)

def encodeAll : List Value → List Js.Val
  | [] => []
  | v :: vs => v.encode :: encodeAll vs

def encodeFields : List (String × Value) → List (String × Js.Val)
  | [] => []
  | (name, v) :: fs => (name, v.encode) :: encodeFields fs

def encodeNumbered (stem : String) (i : Nat) : List Value → List (String × Js.Val)
  | [] => []
  | v :: vs => (stem ++ toString i, v.encode) :: encodeNumbered stem (i + 1) vs

end

def isAbsent : Value → Bool
  | absent => true
  | _ => false

/-- Whether the value is the variant of this name, without a payload. -/
def isUnit (name : Option String) : Value → Bool
  | unit variant => name == some variant
  | _ => false

/-- The elements of a value that a pattern with this head speaks about. -/
def elems? (head : Option String) : Value → Option (List Value)
  | present v => if head = some "Some" then some [v] else none
  | success v => if head = some "Ok" then some [v] else none
  | failure v => if head = some "Err" then some [v] else none
  | slots vs => some vs
  | payload variant vs => if head = some variant then some vs else none
  | _ => none

/-- The fields of a struct, or of the variant. -/
def fields? (head : Option String) : Value → Option (List (String × Value))
  | record fs => some fs
  | fields variant fs => if head = some variant then some fs else none
  | _ => none

end Value

/-! ## Types -/

/-- Types of values. -/
inductive Ty where
  | int
  | bool
  | str
  | tuple (elems : List Ty)
  | slice (elem : Ty)
  | record (name : String)
  | slots (name : String)
  | option (elem : Ty)
  | result (success failure : Ty)
  | enum (name : String)

/-- Whether some value of the type is `null` or `undefined` in JavaScript. -/
def Ty.isNullable : Ty → Bool
  | option _ => true
  | tuple [] => true
  | _ => false

/-- What the values of a variant hold. -/
inductive VariantShape where
  | unit
  | payload (elems : List Ty)
  | fields (fields : List (String × Ty))

def VariantShape.fieldNames : VariantShape → List String
  | fields fs => fs.map Prod.fst
  | _ => []

/-- The declarations of structs and enums. The names of fields and variants are words, and `type`
    is a keyword of the source, so no field has this name. -/
structure Declarations where
  records : List (String × List (String × Ty)) := []
  slots : List (String × List Ty) := []
  enums : List (String × List (String × VariantShape)) := []
  recordNames : ∀ r ∈ records, ∀ f ∈ r.2, Js.isName f.1 := by decide
  variantNames : ∀ e ∈ enums, ∀ v ∈ e.2, Js.isName v.1 ∧
    ∀ name ∈ v.2.fieldNames, Js.isName name ∧ name ≠ "type" := by decide

namespace Value

/-- The value has the type. Integers are in the range of those that JavaScript can tell apart, and
    what an optional value holds is never `null` or `undefined` itself. -/
inductive HasType (decls : Declarations) : Value → Ty → Prop where
  | int (n : Int) : n.natAbs ≤ Js.exactLimit → HasType decls (int n) .int
  | bool (b : Bool) : HasType decls (bool b) .bool
  | str (s : String) : HasType decls (str s) .str
  | tuple {vs : List Value} {ts : List Ty} :
      List.Forall₂ (HasType decls) vs ts → HasType decls (tuple vs) (.tuple ts)
  | slice {vs : List Value} {t : Ty} :
      (∀ v ∈ vs, HasType decls v t) → HasType decls (slice vs) (.slice t)
  | record {name : String} {fs : List (String × Value)} {decl : List (String × Ty)} :
      decls.records.lookup name = some decl → fs.map Prod.fst = decl.map Prod.fst →
      List.Forall₂ (HasType decls) (fs.map Prod.snd) (decl.map Prod.snd) →
      HasType decls (record fs) (.record name)
  | slots {name : String} {vs : List Value} {ts : List Ty} :
      decls.slots.lookup name = some ts → List.Forall₂ (HasType decls) vs ts →
      HasType decls (slots vs) (.slots name)
  | absent {t : Ty} : HasType decls absent (.option t)
  | present {v : Value} {t : Ty} :
      HasType decls v t → t.isNullable = false → HasType decls (present v) (.option t)
  | success {v : Value} {t u : Ty} : HasType decls v t → HasType decls (success v) (.result t u)
  | failure {v : Value} {t u : Ty} : HasType decls v u → HasType decls (failure v) (.result t u)
  | unit {enum variant : String} {variants : List (String × VariantShape)} :
      decls.enums.lookup enum = some variants → variants.lookup variant = some .unit →
      HasType decls (unit variant) (.enum enum)
  | payload {enum variant : String} {variants : List (String × VariantShape)} {vs : List Value}
      {ts : List Ty} :
      decls.enums.lookup enum = some variants → variants.lookup variant = some (.payload ts) →
      List.Forall₂ (HasType decls) vs ts → HasType decls (payload variant vs) (.enum enum)
  | fields {enum variant : String} {variants : List (String × VariantShape)}
      {fs : List (String × Value)} {decl : List (String × Ty)} :
      decls.enums.lookup enum = some variants → variants.lookup variant = some (.fields decl) →
      fs.map Prod.fst = decl.map Prod.fst →
      List.Forall₂ (HasType decls) (fs.map Prod.snd) (decl.map Prod.snd) →
      HasType decls (fields variant fs) (.enum enum)

end Value

/-! ## Matching -/

/-- A part of a value that a pattern binds to a name. -/
structure Part where
  name : String
  isMutable : Bool
  value : Value

def LitPat.int? (p : LitPat) : Option Int :=
  match p.lit with
  | .int n => some (if p.negative then -n else n)
  | _ => none

/-- Whether the value is the literal. -/
def LitPat.isMatch (p : LitPat) (v : Value) : Bool :=
  match p.lit, v with
  | .int _, .int n => p.int? == some n
  | .bool b, .bool c => b == c
  | .str s, .str t => s == t
  | _, _ => false

/-- Whether an integer lies in a range. A bound that is missing does not bound. -/
def inRange (start stop : Option LitPat) (inclusive : Bool) (n : Int) : Bool :=
  (start.all fun p => p.int?.any fun k => decide (k ≤ n)) &&
    stop.all fun p => p.int?.any fun k => if inclusive then decide (n ≤ k) else decide (n < k)

/-- What each pattern of a list is matched with: a rest mark takes whatever the patterns before and
    behind it leave, and is given the filler. There is nothing if the numbers do not fit. -/
def spread {α : Type} (filler : α) : List Pat → List α → Option (List α)
  | [], [] => some []
  | [], _ :: _ => none
  | p :: ps, xs =>
    if p.isRest then
      if ps.length ≤ xs.length then some (filler :: xs.drop (xs.length - ps.length)) else none
    else
      match xs with
      | [] => none
      | x :: xs => (spread filler ps xs).map (x :: ·)

namespace Pat

mutual

/-- What the pattern binds if it matches the value. -/
def match? : Pat → Value → Option (List Part)
  | wild, _ => some []
  | rest, _ => some []
  | ref p, v => p.match? v
  | ident name isMutable _ (some sub), v => (sub.match? v).map (· ++ [⟨name, isMutable, v⟩])
  | ident name isMutable _ none, v =>
    if name = "None" then if v.isAbsent then some [] else none
    else some [⟨name, isMutable, v⟩]
  | lit p, v => if p.isMatch v then some [] else none
  | range start stop inclusive, .int n => if inRange start stop inclusive n then some [] else none
  | tuple ps, .tuple vs => (spread (.tuple []) ps vs).bind (matchAt ps)
  | slice ps, .slice vs => (spread (.tuple []) ps vs).bind (matchAt ps)
  | path segments, v =>
    if segments.getLast? = some "None" then if v.isAbsent then some [] else none
    else if v.isUnit segments.getLast? then some [] else none
  | tupleStruct segments ps, v =>
    (v.elems? segments.getLast?).bind fun vs => (spread (.tuple []) ps vs).bind (matchAt ps)
  | struct segments fields _, v => (v.fields? segments.getLast?).bind (matchFields fields)
  | alt ps, v => matchFirst ps v
  | _, _ => none

/-- Patterns and the parts of a value, one by one. -/
def matchAt : List Pat → List Value → Option (List Part)
  | p :: ps, v :: vs => (p.match? v).bind fun parts => (matchAt ps vs).map (parts ++ ·)
  | _, _ => some []

def matchFields : List FieldPat → List (String × Value) → Option (List Part)
  | [], _ => some []
  | ⟨name, p⟩ :: ps, fs =>
    (fs.lookup name).bind fun v =>
      (p.match? v).bind fun parts => (matchFields ps fs).map (parts ++ ·)

/-- The first of the patterns that matches. -/
def matchFirst : List Pat → Value → Option (List Part)
  | [], _ => none
  | p :: ps, v =>
    match p.match? v with
    | some parts => some parts
    | none => matchFirst ps v

end

mutual

/-- The names that a pattern may bind. -/
def binders : Pat → List String
  | ident name _ _ none => if name = "None" then [] else [name]
  | ident name _ _ (some sub) => sub.binders ++ [name]
  | ref p => p.binders
  | tuple ps => allBinders ps
  | slice ps => allBinders ps
  | tupleStruct _ ps => allBinders ps
  | struct _ fields _ => fieldBinders fields
  | alt ps => allBinders ps
  | _ => []

def allBinders : List Pat → List String
  | [] => []
  | p :: ps => p.binders ++ allBinders ps

def fieldBinders : List FieldPat → List String
  | [] => []
  | ⟨_, p⟩ :: ps => p.binders ++ fieldBinders ps

end

end Pat

/-! ## Patterns of a type -/

/-- The heads of patterns for optional and fallible values. -/
def wrappers : List String := ["Some", "None", "Ok", "Err"]

/-- Whether a tuple-struct pattern names a struct that is known. -/
def KnownTypes.knows (known : KnownTypes) (path : List String) : Bool :=
  path.getLast?.any fun name => !wrappers.contains name && (known.arity? path name).isSome

namespace Pat

mutual

/-- Whether the form of a pattern lets it match every value of its type. -/
def isIrrefutable (known : KnownTypes) : Pat → Bool
  | wild => true
  | rest => true
  | ref p => p.isIrrefutable known
  | ident name _ _ none => name != "None"
  | ident _ _ _ (some sub) => sub.isIrrefutable known
  | range none none _ => true
  | tuple ps => allIrrefutable known ps
  | tupleStruct segments ps => known.knows segments && allIrrefutable known ps
  | struct segments fields _ => !Path.isVariant segments && fieldsIrrefutable known fields
  | alt ps => anyIrrefutable known ps
  | _ => false

def allIrrefutable (known : KnownTypes) : List Pat → Bool
  | [] => true
  | p :: ps => p.isIrrefutable known && allIrrefutable known ps

def fieldsIrrefutable (known : KnownTypes) : List FieldPat → Bool
  | [] => true
  | ⟨_, p⟩ :: ps => p.isIrrefutable known && fieldsIrrefutable known ps

def anyIrrefutable (known : KnownTypes) : List Pat → Bool
  | [] => false
  | p :: ps => p.isIrrefutable known || anyIrrefutable known ps

end

end Pat

/-- The literal pattern is one of the type. The sign stands before a number that has none and is in
    the range of those that JavaScript can tell apart. -/
def LitPat.Fits (p : LitPat) : Ty → Prop
  | .int => ∃ n : Nat, p.lit = .int n ∧ n ≤ Js.exactLimit
  | .bool => ∃ b, p = ⟨.bool b, false⟩
  | .str => ∃ s, p = ⟨.str s, false⟩
  | _ => False

/-- At most one of the patterns is a rest mark. -/
def OneRest (ps : List Pat) : Prop := (ps.filter Pat.isRest).length ≤ 1

/-- A list of patterns with at most one rest mark that an array has elements for. -/
def ElemPats (ps : List Pat) : Prop := OneRest ps ∧ ps.length ≤ Js.maxLength

/-- A tuple-struct pattern with this path speaks about values of the type, and its elements about
    values of these types. In a variant there is no rest mark. -/
inductive ElemsHead (decls : Declarations) (known : KnownTypes) (path : List String)
    (ps : List Pat) : Ty → List Ty → Prop where
  | present {t : Ty} : path.getLast? = some "Some" → ElemsHead decls known path ps (.option t) [t]
  | success {t u : Ty} : path.getLast? = some "Ok" → ElemsHead decls known path ps (.result t u) [t]
  | failure {t u : Ty} :
      path.getLast? = some "Err" → ElemsHead decls known path ps (.result t u) [u]
  | slots {name struct : String} {ts : List Ty} :
      path.getLast? = some name → name ∉ wrappers → known.arity? path name = some ts.length →
      decls.slots.lookup struct = some ts → ElemsHead decls known path ps (.slots struct) ts
  | variant {name enum : String} {variants : List (String × VariantShape)} {ts : List Ty} :
      path.getLast? = some name → name ∉ wrappers → known.arity? path name = none →
      decls.enums.lookup enum = some variants → variants.lookup name = some (.payload ts) →
      (∀ p ∈ ps, p.isRest = false) → ElemsHead decls known path ps (.enum enum) ts

/-- A struct pattern with this path speaks about values of the type, which have these fields. -/
inductive FieldsHead (decls : Declarations) (path : List String) :
    Ty → List (String × Ty) → Prop where
  | record {struct : String} {decl : List (String × Ty)} :
      Path.isVariant path = false → decls.records.lookup struct = some decl →
      FieldsHead decls path (.record struct) decl
  | variant {name enum : String} {variants : List (String × VariantShape)}
      {decl : List (String × Ty)} :
      Path.isVariant path = true → path.getLast? = some name →
      decls.enums.lookup enum = some variants → variants.lookup name = some (.fields decl) →
      FieldsHead decls path (.enum enum) decl

/-- A path pattern speaks about values of the type: it is `None`, or a variant without a payload. -/
inductive PathHead (decls : Declarations) (path : List String) : Ty → Prop where
  | absent {t : Ty} : path.getLast? = some "None" → PathHead decls path (.option t)
  | unit {name enum : String} {variants : List (String × VariantShape)} :
      path.getLast? = some name → name ∉ wrappers →
      (path.length == 1 && Name.isConstant name) = false →
      decls.enums.lookup enum = some variants → variants.lookup name = some .unit →
      PathHead decls path (.enum enum)

namespace Pat

mutual

/-- The pattern speaks about values of the type. The alternatives of a choice bind the same names,
    so if one of them always matches and binds nothing, none binds anything. -/
def Fits (decls : Declarations) (known : KnownTypes) : Pat → Ty → Prop
  | wild, _ => True
  | ref p, t => p.Fits decls known t
  | ident _ _ _ (some sub), t => sub.Fits decls known t
  | ident name _ _ none, t =>
    if name = "None" then ∃ u, t = .option u else Name.isConstant name = false
  | lit p, t => p.Fits t
  | range start stop _, t => t = .int ∧ (∀ p ∈ start, p.Fits .int) ∧ ∀ p ∈ stop, p.Fits .int
  | tuple ps, t =>
    ElemPats ps ∧ ∃ ts us, t = .tuple ts ∧ spread (.tuple []) ps ts = some us ∧
      FitsAt decls known ps us
  | slice ps, t => ElemPats ps ∧ ∃ u, t = .slice u ∧ FitsAt decls known ps (ps.map fun _ => u)
  | path segments, t => PathHead decls segments t
  | tupleStruct segments ps, t =>
    ElemPats ps ∧ ∃ ts us, ts.length ≤ Js.maxLength ∧ ElemsHead decls known segments ps t ts ∧
      spread (.tuple []) ps ts = some us ∧ FitsAt decls known ps us
  | struct segments fields _, t =>
    ∃ decl, FieldsHead decls segments t decl ∧ FitsFields decls known fields decl
  | alt ps, t => FitsAll decls known ps t ∧ (anyIrrefutable known ps = true → allBinders ps = [])
  | _, _ => False

/-- Each pattern speaks about values of its own type; a rest mark may stand for any. -/
def FitsAt (decls : Declarations) (known : KnownTypes) : List Pat → List Ty → Prop
  | [], [] => True
  | p :: ps, t :: ts => (p.isRest = true ∨ p.Fits decls known t) ∧ FitsAt decls known ps ts
  | _, _ => False

def FitsAll (decls : Declarations) (known : KnownTypes) : List Pat → Ty → Prop
  | [], _ => True
  | p :: ps, t => p.Fits decls known t ∧ FitsAll decls known ps t

def FitsFields (decls : Declarations) (known : KnownTypes) :
    List FieldPat → List (String × Ty) → Prop
  | [], _ => True
  | ⟨name, p⟩ :: ps, decl =>
    (∃ t, decl.lookup name = some t ∧ p.Fits decls known t) ∧ FitsFields decls known ps decl

end

end Pat

end RustScript
