/-
  What JavaScript expressions come to.

  `eval env t` is `none` where evaluation throws, as when a property of `null` is read, and where
  the rules here do not say what happens: objects are not compared by identity, conditions are
  booleans, and numbers are integers. A number is rounded to 53 bits when its text is read
  (`Term.rounded`).
-/
import RustScript.Proofs.Js.Written

namespace RustScript.Js

/-- A value. Its numbers are integers that 53 bits hold, as they are without arithmetic on large
    numbers. -/
inductive Val where
  | undefined
  | null
  | bool (value : Bool)
  | num (value : Int)
  | str (value : String)
  | array (elems : List Val)
  | object (props : List (String × Val))

namespace Val

/-- The properties that every object has from the start. -/
def inherited : List String :=
  ["constructor", "hasOwnProperty", "isPrototypeOf", "propertyIsEnumerable", "toLocaleString",
   "toString", "valueOf", "__proto__", "__defineGetter__", "__defineSetter__", "__lookupGetter__",
   "__lookupSetter__"]

/-- Reads a property by its name. Of a text only the absence of `type` is known. -/
def member? : Val → String → Option Val
  | object props, name =>
    match props.lookup name with
    | some value => some value
    | none => if inherited.contains name then none else some undefined
  | array elems, name => if name = "length" then some (num elems.length) else none
  | str _, name => if name = "type" then some undefined else none
  | _, _ => none

/-- The element of an array, or the property of an object, under a key. -/
def index? : Val → Val → Option Val
  | array elems, num i => some (if 0 ≤ i then elems[i.toNat]?.getD undefined else undefined)
  | object props, num i => some ((props.lookup (toString i)).getD undefined)
  | _, _ => none

/-- Strict equality. Values of different kinds differ. -/
def same? : Val → Val → Option Bool
  | undefined, undefined => some true
  | null, null => some true
  | bool a, bool b => some (a == b)
  | num a, num b => some (a == b)
  | str a, str b => some (a == b)
  | array _, array _ => none
  | object _, object _ => none
  | _, _ => some false

/-- What an operator makes of two values. -/
def operate? (op : String) (a b : Val) : Option Val :=
  match op, a, b with
  | "===", a, b => (a.same? b).map bool
  | "!==", a, b => (a.same? b).map fun e => bool !e
  | "<", num a, num b => some (bool (decide (a < b)))
  | "<=", num a, num b => some (bool (decide (a ≤ b)))
  | ">=", num a, num b => some (bool (decide (b ≤ a)))
  | "-", num a, num b => some (num (a - b))
  | "in", str key, object props => some (bool ((props.lookup key).isSome || inherited.contains key))
  | _, _, _ => none

def isArray : Val → Bool
  | array _ => true
  | _ => false

end Val

/-- The values of the variables. -/
abbrev Env := String → Option Val

/-- The value of a word: a fixed one, or that of a variable. -/
def wordValue (env : Env) (w : String) : Option Val :=
  if w = "true" then some (.bool true)
  else if w = "false" then some (.bool false)
  else if w = "null" then some .null
  else if w = "undefined" then some .undefined
  else env w

/-- The value of a term, if the rules here give one. -/
def eval (env : Env) : Term → Option Val
  | .word w => wordValue env w
  | .number n => some (.num n)
  | .str s => some (.str s)
  | .unary op t =>
    match op, eval env t with
    | "-", some (.num n) => some (.num (-n))
    | "!", some (.bool b) => some (.bool !b)
    | _, _ => none
  | .binary op l r =>
    if op = "&&" then
      match eval env l with
      | some (.bool true) => eval env r
      | some (.bool false) => some (.bool false)
      | _ => none
    else if op = "||" then
      match eval env l with
      | some (.bool true) => some (.bool true)
      | some (.bool false) => eval env r
      | _ => none
    else
      match eval env l, eval env r with
      | some a, some b => a.operate? op b
      | _, _ => none
  | .member t name => (eval env t).bind fun v => v.member? name
  | .index t i => (eval env t).bind fun v => (eval env i).bind fun i => v.index? i
  | .call (.member (.word "Array") "isArray") t =>
    if (env "Array").isSome then none else (eval env t).map fun v => .bool v.isArray
  | .call _ _ => none

/-! ## Rounding -/

/-- All integers up to this one have 53 bits. -/
def exactLimit : Nat := 9007199254740992

/-- No array has more elements. -/
def maxLength : Nat := 4294967295

/-- The nearest number of 53 bits, or the even one of two that are equally near. -/
def round (n : Nat) : Nat :=
  let shift := n.log2 - 52
  let kept := n >>> shift
  let lost := n - kept <<< shift
  let up := 1 <<< shift < 2 * lost ∨ 1 <<< shift = 2 * lost ∧ kept % 2 = 1
  (if up then kept + 1 else kept) <<< shift

theorem round_eq_self {n : Nat} (h : n ≤ exactLimit) : round n = n := by
  rcases Nat.eq_or_lt_of_le h with rfl | hlt
  · decide
  · have hshift : n.log2 - 52 = 0 := by
      by_cases hzero : n = 0
      · subst hzero
        rfl
      · have hlog := (Nat.log2_lt hzero).mpr (show n < 2 ^ 53 from hlt)
        omega
    simp [round, hshift]

/-- What a number that is written out is read as. -/
def readNumber (n : Nat) : Term :=
  if (round n).log2 < 1024 then .number (round n) else .word "Infinity"

theorem readNumber_eq {n : Nat} (h : n ≤ exactLimit) : readNumber n = .number n := by
  have hlog : n.log2 < 1024 := by
    by_cases hzero : n = 0
    · subst hzero
      decide
    · have hlog := (Nat.log2_lt hzero).mpr (show n < 2 ^ 54 from Nat.lt_of_le_of_lt h (by decide))
      omega
  rw [readNumber, round_eq_self h, if_pos hlog]

/-- The term with its numbers as they are read. -/
def Term.rounded : Term → Term
  | .number n => readNumber n
  | .unary op t => .unary op t.rounded
  | .binary op l r => .binary op l.rounded r.rounded
  | .member t name => .member t.rounded name
  | .index t i => .index t.rounded i.rounded
  | .call f t => .call f.rounded t.rounded
  | t => t

/-- The text is an expression, and whichever way it is read it has the value. -/
def Yields (env : Env) (text : String) (v : Val) : Prop :=
  (∃ t, ReadsAs text t) ∧ ∀ t, ReadsAs text t → eval env t.rounded = some v

theorem Written.yields {env : Env} {level : Nat} {text : String} {t : Term} {v : Val}
    (h : Written level text t) (hv : eval env t.rounded = some v) : Yields env text v := by
  refine ⟨⟨t, (h.readsAs_iff t).mpr rfl⟩, fun u hu => ?_⟩
  rw [(h.readsAs_iff u).mp hu, hv]

/-! ## Rows of conditions -/

/-- The operator between the conditions of a row of which all have to hold, or one. -/
def junctor (all : Bool) : String := if all then "&&" else "||"

/-- Conditions with `&&`, or with `||`, between them. -/
def row (all : Bool) : List Term → Term
  | [] => .word (if all then "true" else "false")
  | t :: ts => ts.foldl (.binary (junctor all)) t

theorem rounded_row {all : Bool} {ts : List Term} (h : ∀ t ∈ ts, t.rounded = t) :
    (row all ts).rounded = row all ts := by
  cases ts with
  | nil => rfl
  | cons t ts =>
    obtain ⟨ht, hts⟩ := List.forall_mem_cons.mp h
    rw [row]
    induction ts generalizing t with
    | nil => exact ht
    | cons u ts ih =>
      obtain ⟨hu, hts⟩ := List.forall_mem_cons.mp hts
      have hboth : (Term.binary (junctor all) t u).rounded = .binary (junctor all) t u := by
        rw [Term.rounded, ht, hu]
      exact ih _ (List.forall_mem_cons.mpr ⟨hboth, hts⟩) hboth hts

/-- The value of a condition. -/
def holds? (env : Env) (t : Term) : Option Bool :=
  match eval env t with
  | some (.bool b) => some b
  | _ => none

/-- What a row of conditions comes to. The first condition that decides it is the last one that is
    evaluated. -/
def rowHolds? (env : Env) (all : Bool) : List Term → Option Bool
  | [] => some all
  | t :: ts => (holds? env t).bind fun b => if b = all then rowHolds? env all ts else some b

section Rows

variable {env : Env}

theorem holds?_eq_some {t : Term} {b : Bool} :
    holds? env t = some b ↔ eval env t = some (.bool b) := by
  unfold holds?
  split
  · next h => simp [h]
  · next h => simpa using h b

theorem holds?_junction (all : Bool) (l r : Term) :
    holds? env (.binary (junctor all) l r) =
      (holds? env l).bind fun b => if b = all then holds? env r else some b := by
  cases all with
  | true =>
    simp only [holds?, eval, junctor, if_true]
    cases eval env l with
    | none => rfl
    | some v =>
      cases v with
      | bool b => cases b <;> rfl
      | _ => rfl
  | false =>
    simp only [holds?, eval, junctor, Bool.false_eq_true, if_false,
      if_neg (show "||" ≠ "&&" by decide), if_true]
    cases eval env l with
    | none => rfl
    | some v =>
      cases v with
      | bool b => cases b <;> rfl
      | _ => rfl

theorem holds?_foldl (all : Bool) (t : Term) (ts : List Term) :
    holds? env (ts.foldl (.binary (junctor all)) t) =
      (holds? env t).bind fun b => if b = all then rowHolds? env all ts else some b := by
  induction ts generalizing t with
  | nil =>
    rw [List.foldl_nil]
    cases holds? env t with
    | none => rfl
    | some b => cases b <;> cases all <;> rfl
  | cons u ts ih =>
    rw [List.foldl_cons, ih, holds?_junction]
    cases holds? env t with
    | none => rfl
    | some b => cases b <;> cases all <;> rfl

theorem holds?_row (all : Bool) (ts : List Term) :
    holds? env (row all ts) = rowHolds? env all ts := by
  cases ts with
  | nil => cases all <;> rfl
  | cons t ts => exact holds?_foldl all t ts

theorem rowHolds?_append (all : Bool) (ts us : List Term) :
    rowHolds? env all (ts ++ us) =
      (rowHolds? env all ts).bind fun b => if b = all then rowHolds? env all us else some b := by
  induction ts with
  | nil => simp [rowHolds?]
  | cons t ts ih =>
    rw [List.cons_append, rowHolds?, rowHolds?, ih]
    cases holds? env t with
    | none => rfl
    | some b => cases b <;> cases all <;> rfl

end Rows

end RustScript.Js
