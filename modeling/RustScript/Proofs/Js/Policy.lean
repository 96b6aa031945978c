/-
  Rules that emitted code keeps.

  A policy says which of four rules are in force, and `Obeys` asks of every node what they demand
  there. A statement is judged at its site: what surrounds it up to the innermost JavaScript
  function. Arrow functions that stand for statements used as a value are functions to JavaScript,
  but what `?` throws passes through them to the function of the source.
-/
import RustScript.Js.Print
import RustScript.Proofs.Layout.Neutral

namespace RustScript.Js

open Layout (Neutral)

/-- Which rules are in force. -/
structure Policy where
  /-- The text leaves the brackets as it found them. -/
  neutral : Prop := False
  /-- Jumps of the source stay inside their JavaScript function and reach what they name. -/
  jumps : Prop := False
  /-- What `?` throws is caught by the function of the source around it. -/
  tries : Prop := False
  /-- What is awaited is awaited directly in an asynchronous JavaScript function. -/
  awaits : Prop := False

/-- What surrounds an expression. -/
structure Around where
  caught : Bool := false
  isAsync : Bool := false

/-- What surrounds a statement, up to the innermost JavaScript function. -/
structure Site extends Around where
  /-- The statement belongs to the body of a function of the source itself. -/
  isBody : Bool := false
  /-- The innermost function only stands for a value. -/
  inValue : Bool := false
  inLoop : Bool := false
  labels : List String := []

namespace Site

/-- The site of the statements of a function. -/
def body (isAsync : Bool) : Site := { isBody := true, isAsync }

/-- The site inside a block. -/
def inner (site : Site) : Site := { site with isBody := false }

/-- The site inside a statement with a label. -/
def labelled (site : Site) (label : Option String) : Site :=
  { site.inner with labels := label.toList ++ site.labels }

/-- The site inside a loop. -/
def looped (site : Site) (label : Option String) : Site :=
  { site.labelled label with inLoop := true }

/-- A jump without a label needs a loop around it, and one with a label a statement that has it.
    An empty label would be printed like none. -/
def Reaches (site : Site) : Option String → Prop
  | none => site.inLoop = true
  | some label => label ≠ "" ∧ label ∈ site.labels

/-- The body of a function that only stands for a value or helps the code around it. -/
def value (around : Around) (isAsync : Bool) : Site :=
  { caught := around.caught, inValue := true, isAsync }

end Site

/-- The text is neutral if it has to be. -/
def Policy.Text (P : Policy) (text : String) : Prop := P.neutral → Neutral text.toList

/-- The label is neutral if there is one and it has to be. -/
def Policy.Label (P : Policy) (label : Option String) : Prop := ∀ name ∈ label, P.Text name

/-- The text of a chunk. -/
def Part.text? : Part → Option String
  | .chunk value => some value
  | .slot _ => none

/-- What the first text that is not empty begins with. -/
def firstChar? : List (Option String) → Option Char
  | some text :: row => text.toList.head?.or (firstChar? row)
  | _ => none

/-- No text that ends in a dollar sign is followed by one that begins with a brace. Together they
    would open a value inside the template literal. -/
def joinsSafely : List (Option String) → Bool
  | [] => true
  | none :: row => joinsSafely row
  | some text :: row =>
    !(text.toList.getLast? == some '$' && firstChar? row == some '\x7b') && joinsSafely row

section

variable (P : Policy)

mutual

/-- The expression keeps the rules in its surroundings. -/
def Expr.Obeys (around : Around) : Expr → Prop
  | .atom text => P.Text text
  | .str _ => True
  | .template parts =>
    (P.neutral → joinsSafely (parts.map Part.text?) = true) ∧ partsObey around parts
  | .paren e => e.Obeys around
  | .unary op e => P.Text op ∧ e.Obeys around
  | .binary op l r => P.Text (" " ++ op ++ " ") ∧ l.Obeys around ∧ r.Obeys around
  | .ternary c y n => c.Obeys around ∧ y.Obeys around ∧ n.Obeys around
  | .call f args => f.Obeys around ∧ exprsObey around args
  | .construct type args => P.Text type ∧ exprsObey around args
  | .member e name => P.Text name ∧ e.Obeys around
  | .index e i => e.Obeys around ∧ i.Obeys around
  | .array elems => exprsObey around elems
  | .object props => propsObey around props
  | .arrow .source isAsync params body => P.Text (paramsText params) ∧ body.Obeys { isAsync }
  | .arrow .value isAsync params body | .arrow .helper isAsync params body =>
    P.Text (paramsText params) ∧ body.Obeys { around with isAsync }
  | .arrowBlock .source isAsync params body =>
    P.Text (paramsText params) ∧ blockObeys (.body isAsync) body
  | .arrowBlock .value isAsync params body | .arrowBlock .helper isAsync params body =>
    P.Text (paramsText params) ∧ blockObeys (.value around isAsync) body
  | .await e => (P.awaits → around.isAsync = true) ∧ e.Obeys around
  | .tryUnwrap e => (P.tries → around.caught = true) ∧ e.Obeys around
  | .spread e => e.Obeys around
  | .note e comment => P.Text ("/* " ++ comment ++ " */") ∧ e.Obeys around
  | .tests ts => P.Text (Test.condition ts)

def exprsObey (around : Around) : List Expr → Prop
  | [] => True
  | e :: es => e.Obeys around ∧ exprsObey around es

def partsObey (around : Around) : List Part → Prop
  | [] => True
  | .chunk _ :: ps => partsObey around ps
  | .slot e :: ps => e.Obeys around ∧ partsObey around ps

def propsObey (around : Around) : List Property → Prop
  | [] => True
  | .short name :: ps => P.Text name ∧ propsObey around ps
  | .pair name value :: ps => P.Text name ∧ value.Obeys around ∧ propsObey around ps

/-- The statement keeps the rules at its site. A handler stands in the body of a function of the
    source and nowhere deeper. -/
def Stmt.Obeys (site : Site) : Stmt → Prop
  | .expr e => e.Obeys site.toAround
  | .deliver tail e => P.Text tail.lead ∧ e.Obeys site.toAround
  | .exit tail e label => P.Text tail.lead ∧ e.Obeys site.toAround ∧
    (tail.returns = false → (P.jumps → site.Reaches label) ∧ P.Label label)
  | .declare _ binding none => P.Text binding.text
  | .declare _ binding (some e) => P.Text binding.text ∧ e.Obeys site.toAround
  | .block label body => P.Label label ∧ blockObeys (site.labelled label) body
  | .branch branches otherwise =>
    (P.neutral → branches ≠ []) ∧ branchesObey site branches ∧ otherwiseObeys site otherwise
  | .whileLoop label c body =>
    P.Label label ∧ c.Obeys site.toAround ∧ blockObeys (site.looped label) body
  | .forOf label _ binding source body =>
    P.Label label ∧ P.Text binding.text ∧ source.Obeys site.toAround ∧
      blockObeys (site.looped label) body
  | .countUp label var first limit bound _ body | .countDown label var first limit bound body =>
    P.Label label ∧ P.Text var ∧ P.Label limit ∧
      first.Obeys site.toAround ∧ bound.Obeys site.toAround ∧ blockObeys (site.looped label) body
  | .ret none => P.jumps → site.inValue = false
  | .ret (some e) => (P.jumps → site.inValue = false) ∧ e.Obeys site.toAround
  | .brk label | .cont label => (P.jumps → site.Reaches label) ∧ P.Label label
  | .breakUnless c => (P.jumps → site.inLoop = true) ∧ c.Obeys site.toAround
  | .leave label => (P.jumps → label ∈ site.labels) ∧ P.Text label
  | .function isAsync name params body =>
    P.Text name ∧ P.Text (paramsText params) ∧ blockObeys (.body isAsync) body
  | .catchTry body => site.isBody = true ∧ blockObeys { site.inner with caught := true } body

def blockObeys (site : Site) : List Stmt → Prop
  | [] => True
  | s :: ss => s.Obeys site ∧ blockObeys site ss

def branchesObey (site : Site) : List Branch → Prop
  | [] => True
  | .mk c body :: rest => c.Obeys site.toAround ∧ blockObeys site.inner body ∧ branchesObey site rest

def otherwiseObeys (site : Site) : Option (List Stmt) → Prop
  | none => True
  | some body => blockObeys site.inner body

end

variable {P}

theorem Stmt.obeys_branch {site : Site} {c : Expr} {body : List Stmt} {rest : List Branch}
    {otherwise : Option (List Stmt)} : (Stmt.branch (.mk c body :: rest) otherwise).Obeys P site ↔
      branchesObey P site (.mk c body :: rest) ∧ otherwiseObeys P site otherwise := by
  rw [Stmt.Obeys]
  exact and_iff_right fun _ => List.cons_ne_nil _ _

end

end RustScript.Js
