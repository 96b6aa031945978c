/-
  Code around code.

  What is put into the hole of a context stands in the code once (`Context.text_fill`), and nothing
  runs it more often than the code around it. Not behind an operator that may pass over its right
  operand, it is run whenever the code around it is run to its end (`Context.isStrict`).
-/
import RustScript.Proofs.Layout.Printed

namespace RustScript.Js

/-! ## Lists with commas -/

/-- The texts with a comma behind each. -/
def leading (texts : List String) : String := String.join (texts.map (· ++ ", "))

/-- The texts with a comma in front of each. -/
def trailing (texts : List String) : String := String.join (texts.map (", " ++ ·))

theorem commas_cons (text : String) (texts : List String) :
    commas (text :: texts) = text ++ trailing texts := by
  induction texts generalizing text with
  | nil => simp [commas, trailing]
  | cons next texts ih =>
    rw [commas, String.intercalate_cons_of_ne_nil (by simp)]
    change text ++ ", " ++ commas (next :: texts) = _
    rw [ih]
    simp [trailing, String.append_assoc]

theorem commas_append_cons (before : List String) (text : String) (after : List String) :
    commas (before ++ text :: after) = leading before ++ text ++ trailing after := by
  induction before with
  | nil => simp [commas_cons, leading]
  | cons first before ih =>
    rw [List.cons_append, commas, String.intercalate_cons_of_ne_nil (by simp)]
    change first ++ ", " ++ commas (before ++ text :: after) = _
    rw [ih]
    simp [leading, String.append_assoc]

/-! ## Contexts -/

/-- An expression with one hole. -/
inductive Context where
  | hole
  | paren (inner : Context)
  | left (op : String) (inner : Context) (right : Expr)
  | right (op : String) (left : Expr) (inner : Context)
  | callee (inner : Context) (args : List Expr)
  | argument (func : Expr) (before : List Expr) (inner : Context) (after : List Expr)
  | member (inner : Context) (name : String)
  | index (inner : Context) (index : Expr)
  /-- The value of the only property of an object literal. -/
  | property (name : String) (inner : Context)
  | spread (inner : Context)

/-- The operators that may pass over their right operand. -/
def shortCircuits : List String := ["&&", "||", "??"]

namespace Context

/-- The context with code in its hole. -/
def fill (e : Expr) : Context → Expr
  | hole => e
  | paren c => .paren (c.fill e)
  | left op c r => .binary op (c.fill e) r
  | right op l c => .binary op l (c.fill e)
  | callee c args => .call (c.fill e) args
  | argument f before c after => .call f (before ++ c.fill e :: after)
  | member c name => .member (c.fill e) name
  | index c i => .index (c.fill e) i
  | property name c => .object [.pair name (c.fill e)]
  | spread c => .spread (c.fill e)

/-- Whether the hole is run whenever the code is run to its end. -/
def isStrict : Context → Bool
  | hole => true
  | paren c => c.isStrict
  | left _ c _ => c.isStrict
  | right op _ c => !shortCircuits.contains op && c.isStrict
  | callee c _ => c.isStrict
  | argument _ _ c _ => c.isStrict
  | member c _ => c.isStrict
  | index c _ => c.isStrict
  | property _ c => c.isStrict
  | spread c => c.isStrict

/-- The text in front of the hole. -/
def front : Context → String
  | hole => ""
  | paren c => "(" ++ c.front
  | left _ c _ => c.front
  | right op l c => l.text ++ " " ++ op ++ " " ++ c.front
  | callee c _ => c.front
  | argument f before c _ => f.text ++ "(" ++ leading (exprTexts before) ++ c.front
  | member c _ => c.front
  | index c _ => c.front
  | property name c => "\x7b " ++ name ++ ": " ++ c.front
  | spread c => "..." ++ c.front

/-- The text behind the hole. -/
def back : Context → String
  | hole => ""
  | paren c => c.back ++ ")"
  | left op c r => c.back ++ " " ++ op ++ " " ++ r.text
  | right _ _ c => c.back
  | callee c args => c.back ++ "(" ++ commas (exprTexts args) ++ ")"
  | argument _ _ c after => c.back ++ trailing (exprTexts after) ++ ")"
  | member c name => c.back ++ "." ++ name
  | index c i => c.back ++ "[" ++ i.text ++ "]"
  | property _ c => c.back ++ " \x7d"
  | spread c => c.back

theorem exprTexts_append_cons (before : List Expr) (e : Expr) (after : List Expr) :
    exprTexts (before ++ e :: after) = exprTexts before ++ e.text :: exprTexts after := by
  induction before with
  | nil => rw [List.nil_append, exprTexts]; rfl
  | cons b before ih => rw [List.cons_append, exprTexts, ih, exprTexts, List.cons_append]

/-- The text in the hole stands once between texts that do not depend on it. -/
theorem text_fill (c : Context) (e : Expr) : (c.fill e).text = c.front ++ e.text ++ c.back := by
  induction c with
  | hole => simp [fill, front, back]
  | argument f before c after ih =>
    rw [fill, Expr.text, exprTexts_append_cons, commas_append_cons, ih]
    simp only [front, back, String.append_assoc]
  | property name c ih =>
    rw [fill, Expr.text, propTexts, propTexts, ih, commas, String.intercalate_singleton]
    simp only [front, back, String.append_assoc]
  | _ => simp_all only [fill, Expr.text, front, back, String.append_assoc]

/-- What is built from an expression is the context with the expression in the hole, and so is its
    text. -/
def Surrounds (c : Context) (build : Expr → Option Expr) : Prop :=
  ∀ e, build e = some (c.fill e) ∧ (c.fill e).text = c.front ++ e.text ++ c.back

theorem Surrounds.of_eq {c : Context} {build : Expr → Option Expr}
    (h : ∀ e, build e = some (c.fill e)) : c.Surrounds build :=
  fun e => ⟨h e, c.text_fill e⟩

/-- No context has the same text whatever is in its hole. -/
theorem not_surrounds_const (c : Context) (code : Expr) : ¬ c.Surrounds fun _ => some code := by
  intro h

  have hone := congrArg (fun o => (o.map (·.text.length)))
    ((h (.atom "")).1.symm.trans (h (.atom "x")).1)
  simp [text_fill, Expr.text] at hone

end Context

end RustScript.Js
