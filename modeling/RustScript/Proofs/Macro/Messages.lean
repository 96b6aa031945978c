/-
  The messages of assertions.

  An assertion splits its tokens, takes what it compares from the front and puts the rest together
  again, and the formatting of the message splits it once more. Parts that are put together are
  split as before (`split_commas_of_suffix`).
-/
import RustScript.Macro.Expand
import RustScript.Proofs.Macro.Splitting

namespace RustScript

theorem Arguments.split_commas_of_suffix {tokens : String} {parts rest : List String}
    (h : split tokens ',' = .ok parts) (hlast : parts.getLast? ≠ some "") (hrest : rest <:+ parts) :
    split (Js.commas rest) ',' = .ok rest := by
  obtain ⟨front, rfl⟩ := hrest
  cases rest with
  | nil => decide +kernel
  | cons part rest =>
    have hagain := split_commas h (show front.length < (front ++ part :: rest).length by simp)
    rw [List.drop_left] at hagain
    rwa [dropBlankEnd, if_neg] at hagain
    rwa [List.getLast?_append_of_ne_nil _ (List.cons_ne_nil part rest)] at hlast

namespace Macro

open Idiom (named)

variable {parts : List String} {tokens : String}

/-- The format of a call with these parts. -/
def formatOf (arg : String → Emit Js.Expr) : List String → Emit Js.Expr
  | [] => return .str ""
  | first :: parts => do
    let template ← Emit.ofExcept (Literal.decode first)
    let args ← given arg parts
    let pieces ← Emit.ofExcept (Template.pieces template)
    if pieces.any isSlot then return .template (← templateParts arg template args 0 pieces)
    else return .str template

/-- An assertion of the first of its arguments; the others are the message. -/
def assertionOf (arg : String → Emit Js.Expr) : List String → Emit Js.Expr
  | [] => throw (.mistake .assertWithoutCondition)
  | [cond] => return named "assert" [← arg cond, .str ("assertion failed: " ++ cond)]
  | cond :: message => return named "assert" [← arg cond, ← formatOf arg message]

/-- The comparison of a call with these parts. -/
def comparisonOf (negated : Bool) (arg : String → Emit Js.Expr) : List String → Emit Js.Expr
  | [left, right] =>
    return named "assert_eq" [← arg left, ← arg right, .atom "undefined",
      .atom (if negated then "true" else "false")]
  | left :: right :: message =>
    return named "assert_eq" [← arg left, ← arg right, ← formatOf arg message,
      .atom (if negated then "true" else "false")]
  | _ => throw (.mistake .assertWithoutOperands)

theorem format_eq (arg : String → Emit Js.Expr) (h : Arguments.split tokens ',' = .ok parts) :
    format arg tokens = formatOf arg parts := by
  rw [format, h]
  cases parts <;> rfl

theorem assertion_eq (arg : String → Emit Js.Expr) (h : Arguments.split tokens ',' = .ok parts)
    (hlast : parts.getLast? ≠ some "") : assertion arg tokens = assertionOf arg parts := by
  rw [assertion, h]
  cases parts with
  | nil => rfl
  | cons cond message =>
    cases message with
    | nil => rfl
    | cons first message =>
      have hmessage := Arguments.split_commas_of_suffix h hlast (List.suffix_cons cond _)
      change (do
        let code ← arg cond
        let text ← format arg (Js.commas (first :: message))
        return named "assert" [code, text]) = _
      rw [format_eq arg hmessage]
      rfl

theorem comparison_eq (negated : Bool) (arg : String → Emit Js.Expr)
    (h : Arguments.split tokens ',' = .ok parts) (hlast : parts.getLast? ≠ some "") :
    comparison negated arg tokens = comparisonOf negated arg parts := by
  rw [comparison, h]
  cases parts with
  | nil => rfl
  | cons left parts =>
    cases parts with
    | nil => rfl
    | cons right message =>
      cases message with
      | nil => rfl
      | cons first message =>
        have hmessage := Arguments.split_commas_of_suffix h hlast
          ((List.suffix_cons right _).trans (List.suffix_cons left _))
        change (do
          let left ← arg left
          let right ← arg right
          let text ← format arg (Js.commas (first :: message))
          return named "assert_eq" [left, right, text,
            .atom (if negated then "true" else "false")]) = _
        rw [format_eq arg hmessage]
        rfl

/-- If the last of the parts of a call is not empty, any of them at the end that are put together
    are split as before; so an assertion is expanded with the arguments of its message as they were
    written. -/
theorem assertions_keep_their_arguments {m : MacroCall} {parts : List String}
    (h : Arguments.split m.tokens ',' = .ok parts) (hlast : parts.getLast? ≠ some "")
    (arg : String → Emit Js.Expr) :
    (∀ rest, rest <:+ parts → Arguments.split (Js.commas rest) ',' = .ok rest) ∧
      (m.baseName = "assert" ∨ m.baseName = "debug_assert" → expand arg m = assertionOf arg parts) ∧
      (m.baseName = "assert_eq" → expand arg m = comparisonOf false arg parts) ∧
      (m.baseName = "assert_ne" → expand arg m = comparisonOf true arg parts) := by
  refine ⟨fun rest => Arguments.split_commas_of_suffix h hlast, ?_, ?_, ?_⟩
  · rintro (hname | hname) <;> rw [expand, hname] <;> exact assertion_eq arg h hlast
  · intro hname
    rw [expand, hname]
    exact comparison_eq false arg h hlast
  · intro hname
    rw [expand, hname]
    exact comparison_eq true arg h hlast

/-- Quotes at the edges of the arguments, one behind a backslash in a raw string. -/
theorem comparison_with_quotes_keeps_its_arguments :
    Arguments.split "x ,'y',\"m\" , r\"\\\" ,'b' " ',' =
        .ok ["x", "'y'", "\"m\"", "r\"\\\"", "'b'"] ∧
      Arguments.split (Js.commas ["r\"\\\"", "'b'"]) ',' = .ok ["r\"\\\"", "'b'"] ∧
      expand (fun text => return .atom text)
          ⟨"std::assert_ne", "x ,'y',\"m\" , r\"\\\" ,'b' "⟩ =
        comparisonOf true (fun text => return .atom text)
          ["x", "'y'", "\"m\"", "r\"\\\"", "'b'"] := by
  have h : Arguments.split "x ,'y',\"m\" , r\"\\\" ,'b' " ',' =
      .ok ["x", "'y'", "\"m\"", "r\"\\\"", "'b'"] := by decide +kernel
  have hkept := @assertions_keep_their_arguments
    ⟨"std::assert_ne", "x ,'y',\"m\" , r\"\\\" ,'b' "⟩ _ h (by decide +kernel)
    (fun text => return .atom text)
  exact ⟨h, hkept.1 _ (by decide +kernel), hkept.2.2.2 (by decide +kernel)⟩

end Macro

end RustScript
