/-
  Paths into modules.

  Struct literals and patterns look at the last segment of a path only, so that they do not tell the
  path from the type's name. A call does: with the name alone it constructs an object, behind a
  module it calls a function.
-/
import RustScript.Proofs.Idiom.Erased

namespace RustScript

open Name (isCapitalized isConstant target)

variable {segments : List String} {m type : String}

theorem Path.isVariant_eq (h : lastTwo? segments = some (m, type)) :
    isVariant segments = isCapitalized m := by
  rw [isVariant, h]

theorem Path.last_eq (h : lastTwo? segments = some (m, type)) : last segments = .ok type := by
  rw [last, getLast?_of_lastTwo? h]

theorem ne_self_of_not_isCapitalized (h : isCapitalized m = false) : ¬(m == "Self") = true := by
  intro heq
  rw [beq_iff_eq.mp heq] at h
  exact absurd h (by decide)

/-- The name of a type as a value, where it is no local. -/
def nameOf (type : String) : String := if type == "None" then "null" else target type

theorem Idiom.constant?_ne {code : String} (h : constant? m type = some code) :
    code ≠ nameOf type := by
  unfold constant? at h
  split at h
  case h_16 => cases h
  all_goals
    cases h
    decide

theorem Idiom.associated?_of_isCapitalized (h : isCapitalized type = true)
    (args : List Js.Expr) : associated? m type args = none := by
  have hform : callForm? m type = none := by
    unfold callForm?
    split
    case h_18 => rfl
    all_goals exact absurd h (by decide)
  unfold associated?
  rw [hform]

theorem Idiom.numeric?_of_isCapitalized (h : isCapitalized type = true)
    (args : List Js.Expr) : numeric? m type args = none := by
  have hmath : mathFunctions.contains type = false := by
    have hnone : ∀ func ∈ mathFunctions, isCapitalized func = false := by decide
    refine Bool.eq_false_iff.mpr fun hmem => ?_
    rw [hnone type (List.contains_iff_mem.mp hmem)] at h
    cases h
  unfold numeric?
  rw [hmath]
  split
  · rw [if_neg Bool.false_ne_true]
    split
    · exact absurd h (by decide)
    · rfl
  · rfl

namespace Emit

variable {expand : MacroCall → Emit Js.Expr} {place : Place} {s t : State} {args : List Expr}
  {codes : List Js.Expr}

theorem path_eq (hpath : Path.lastTwo? segments = some (m, type)) (hm : isCapitalized m = false) :
    path segments = pure (.atom ((Idiom.constant? m type).getD (nameOf type))) := by
  unfold path
  split
  · cases hpath
  · rw [hpath]
    dsimp only
    cases Idiom.constant? m type with
    | some code => rfl
    | none =>
      rw [nameOf, Option.getD_none, typeName, if_neg (ne_self_of_not_isCapitalized hm)]
      dsimp only
      split
      · rfl
      · rw [pure_bind, hm, if_neg Bool.false_ne_true]

theorem ident_type (htype : isCapitalized type = true) (hself : type ≠ "Self")
    (hfree : Scopes.lookup type s.scopes.layers = none) :
    ident type place s = (.ok (nameOf type), s) := by
  have hresolve : s.scopes.resolve type = target type := by
    rw [Scopes.resolve, hfree, Option.getD_none]
  unfold ident
  split
  · exact absurd htype (by decide)
  · exact absurd rfl hself
  · rfl
  · next hnone => rw [hresolve, nameOf, if_neg fun heq => hnone (beq_iff_eq.mp heq)]

theorem callPath_eq (hpath : Path.lastTwo? segments = some (m, type))
    (hm : isCapitalized m = false) (htype : isCapitalized type = true) :
    callPath segments codes = pure (.call (.atom (target type)) codes) := by
  unfold callPath
  rw [hpath]
  dsimp only
  rw [typeName, if_neg (ne_self_of_not_isCapitalized hm), pure_bind,
    Idiom.associated?_of_isCapitalized htype, Idiom.numeric?_of_isCapitalized htype, hm,
    if_neg Bool.false_ne_true]
  rfl

theorem callName_eq (hself : type ≠ "Self") (hstruct : (place.structs.lookup type).isSome = true) :
    callName type codes place s = (.ok (.construct type codes), s) := by
  have hknown : (type == "Self" || (place.structs.lookup type).isSome) = true := by
    rw [hstruct, Bool.or_true]
  have htype : typeName type = pure type := if_neg fun heq => hself (beq_iff_eq.mp heq)
  unfold callName
  rw [bind_of_ok (show (read : Emit Place) place s = (.ok place, s) from rfl), if_pos hknown, htype]
  rfl

theorem call_path_eq (hpath : Path.lastTwo? segments = some (m, type))
    (hm : isCapitalized m = false) (htype : isCapitalized type = true)
    (hargs : exprs expand args place s = (.ok codes, t)) :
    expr expand (.call (.path segments) args) .value place s =
      (.ok ((wrapped? type args codes).getD (.call (.atom (target type)) codes)), t) := by
  rw [expr, Path.last_eq hpath]
  change (exprs expand args >>= fun codes => _) place s = _
  rw [bind_of_ok hargs]
  cases wrapped? type args codes with
  | some code => rfl
  | none =>
    rw [callPath_eq hpath hm htype]
    rfl

theorem call_ident_eq (hself : type ≠ "Self") (hstruct : (place.structs.lookup type).isSome = true)
    (hargs : exprs expand args place s = (.ok codes, t)) :
    expr expand (.call (.ident type) args) .value place s =
      (.ok ((wrapped? type args codes).getD (.construct type codes)), t) := by
  rw [expr]
  change (exprs expand args >>= fun codes => _) place s = _
  rw [bind_of_ok hargs]
  cases wrapped? type args codes with
  | some code => rfl
  | none => exact callName_eq hself hstruct

end Emit

theorem Pat.compile_path_eq_iff (hpath : Path.lastTwo? segments = some (m, type))
    (vocab : Vocabulary) (access : Js.Access) :
    (Pat.path segments).compile vocab access = (Pat.path [type]).compile vocab access ↔
      isConstant type = false := by
  have hlength : (segments.length == 1) = false := by
    rcases segments with _ | ⟨a, _ | ⟨b, rest⟩⟩
    · cases hpath
    · cases hpath
    · rfl
  have hlong : (Pat.path segments).compile vocab access =
      .ok (.test (if type == "None" then .isNull access else .equals access (.word type))) := by
    rw [Pat.compile, Path.last_eq hpath, hlength]
    cases hnone : type == "None" <;> (simp [bind, Except.bind, hnone]; rfl)
  have hshort : (Pat.path [type]).compile vocab access =
      .ok (.test (if type == "None" then .isNull access
        else .equals access (if isConstant type then .constant (vocab.scopes.resolve type)
          else .word type))) := by
    rw [Pat.compile, show Path.last [type] = .ok type from rfl]
    cases hnone : type == "None" <;> cases hconstant : isConstant type <;>
      (simp [bind, Except.bind, hnone, hconstant]; rfl)
  rw [hlong, hshort]
  cases hnone : type == "None" with
  | true =>
    rw [beq_iff_eq.mp hnone]
    exact iff_of_true rfl (by decide)
  | false =>
    cases isConstant type with
    | true => exact iff_of_false (fun heq => by cases heq) Bool.noConfusion
    | false => exact iff_of_true rfl rfl

/-! ## The main statement -/

open Emit in
/-- A struct literal, a struct pattern and a tuple-struct pattern with a path into a module are those
    with the type's name alone, in a match and in a binding. An expression is unless the path is
    that of a constant, a pattern of a path unless the name looks like that of a constant, and a
    call only if it wraps its argument. -/
theorem module_path_flattens_iff {expand : MacroCall → Emit Js.Expr} {place : Place} {s : State}
    {segments : List String} {m type : String} (hpath : Path.lastTwo? segments = some (m, type))
    (hm : isCapitalized m = false) (htype : isCapitalized type = true)
    (hself : type ≠ "Self") (hstruct : (place.structs.lookup type).isSome = true)
    (hfree : Scopes.lookup type s.scopes.layers = none) :
    (expr expand (.path segments) .value place s = expr expand (.ident type) .value place s ↔
      Idiom.constant? m type = none) ∧
    (∀ args codes t, exprs expand args place s = (.ok codes, t) →
      (expr expand (.call (.path segments) args) .value place s =
          expr expand (.call (.ident type) args) .value place s ↔
        (wrapped? type args codes).isSome = true)) ∧
    (∀ fields base pos, expr expand (.structLit segments fields base) pos =
      expr expand (.structLit [type] fields base) pos) ∧
    (∀ fields rest, destructure (.struct segments fields rest) =
      destructure (.struct [type] fields rest)) ∧
    (∀ elems, destructure (.tupleStruct segments elems) = destructure (.tupleStruct [type] elems)) ∧
    ∀ (vocab : Vocabulary) (access : Js.Access),
      (∀ fields rest, (Pat.struct segments fields rest).compile vocab access =
        (Pat.struct [type] fields rest).compile vocab access) ∧
      (∀ elems, (Pat.tupleStruct segments elems).compile vocab access =
        (Pat.tupleStruct [type] elems).compile vocab access) ∧
      ((Pat.path segments).compile vocab access = (Pat.path [type]).compile vocab access ↔
        isConstant type = false) := by
  have hlast := Path.last_eq hpath
  have hvariant : Path.isVariant segments = false := (Path.isVariant_eq hpath).trans hm
  refine ⟨?_, fun args codes t hargs => ?_, fun fields base pos => ?_, fun fields rest => ?_,
    fun elems => ?_, fun vocab access => ⟨fun fields rest => ?_, fun elems => ?_, ?_⟩⟩
  · rw [expr, expr]
    change path segments place s = (ident type >>= fun name => pure (.atom name)) place s ↔ _
    rw [path_eq hpath hm, bind_of_ok (ident_type htype hself hfree)]
    cases hconstant : Idiom.constant? m type with
    | none => exact iff_of_true rfl rfl
    | some code =>
      refine iff_of_false (fun heq => Idiom.constant?_ne hconstant ?_) (Option.some_ne_none _)
      exact Js.Expr.atom.inj (Except.ok.inj (Prod.mk.inj heq).1)
  · rw [call_path_eq hpath hm htype hargs, call_ident_eq hself hstruct hargs]
    cases wrapped? type args codes with
    | some code => exact iff_of_true rfl rfl
    | none => exact iff_of_false (fun heq => by cases heq) Bool.false_ne_true
  · have hlit (values : List (String × Js.Expr)) (base : Option (Emit Js.Expr)) :
        structLit segments values base = structLit [type] values base := by
      unfold structLit
      rw [hlast, hvariant]
      rfl
    simp only [expr, hlit]
  · rw [destructure, destructure, hvariant]
    rfl
  · rw [destructure, destructure, hvariant, hlast]
    rfl
  · rw [Pat.compile, Pat.compile, hvariant, Path.getLast?_of_lastTwo? hpath]
    rfl
  · have harity : vocab.arity? segments type = vocab.arity? [type] type := by
      unfold KnownTypes.arity?
      rw [hvariant]
      rfl
    have hlayout : vocab.layout access segments type elems =
        vocab.layout access [type] type elems := by
      unfold Vocabulary.layout
      rw [harity]
    have halone : Path.last [type] = .ok type := rfl
    simp only [Pat.compile, hlast, halone, bind, Except.bind, hlayout]
  · exact Pat.compile_path_eq_iff hpath vocab access

/-- The struct `Point` of a module, in a literal and in a pattern of its slots. -/
theorem point_of_module_flattens :
    let place : Place := { structs := [("Point", ["x", "y"])] }
    let vocab : Vocabulary := ⟨⟨none, place.structs⟩, {}⟩
    let lit (path : List String) : Js.Expr → Prop := fun code =>
      Emit.expr (fun _ => throw (.fault .nesting))
        (.structLit path [⟨"y", .lit (.int 2)⟩, ⟨"x", .lit (.int 1)⟩] none) .value place {} =
          (.ok code, {})
    lit ["geo", "Point"] (.construct "Point" [.atom "1", .atom "2"]) ∧
      (Pat.tupleStruct ["geo", "Point"] [.wild]).compile vocab (.root "p") =
        (Pat.tupleStruct ["Point"] [.wild]).compile vocab (.root "p") := by
  intro place vocab lit
  obtain ⟨-, -, hlit, -, -, hpat⟩ := @module_path_flattens_iff
    (fun _ => throw (.fault .nesting)) place {} ["geo", "Point"] "geo" "Point" rfl
    (by decide) (by decide) (by decide) rfl rfl
  exact ⟨congrFun (congrFun (hlit _ _ .value) place) {}, (hpat _ _).2.1 _⟩

/-- A call of the constructor through the module calls a function. -/
theorem constructor_call_through_module_is_no_construction :
    let place : Place := { structs := [("Point", ["x"])] }
    let read (func : Expr) := (Emit.expr (fun _ => throw (.fault .nesting))
      (.call func [.lit (.int 1)]) .value place {}).1.map Js.Expr.text
    read (.path ["geo", "Point"]) = .ok "Point(1)" ∧ read (.ident "Point") = .ok "new Point(1)" :=
  ⟨rfl, rfl⟩

end RustScript
