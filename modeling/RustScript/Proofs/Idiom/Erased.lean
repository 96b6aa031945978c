/-
  Wrappers that leave no trace.

  A call such as `Some(e)` or `Box::new(e)` is emitted as the code of `e` (`Expr.Erases`). To the
  code around it it looks like a call, which needs no parentheses. So the code of `e` stays one
  operand exactly if it binds tight enough for its place.
-/
import RustScript.Proofs.Emit.Operators
import RustScript.Proofs.Emit.Sums
import RustScript.Proofs.Idiom.Operands

namespace RustScript

open Js (Seat IsExpr)
open Emit (exists_of_bind exists_of_return exists_of_both)
open Js.Expr (isRead_atom phrase leaf)

/-! ## What is erased -/

/-- The call is emitted as the code of its argument, in parentheses or not. -/
inductive Expr.Erases (place : Place) : (inParens : Bool) → (wrapper e : Expr) → Prop where
  | optional (e : Expr) : Erases place e.isCompound (.call (.ident "Some") [e]) e
  | optionalAt {segments : List String} (e : Expr) : segments.getLast? = some "Some" →
      Erases place e.isCompound (.call (.path segments) [e]) e
  | holder {segments : List String} {owner func : String} (e : Expr) :
      Path.lastTwo? segments = some (owner, func) →
      Idiom.callForm? (place.typeWord owner) func = some .first →
      Erases place false (.call (.path segments) [e]) e
  | deref {inParens : Bool} {wrapper e : Expr} :
      Erases place inParens wrapper e → Erases place inParens (.deref wrapper) e
  | ref {inParens : Bool} {wrapper e : Expr} (isMutable : Bool) :
      Erases place inParens wrapper e → Erases place inParens (.ref wrapper isMutable) e
  | identity {inParens : Bool} {wrapper e : Expr} {method : String} {args : List Expr} :
      method ∈ Idiom.identities → args.length ≤ 1 →
      Erases place inParens wrapper e →
      Erases place inParens (.methodCall wrapper method args) e

/-- The code is the other code, in parentheses or not, and perhaps with comments behind it. -/
inductive Js.Expr.Shows (own : Js.Expr) : (inParens : Bool) → Js.Expr → Prop where
  | itself : Shows own false own
  | paren {code : Js.Expr} : Shows own false code → Shows own true (.paren code)
  | note {inParens : Bool} {code : Js.Expr} :
      Shows own inParens code → Shows own inParens (.note code "was &mut")

namespace Js.Expr.Shows

variable {own code : Js.Expr} {inParens : Bool}

theorem parenIf (h : own.Shows false code) (needed : Bool) :
    own.Shows needed (code.parenIf needed) := by
  cases needed
  · exact h
  · exact h.paren

theorem groupsAs {p : Phrase} (h : own.Shows inParens code) (hown : GroupsAs own.text p) :
    GroupsAs code.text (if inParens then .paren p else p) := by
  induction h with
  | itself => exact hown
  | paren _ ih => exact ih.paren
  | note _ ih => exact ih.note (by decide)

theorem head?_text (h : own.Shows true code) : code.text.toList.head? = some '(' := by
  generalize hparens : true = inParens at h
  induction h with
  | itself => cases hparens
  | paren => simp [Js.Expr.text]
  | note _ ih =>
    rw [Js.Expr.text, String.append_assoc, String.append_assoc, String.toList_append]
    rw [List.head?_append, ih hparens]
    rfl

end Js.Expr.Shows

namespace Expr.Erases

variable {place : Place} {inParens : Bool} {wrapper e : Expr}
  (h : Erases place inParens wrapper e)

include h

theorem isCall :
    (∃ func args, wrapper.stripBorrows = .call func args) ∨
      ∃ receiver method args, wrapper.stripBorrows = .methodCall receiver method args := by
  induction h with
  | optional | optionalAt | holder => exact .inl ⟨_, _, rfl⟩
  | deref _ ih | ref _ _ ih => exact ih
  | identity => exact .inr ⟨_, _, _, rfl⟩

theorem isCompound_eq : wrapper.isCompound = false := by
  unfold isCompound
  obtain ⟨_, _, h⟩ | ⟨_, _, _, h⟩ := h.isCall <;> rw [h]

theorem isCompoundTarget_eq : wrapper.isCompoundTarget = false := by
  unfold isCompoundTarget
  obtain ⟨_, _, h⟩ | ⟨_, _, _, h⟩ := h.isCall <;> rw [h]

theorem isHost_eq : wrapper.isHost = false := by
  unfold isHost
  obtain ⟨_, _, h⟩ | ⟨_, _, _, h⟩ := h.isCall <;> rw [h]

theorem isSimple_eq : wrapper.isSimple = false := by
  induction h with
  | optional | optionalAt | holder => rfl
  | deref _ ih | ref _ _ ih => exact ih
  | identity => rfl

theorem text?_eq : wrapper.text? = none := by
  unfold text?
  obtain ⟨_, _, h⟩ | ⟨_, _, _, h⟩ := h.isCall <;> rw [h]

theorem isLooseIn_eq (op : String) : wrapper.isLooseIn op = false := by cases h <;> rfl

end Expr.Erases

/-! ## What it is emitted as -/

section Emission

variable {expand : MacroCall → Emit Js.Expr} {place : Place} {s t : State}

theorem Emit.exists_of_exprs_singleton {e : Expr} {codes : List Js.Expr}
    (h : Emit.exprs expand [e] place s = (.ok codes, t)) :
    ∃ own, codes = [own] ∧ Emit.expr expand e .value place s = (.ok own, t) := by
  obtain ⟨own, hown, rfl⟩ := exists_of_return h
  exact ⟨own, rfl, hown⟩

theorem Idiom.eq_new_of_callForm? {type func : String} (h : callForm? type func = some .first) :
    func = "new" := by
  unfold callForm? at h
  split at h <;> first | rfl | cases h

theorem Path.getLast?_of_lastTwo? {segments : List String} {owner func : String}
    (h : Path.lastTwo? segments = some (owner, func)) : segments.getLast? = some func := by
  unfold Path.lastTwo? at h
  split at h
  · next func' owner' rest hrest =>
    cases h
    rw [← List.head?_reverse, hrest]
    rfl
  · cases h

variable {inParens : Bool} {wrapper e : Expr} {code : Js.Expr}

theorem Expr.Erases.exists_shows (h : Erases place inParens wrapper e)
    (hrun : Emit.expr expand wrapper .value place s = (.ok code, t)) :
    ∃ own u, Emit.expr expand e .value place s = (.ok own, u) ∧ own.Shows inParens code := by
  induction h generalizing t code with
  | optional e =>
    obtain ⟨codes, u, hcodes, hrun⟩ := exists_of_bind hrun
    obtain ⟨own, rfl, hown⟩ := Emit.exists_of_exprs_singleton hcodes
    cases hrun
    exact ⟨own, _, hown, Js.Expr.Shows.itself.parenIf _⟩
  | optionalAt e hlast =>
    obtain ⟨name, u, hname, hrun⟩ := exists_of_bind hrun
    obtain ⟨hsome, rfl⟩ := Emit.last_eq_ok hname
    obtain rfl : "Some" = name := Option.some.inj (hlast.symm.trans hsome)
    obtain ⟨codes, u, hcodes, hrun⟩ := exists_of_bind hrun
    obtain ⟨own, rfl, hown⟩ := Emit.exists_of_exprs_singleton hcodes
    cases hrun
    exact ⟨own, _, hown, Js.Expr.Shows.itself.parenIf _⟩
  | @holder segments owner func e hpath hform =>
    obtain ⟨name, u, hname, hrun⟩ := exists_of_bind hrun
    obtain ⟨hlast, rfl⟩ := Emit.last_eq_ok hname
    obtain rfl := Option.some.inj ((Path.getLast?_of_lastTwo? hpath).symm.trans hlast)
    obtain rfl := Idiom.eq_new_of_callForm? hform
    obtain ⟨codes, u, hcodes, hrun⟩ := exists_of_bind hrun
    obtain ⟨own, rfl, hown⟩ := Emit.exists_of_exprs_singleton hcodes
    have hrun : Emit.callPath _ [own] place u = (.ok code, t) := hrun
    rw [Emit.callPath, hpath] at hrun
    obtain ⟨type, v, htype, hrun⟩ := exists_of_bind hrun
    obtain rfl := Emit.typeName_eq_ok htype
    have hfirst : Idiom.associated? (place.typeWord owner) "new" [own] = some own := by
      simp only [Idiom.associated?, hform]
    rw [hfirst] at hrun
    cases hrun
    exact ⟨_, _, hown, .itself⟩
  | deref _ ih => exact ih hrun
  | @ref inParens wrapper e isMutable _ ih =>
    obtain ⟨inner, hinner, rfl⟩ := exists_of_return hrun
    obtain ⟨own, v, hown, hshows⟩ := ih hinner
    refine ⟨own, v, hown, ?_⟩
    unfold Emit.borrow
    split
    · exact hshows.note
    · exact hshows
  | @identity inParens wrapper e method args hmethod hargs hwrapper ih =>
    obtain ⟨recv, codes, u, hrecv, hcodes, rfl⟩ := exists_of_both hrun
    obtain ⟨own, v, hown, hshows⟩ := ih hrecv
    refine ⟨own, v, hown, ?_⟩
    have hlength : codes.length ≤ 1 := (Emit.length_of_exprs hcodes).trans_le hargs
    have hitself : Idiom.method? recv method codes wrapper.isSimple wrapper.isHost = some recv := by
      simp [Idiom.method?, hwrapper.isHost_eq, hmethod, hlength]
    rwa [Emit.methodCall, hwrapper.isCompoundTarget_eq, Js.Expr.parenIf, if_neg Bool.false_ne_true,
      hitself]

end Emission

/-! ## Uses -/

/-- Whether a call of the method with that many arguments has an idiom of its own, on a receiver that
    is a call. -/
def Idiom.hasIdiom (method : String) (count : Nat) : Bool :=
  (method? (.atom "") method (List.replicate count (.atom "")) false false).isSome

def Expr.isRange : Expr → Bool
  | range .. => true
  | _ => false

/-- What the code around a wrapper does with it. -/
inductive Use where
  | left (op : String) (right : Expr)
  | right (op : String) (left : Expr)
  | sign (op : String)
  | field (name : String)
  | index (index : Expr)
  | method (name : String) (args : List Expr)

namespace Use

/-- The wrapper as it is used. -/
def of (wrapper : Expr) : Use → Expr
  | left op r => .binary op wrapper r
  | right op l => .binary op l wrapper
  | sign op => .unary op wrapper
  | field name => .field wrapper name
  | index i => .index wrapper i
  | method name args => .methodCall wrapper name args

/-- A sum of texts, whose operands are put together in a template literal. -/
def isTextSum (wrapper : Expr) : Use → Bool
  | left op r => op == "+" && (wrapper.isText || r.isText)
  | right op l => op == "+" && (l.isText || wrapper.isText)
  | _ => false

/-- The code of the use, given that of the wrapper and of what is used with it. -/
def code (operand : Js.Expr) (others : List Js.Expr) : Use → Js.Expr
  | left op _ => .binary (operatorName op) operand (others.headD operand)
  | right op _ => .binary (operatorName op) (others.headD operand) operand
  | sign op => .unary op operand
  | field name => Emit.field operand name
  | index i =>
    if i.isRange then .call (.member operand "slice") others
    else .index operand (others.headD operand)
  | method name _ =>
    (Idiom.method? operand name others false false).getD (.call (.member operand name) others)

/-- The place of the wrapper. -/
def seat : Use → Seat
  | left op _ => .left (operatorName op)
  | right op _ => .right (operatorName op)
  | sign _ => .signed
  | field name => if isSlotName name then .opened else .pointed
  | index i => if i.isRange then .pointed else .opened
  | method name args =>
    if Idiom.hasIdiom name args.length then Idiom.methodSeat name args.length false false
    else .pointed

/-- The place of the other operand. -/
def otherSeat : Use → Seat
  | left op _ => .right (operatorName op)
  | right op _ => .left (operatorName op)
  | method name args => if Idiom.hasIdiom name args.length then Idiom.argumentSeat name else .any
  | _ => .any

/-- The field or the method has a name that JavaScript can read. -/
def IsNamed : Use → Prop
  | field name => if isSlotName name then IsExpr name else Js.isName name = true
  | method name args => Idiom.hasIdiom name args.length = false → Js.isName name = true
  | _ => True

/-- The use is one that is emitted, with that many others. -/
def IsSound (operand : String) (count : Nat) : Use → Prop
  | left op _ => (binaryOperator? op).isSome = true ∧ count = 1
  | right op _ => (binaryOperator? op).isSome = true ∧ count = 1
  | sign op => (op = "-" ∧ operand.toList.head? ≠ some '-' ∨ op = "!") ∧ count = 0
  | field _ => count = 0
  | index i => i.isRange = false → count = 1
  | method _ args => count = args.length

end Use

theorem exists_operatorLevel? {op jsOp : String} (h : binaryOperator? op = some jsOp) :
    jsOp = operatorName op ∧ ∃ k, Js.operatorLevel? jsOp = some k ∧ Js.Level.assignment ≤ k := by
  unfold binaryOperator? at h
  split at h
  · cases h
    exact ⟨rfl, 11, by decide⟩
  · cases h
    exact ⟨rfl, 11, by decide⟩
  · next hne hne' =>
    split at h
    · next hmem =>
      cases h
      refine ⟨by rw [operatorName, if_neg hne, if_neg hne'], ?_⟩
      have htable : (["+", "-", "*", "/", "%", "<", "<=", ">", ">=", "&&", "||", "&", "|", "^",
          "<<", ">>"].all fun op => (Js.operatorLevel? op).any (Js.Level.assignment ≤ ·)) = true := by
        decide
      have hop := List.all_eq_true.mp htable op (List.contains_iff_mem.mp hmem)
      simpa [Option.any_eq_true] using hop
    · cases h

theorem Idiom.isSome_method? (recv : Js.Expr) (method : String) (args : List Js.Expr) :
    (method? recv method args false false).isSome = hasIdiom method args.length := by
  have hlength : (List.replicate args.length (Js.Expr.atom "")).length = args.length :=
    List.length_replicate
  unfold hasIdiom
  rcases method?_cases method args.length false false with hnone | ⟨f, hbuilds, -⟩
  · rw [hnone _ _ hlength, hnone _ _ rfl]
  · rw [hbuilds _ _ hlength, hbuilds _ _ rfl]
    rfl

section Reading

variable {operand : String} {others : List String}

theorem isRead_unary_iff {op : String}
    (hop : op = "-" ∧ operand.toList.head? ≠ some '-' ∨ op = "!") (h : IsExpr operand) :
    (Js.Expr.unary op (.atom operand)).IsRead ↔ Seat.signed.Admits operand := by
  constructor
  · intro hread
    have hgrouped := Js.GroupsAt.isGrouped hread
    simp only [phrase, Js.Phrase.isGrouped, Bool.and_eq_true, decide_eq_true_eq] at hgrouped
    exact hgrouped.2
  · intro hunary
    have hmem : Js.prefixOperators.contains op = true := by obtain ⟨rfl, -⟩ | rfl := hop <;> decide
    refine (isRead_atom h).unary hmem (by rwa [phrase]) ?_
    exact h.groupsAs.not_prolonged hop

/-- The code of a use is read as it is built exactly if the operands bind tight enough for their
    places. -/
theorem Use.isRead_code_iff {use : Use} (hnamed : use.IsNamed)
    (hsound : use.IsSound operand others.length) (hoperand : IsExpr operand)
    (hothers : ∀ o ∈ others, IsExpr o) :
    (use.code (.atom operand) (others.map .atom)).IsRead ↔
      use.seat.Admits operand ∧ ∀ o ∈ others, use.otherSeat.Admits o := by
  have hatom := isRead_atom hoperand
  have hread : ∀ a ∈ others.map Js.Expr.atom, a.IsArgument := by
    intro a ha
    obtain ⟨o, ho, rfl⟩ := List.mem_map.mp ha
    exact (isRead_atom (hothers o ho)).isArgument
  have hany {P : Prop} : P ↔ P ∧ ∀ o ∈ others, Seat.any.Admits o := by simp [Seat.Admits]
  cases use with
  | left op _ | right op _ =>
    obtain ⟨hop, hcount⟩ := hsound
    obtain ⟨jsOp, hop⟩ := Option.isSome_iff_exists.mp hop
    obtain ⟨rfl, k, hk, hle⟩ := exists_operatorLevel? hop
    obtain ⟨o, rfl⟩ := List.length_eq_one_iff.mp hcount
    have ho := isRead_atom (hothers o List.mem_cons_self)
    first
    | refine (Idiom.isRead_binary_iff hk hle hatom ho).trans ?_
      simp [seat, otherSeat, Js.Expr.text]
    | refine (Idiom.isRead_binary_iff hk hle ho hatom).trans ?_
      simp [seat, otherSeat, Js.Expr.text, and_comm]
  | sign op => exact (isRead_unary_iff hsound.1 hoperand).trans hany
  | field name =>
    simp only [IsNamed] at hnamed
    simp only [code, seat, otherSeat, Emit.field]
    split at hnamed
    · next hslot =>
      rw [if_pos hslot, if_pos hslot]
      exact (Idiom.isRead_index_iff hoperand (isRead_atom hnamed)).trans hany
    · next hslot =>
      rw [if_neg hslot, if_neg hslot]
      exact (Idiom.isRead_property_iff hoperand hnamed).trans hany
  | index i =>
    simp only [code, seat, otherSeat]
    cases hrange : i.isRange with
    | true => exact (Idiom.isRead_method_iff hoperand (by decide) hread).trans hany
    | false =>
      obtain ⟨o, rfl⟩ := List.length_eq_one_iff.mp (hsound hrange)
      have ho := isRead_atom (hothers o List.mem_cons_self)
      exact (Idiom.isRead_index_iff hoperand ho).trans hany
  | method name args =>
    have hlength : others.length = args.length := hsound
    have hsome := Idiom.isSome_method? (.atom operand) name (others.map .atom)
    rw [List.length_map, hlength] at hsome
    simp only [code, seat, otherSeat]
    rcases Idiom.method?_cases name others.length false false with
      hnone | ⟨f, hbuilds, ⟨hsound, -⟩, hreceiver, hargument⟩
    · rw [hnone _ _ (List.length_map _)] at hsome ⊢
      rw [← hsome]
      exact (Idiom.isRead_method_iff hoperand (hnamed hsome.symm) hread).trans hany
    · rw [hbuilds _ _ (List.length_map _)] at hsome ⊢
      rw [← hsome, ← hlength, Option.getD_some, ← hreceiver, ← hargument]
      exact Idiom.Frame.isRead_code_iff hsound hoperand hothers

end Reading

theorem Use.text_code_leaf (use : Use) (operand : Js.Expr) (others : List Js.Expr) :
    (use.code operand.leaf (others.map leaf)).text = (use.code operand others).text := by
  have hleaf (e : Js.Expr) : e.leaf.text = e.text := by rw [leaf, Js.Expr.text]
  have htexts : Js.exprTexts (others.map leaf) = Js.exprTexts others := by
    simp [Js.exprTexts_eq, hleaf]
  have hhead : ((others.map leaf).headD operand.leaf).text = (others.headD operand).text := by
    cases others <;> exact hleaf _
  cases use with
  | left | right | sign => simp only [code, Js.Expr.text, hleaf, hhead]
  | field name =>
    simp only [code, Emit.field]
    split <;> simp only [Js.Expr.text, hleaf]
  | index i =>
    simp only [code]
    split <;> simp only [Js.Expr.text, hleaf, hhead, htexts]
  | method name args =>
    simp only [code]
    rcases Idiom.method?_cases name others.length false false with hnone | ⟨f, hbuilds, -⟩
    · rw [hnone _ _ rfl, hnone _ _ (List.length_map _)]
      simp only [Option.getD_none, Js.Expr.text, hleaf, htexts]
    · rw [hbuilds _ _ rfl, hbuilds _ _ (List.length_map _), Option.getD_some, Option.getD_some]
      exact f.text_code_leaf operand others

section Emission

variable {expand : MacroCall → Emit Js.Expr} {place : Place} {s t : State} {inParens : Bool}
  {wrapper e : Expr} {code : Js.Expr} {op : String} {use : Use} {isText : Bool}
  {parts : Emit (List Js.Part)} {left right : Emit Js.Expr}

theorem Emit.exists_of_sum (htext : (op == "+" && isText) = true)
    (h : Emit.binary op isText parts left right place s = (.ok code, t)) :
    ∃ ps, parts place s = (.ok ps, t) ∧ code = .template ps := by
  obtain rfl : op = "+" := beq_iff_eq.mp (Bool.and_eq_true_iff.mp htext).1
  have hplus : binaryOperator? "+" = some "+" := by decide
  rw [Emit.binary, hplus] at h
  dsimp only at h
  rw [if_pos htext] at h
  obtain ⟨ps, hps, rfl⟩ := exists_of_return h
  exact ⟨ps, hps, rfl⟩

theorem Emit.exists_of_binary (htext : (op == "+" && isText) = false)
    (h : Emit.binary op isText parts left right place s = (.ok code, t)) :
    ∃ l r u, left place s = (.ok l, u) ∧ right place u = (.ok r, t) ∧
      (binaryOperator? op).isSome = true ∧ code = .binary (operatorName op) l r := by
  cases hop : binaryOperator? op with
  | none =>
    rw [Emit.binary, hop] at h
    cases h
  | some jsOp =>
    rw [Emit.binary, hop] at h
    dsimp only at h
    rw [if_neg (by simp [htext])] at h
    obtain ⟨l, r, u, hl, hr, rfl⟩ := exists_of_both h
    obtain ⟨rfl, -⟩ := exists_operatorLevel? hop
    exact ⟨l, r, u, hl, hr, rfl, rfl⟩

theorem Emit.exists_of_unary {operand : Emit Js.Expr}
    (h : Emit.unary op operand place s = (.ok code, t)) :
    ∃ own u, op ∈ unaryOperators ∧ operand place s = (.ok own, u) ∧
      code = .unary op (own.parenIf (op == "-" && own.text.toList.head? == some '-')) := by
  unfold Emit.unary at h
  split at h
  · next hop =>
    obtain ⟨own, hown, rfl⟩ := exists_of_return h
    exact ⟨own, t, List.contains_iff_mem.mp hop, hown, rfl⟩
  · cases h

theorem RangePlan.exists_of_slice {obj : Js.Expr} {r : RangePlan}
    (h : r.slice obj place s = (.ok code, t)) :
    ∃ args, code = .call (.member obj "slice") args := by
  unfold RangePlan.slice at h
  cases hstop : r.stop with
  | none =>
    cases hstart : r.start <;> simp only [hstart, hstop] at h <;>
      obtain ⟨start, u, -, h⟩ := exists_of_bind h <;> cases h <;> exact ⟨_, rfl⟩
  | some stop =>
    cases hstart : r.start <;> cases hinclusive : r.inclusive <;>
      simp only [hstart, hstop, hinclusive, Bool.false_eq_true, if_true, if_false] at h <;>
      obtain ⟨start, u, -, h⟩ := exists_of_bind h <;>
      obtain ⟨stop, v, -, h⟩ := exists_of_bind h <;> cases h <;> exact ⟨_, rfl⟩

theorem Expr.exists_of_isRange (h : e.isRange = true) :
    ∃ start stop inclusive, e = .range start stop inclusive := by
  cases e
  case range start stop inclusive => exact ⟨start, stop, inclusive, rfl⟩
  all_goals cases h

theorem Use.exists_code (hwrapper : wrapper.Erases place inParens e)
    (hsum : use.isTextSum wrapper = false)
    (hrun : Emit.expr expand (use.of wrapper) .value place s = (.ok code, t)) :
    ∃ own shown others inParens,
      (∃ u v, Emit.expr expand e .value place u = (.ok own, v)) ∧
      own.Shows inParens shown ∧ code = use.code shown others ∧
      use.IsSound shown.text others.length := by
  cases use with
  | left op r =>
    obtain ⟨l, other, u, hl, -, hop, rfl⟩ := Emit.exists_of_binary hsum hrun
    obtain ⟨operand, hoperand, rfl⟩ := exists_of_return hl
    obtain ⟨own, w, hown, hshows⟩ := hwrapper.exists_shows hoperand
    rw [hwrapper.isLooseIn_eq]
    exact ⟨own, operand, [other], _, ⟨_, _, hown⟩, hshows, rfl, hop, rfl⟩
  | right op l =>
    obtain ⟨other, r, u, -, hr, hop, rfl⟩ := Emit.exists_of_binary hsum hrun
    obtain ⟨operand, hoperand, rfl⟩ := exists_of_return hr
    obtain ⟨own, w, hown, hshows⟩ := hwrapper.exists_shows hoperand
    rw [hwrapper.isLooseIn_eq]
    exact ⟨own, operand, [other], _, ⟨_, _, hown⟩, hshows, rfl, hop, rfl⟩
  | sign op =>
    obtain ⟨operand, u, hop, hcode, rfl⟩ := Emit.exists_of_unary hrun
    obtain ⟨operand, hoperand, rfl⟩ := exists_of_return hcode
    obtain ⟨own, w, hown, hshows⟩ := hwrapper.exists_shows hoperand
    rw [hwrapper.isCompound_eq, show operand.parenIf false = operand from rfl]
    have hop : op = "-" ∨ op = "!" := by simpa [unaryOperators] using hop
    cases hminus : op == "-" && operand.text.toList.head? == some '-' with
    | true =>
      simp only [Bool.and_eq_true, beq_iff_eq] at hminus
      cases inParens with
      | true => exact absurd (hshows.head?_text.symm.trans hminus.2) (by decide)
      | false =>
        refine ⟨own, .paren operand, [], true, ⟨_, _, hown⟩, hshows.paren, rfl, .inl ?_, rfl⟩
        exact ⟨hminus.1, by rw [hshows.paren.head?_text]; decide⟩
    | false =>
      refine ⟨own, operand, [], _, ⟨_, _, hown⟩, hshows, rfl, hop.imp_left fun hop => ?_, rfl⟩
      exact ⟨hop, by simpa [hop] using hminus⟩
  | field name =>
    obtain ⟨recv, hrecv, rfl⟩ := exists_of_return hrun
    obtain ⟨own, v, hown, hshows⟩ := hwrapper.exists_shows hrecv
    rw [hwrapper.isCompoundTarget_eq]
    exact ⟨own, recv, [], _, ⟨_, _, hown⟩, hshows, rfl, rfl⟩
  | index i =>
    cases hrange : i.isRange with
    | true =>
      obtain ⟨start, stop, inclusive, rfl⟩ := Expr.exists_of_isRange hrange
      obtain ⟨recv, u, hrecv, hrun⟩ := exists_of_bind hrun
      obtain ⟨others, rfl⟩ := RangePlan.exists_of_slice hrun
      obtain ⟨own, v, hown, hshows⟩ := hwrapper.exists_shows hrecv
      rw [hwrapper.isCompoundTarget_eq]
      refine ⟨own, recv, others, _, ⟨_, _, hown⟩, hshows, rfl, ?_⟩
      rintro ⟨⟩
    | false =>
      rw [of, Emit.expr_index expand (by rintro _ _ _ rfl; cases hrange)] at hrun
      obtain ⟨recv, other, u, hrecv, -, rfl⟩ := exists_of_both hrun
      obtain ⟨own, w, hown, hshows⟩ := hwrapper.exists_shows hrecv
      rw [hwrapper.isCompoundTarget_eq]
      refine ⟨own, recv, [other], _, ⟨_, _, hown⟩, hshows, ?_, fun _ => rfl⟩
      simp only [code, hrange]
      rfl
  | method name args =>
    obtain ⟨recv, codes, u, hrecv, hcodes, rfl⟩ := exists_of_both hrun
    obtain ⟨own, v, hown, hshows⟩ := hwrapper.exists_shows hrecv
    rw [Emit.methodCall, hwrapper.isCompoundTarget_eq, hwrapper.isSimple_eq, hwrapper.isHost_eq]
    exact ⟨own, recv, codes, _, ⟨_, _, hown⟩, hshows, rfl, Emit.length_of_exprs hcodes⟩

theorem Use.exists_slot (hwrapper : wrapper.Erases place inParens e)
    (hsum : use.isTextSum wrapper = true)
    (hrun : Emit.expr expand (use.of wrapper) .value place s = (.ok code, t)) :
    ∃ own shown parts, (∃ u v, Emit.expr expand e .value place u = (.ok own, v)) ∧
      own.Shows inParens shown ∧ code = .template parts ∧ .slot shown ∈ parts := by
  have hpart {u v : State} {parts : List Js.Part}
      (h : Emit.expr expand wrapper .part place u = (.ok parts, v)) :
      ∃ own shown w, Emit.expr expand e .value place u = (.ok own, w) ∧
        own.Shows inParens shown ∧ parts = [.slot shown] := by
    rw [Emit.expr_part (by rintro l r rfl; cases hwrapper) hwrapper.text?_eq] at h
    obtain ⟨shown, hshown, rfl⟩ := exists_of_return h
    obtain ⟨own, w, hown, hshows⟩ := hwrapper.exists_shows hshown
    exact ⟨own, shown, w, hown, hshows, rfl⟩
  cases use with
  | left op r =>
    obtain ⟨parts, hparts, rfl⟩ := Emit.exists_of_sum hsum hrun
    obtain ⟨left, right, u, hleft, -, rfl⟩ := exists_of_both hparts
    obtain ⟨own, shown, w, hown, hshows, rfl⟩ := hpart hleft
    exact ⟨own, shown, _, ⟨_, _, hown⟩, hshows, rfl, List.mem_cons_self⟩
  | right op l =>
    obtain ⟨parts, hparts, rfl⟩ := Emit.exists_of_sum hsum hrun
    obtain ⟨left, right, u, -, hright, rfl⟩ := exists_of_both hparts
    obtain ⟨own, shown, w, hown, hshows, rfl⟩ := hpart hright
    exact ⟨own, shown, _, ⟨_, _, hown⟩, hshows, rfl, List.mem_append_right _ List.mem_cons_self⟩
  | sign | field | index | method => cases hsum

end Emission

/-- A wrapper that is erased is shown as the code of its argument wherever it is used, in
    parentheses or not. In a sum of texts the code stands by itself. In all other uses JavaScript
    reads the code as the operation on what it reads in the argument and in the other operands, and
    in no other way, exactly if they bind tight enough for their places. -/
theorem erased_operand_stays_whole_iff {expand : MacroCall → Emit Js.Expr} {place : Place}
    {s t : State} {inParens : Bool} {wrapper e : Expr} {code : Js.Expr}
    (hwrapper : wrapper.Erases place inParens e) (use : Use) (hnamed : use.IsNamed)
    (hrun : Emit.expr expand (use.of wrapper) .value place s = (.ok code, t)) :
    ∃ own shown inParens, (∃ u v, Emit.expr expand e .value place u = (.ok own, v)) ∧
      own.Shows inParens shown ∧
      (∀ p, Js.GroupsAs own.text p → Js.GroupsAs shown.text (if inParens then .paren p else p)) ∧
      (use.isTextSum wrapper = true → ∃ parts, code = .template parts ∧ .slot shown ∈ parts) ∧
      (use.isTextSum wrapper = false → ∃ others, code = use.code shown others ∧
        use.IsSound shown.text others.length ∧ (IsExpr own.text → (∀ o ∈ others, IsExpr o.text) →
          ((∀ q, Js.GroupsAs code.text q ↔ q = (use.code shown.leaf (others.map leaf)).phrase) ↔
            use.seat.Admits shown.text ∧ ∀ o ∈ others, use.otherSeat.Admits o.text))) := by
  cases hsum : use.isTextSum wrapper with
  | true =>
    obtain ⟨own, shown, parts, hown, hshows, hcode, hmem⟩ := Use.exists_slot hwrapper hsum hrun
    exact ⟨own, shown, inParens, hown, hshows, fun p => hshows.groupsAs,
      fun _ => ⟨parts, hcode, hmem⟩, nofun⟩
  | false =>
    obtain ⟨own, shown, others, inParens, hown, hshows, rfl, hsound⟩ :=
      Use.exists_code hwrapper hsum hrun
    refine ⟨own, shown, inParens, hown, hshows, fun p => hshows.groupsAs, nofun,
      fun _ => ⟨others, rfl, hsound, fun hexpr hothers => ?_⟩⟩
    have hshown : IsExpr shown.text := ⟨_, hshows.groupsAs hexpr.groupsAs⟩
    have htexts : ∀ o ∈ others.map Js.Expr.text, IsExpr o := by simpa using hothers
    have hleaves : others.map leaf = (others.map Js.Expr.text).map .atom := by simp [leaf]
    rw [← use.text_code_leaf, ← Js.Expr.isRead_iff, hleaves, leaf]
    simpa using Use.isRead_code_iff hnamed (by rwa [List.length_map]) hshown htexts

/-- The sum `a + b`. -/
def sumOfAB : Expr := .binary "+" (.ident "a") (.ident "b")

/-- In `Some(a + b) * 2` the whole sum is a factor. -/
theorem sum_in_some_stays_whole :
    ∃ code, (Reader.ofTable []).emit
        (.binary "*" (.call (.ident "Some") [sumOfAB]) (.lit (.int 2))) .value {} {} =
          (.ok code, {}) ∧
      ∀ q, Js.GroupsAs code.text q ↔
        q = .binary "*" (.paren (.binary "+" (.word "a") (.word "b"))) (.numeral "2") := by
  have hrun : Emit.expr (Reader.ofTable []).expand
      ((Use.left "*" (.lit (.int 2))).of (.call (.ident "Some") [sumOfAB])) .value {} {} =
        (.ok (.binary "*" (.paren (.binary "+" (.atom "a") (.atom "b"))) (.atom "2")), {}) := rfl
  have hsum : Js.GroupsAs "a + b" (.binary "+" (.word "a") (.word "b")) :=
    Js.groupsAs_of_read? (n := 10) (by decide)
  have htwo : Js.GroupsAs "2" (.numeral "2") := Js.groupsAs_of_read? (n := 10) (by decide)
  have hparen : Js.GroupsAs "(a + b)" (.paren (.binary "+" (.word "a") (.word "b"))) := by
    simpa using hsum.paren
  have hleft : (Seat.left "*").Admits "(a + b)" :=
    Seat.admits_left (k := 15) (by decide) (by decide) (by rw [hparen.reading_eq]; decide)
  have hright : (Seat.right "*").Admits "2" :=
    Seat.admits_right (k := 15) (by decide) (by rw [htwo.reading_eq]; decide)
  have htext : (Js.Expr.binary "+" (.atom "a") (.atom "b")).text = "a + b" := by decide
  have htext' : (Js.Expr.paren (.binary "+" (.atom "a") (.atom "b"))).text = "(a + b)" := by decide
  obtain ⟨own, shown, inParens, -, hshows, -, -, hiff⟩ :=
    erased_operand_stays_whole_iff (.optional sumOfAB) (.left "*" (.lit (.int 2))) trivial hrun
  obtain ⟨others, hcode, ⟨-, hcount⟩, hiff⟩ := hiff (by decide)
  obtain ⟨other, rfl⟩ := List.length_eq_one_iff.mp hcount
  obtain ⟨-, rfl, rfl⟩ := Js.Expr.binary.inj hcode
  have hown : IsExpr own.text := by
    obtain _ | @⟨_, _ | _⟩ := hshows
    · exact ⟨_, htext' ▸ hparen⟩
    · exact ⟨_, htext ▸ hsum⟩
  refine ⟨_, hrun, ?_⟩
  have hothers (P : String → Prop) (h : P "2") : ∀ o ∈ [Js.Expr.atom "2"], P o.text := by
    simpa [Js.Expr.text] using h
  have hread := (hiff hown (hothers _ ⟨_, htwo⟩)).mpr
    ⟨htext' ▸ hleft, hothers ((Seat.right "*").Admits ·) hright⟩
  have hstar : operatorName "*" = "*" := by decide
  have hdigit : (Js.Expr.atom "2").text = "2" := by decide
  simpa only [Use.code, hstar, List.map_cons, List.headD_cons, leaf, htext',
    phrase, hparen.reading_eq, hdigit, htwo.reading_eq] using hread

/-- In `Box::new(a + b) * 2` the sum falls apart: only `b` is a factor. -/
theorem sum_in_box_falls_apart :
    ∃ code, (Reader.ofTable []).emit
        (.binary "*" (.call (.path ["Box", "new"]) [sumOfAB]) (.lit (.int 2))) .value {} {} =
          (.ok code, {}) ∧
      code.text = "a + b * 2" ∧
      ∀ q, Js.GroupsAs code.text q ↔
        q = .binary "+" (.word "a") (.binary "*" (.word "b") (.numeral "2")) := by
  have htext : (Js.Expr.binary "*" (.binary "+" (.atom "a") (.atom "b")) (.atom "2")).text =
      "a + b * 2" := by decide
  have hread : Js.GroupsAs "a + b * 2"
      (.binary "+" (.word "a") (.binary "*" (.word "b") (.numeral "2"))) :=
    Js.groupsAs_of_read? (n := 10) (by decide +kernel)
  refine ⟨.binary "*" (.binary "+" (.atom "a") (.atom "b")) (.atom "2"), rfl, htext, fun q => ?_⟩
  rw [htext]
  exact ⟨fun hq => hq.unique hread, fun hq => hq ▸ hread⟩

end RustScript
