/-
  Sums of texts.

  A sum that is known to be a text is emitted as one template literal, however it is nested. Each
  text is escaped on its own, so the one way to go wrong is a dollar sign at the end of a text with
  a brace at the start of the next.
-/
import RustScript.Proofs.Emit.Tree
import RustScript.Proofs.Literal.Templates

namespace RustScript

/-! ## Addends -/

/-- The addends of a sum in order; an expression that is no sum is its own addend. -/
def Expr.addends : Expr → List Expr
  | .binary op l r => if op == "+" then l.addends ++ r.addends else [.binary op l r]
  | e => [e]

/-- The addends that are not literals. -/
def Expr.openAddends (e : Expr) : List Expr := e.addends.filter (·.text?.isNone)

theorem Expr.summands_eq (e : Expr) : e.summands = e.addends.map Expr.text? := by
  induction e using Expr.addends.induct with
  | case1 op l r hop ihl ihr =>
    rw [summands, addends, if_pos hop, if_pos hop, List.map_append, ihl, ihr]
  | case2 op l r hop =>
    rw [summands, addends, if_neg hop, if_neg hop]
    rfl
  | case3 e hno =>
    rw [addends.eq_2 e hno]
    cases e
    case binary => exact absurd rfl (hno _ _ _)
    all_goals rfl

/-! ## What the addends become -/

section Emission

variable {expand : MacroCall → Emit Js.Expr} {place : Place} {s t : State}

theorem Position.either_part (code : Option (Emit Js.Expr))
    (body : Option Js.Tail → Emit (List Js.Stmt)) :
    Position.part.either code body = do return [.slot (← Position.value.either code body)] := by
  cases code <;> rfl

variable {e : Expr} {codes : List Js.Expr}

theorem Emit.expr_part (hsum : ∀ l r, e ≠ .binary "+" l r) (htext : e.text? = none) :
    Emit.expr expand e .part = do return [.slot (← Emit.expr expand e .value)] := by
  cases e
  case lit value =>
    have hnone : value.text? = none := htext
    rw [expr, expr, hnone]
    rfl
  case ref e isMutable =>
    have hnone : e.text? = none := htext
    rw [expr, expr, hnone]
    rfl
  case deref e =>
    have hnone : e.text? = none := htext
    rw [expr, expr, hnone]
    rfl
  case binary op l r =>
    have hop : (op == "+") = false := beq_eq_false_iff_ne.mpr fun h => hsum l r (by rw [h])
    rw [expr, expr, hop]
    rfl
  case ifElse cond stmts orelse =>
    rw [expr, expr]
    exact Position.either_part _ _
  case call func args =>
    by_cases hname : (∃ name, func = .ident name) ∨ ∃ segments, func = .path segments
    · obtain ⟨name, rfl⟩ | ⟨segments, rfl⟩ := hname <;>
        · rw [expr, expr]
          rfl
    · rw [expr_call expand (fun name h => hname (.inl ⟨name, h⟩))
        (fun segments h => hname (.inr ⟨segments, h⟩)),
        expr_call expand (fun name h => hname (.inl ⟨name, h⟩))
        (fun segments h => hname (.inr ⟨segments, h⟩))]
      rfl
  case index obj index =>
    by_cases hrange : ∃ start stop inclusive, index = .range start stop inclusive
    · obtain ⟨start, stop, inclusive, rfl⟩ := hrange
      rw [expr, expr]
      rfl
    · have hno : ∀ start stop inclusive, index ≠ .range start stop inclusive :=
        fun start stop inclusive h => hrange ⟨start, stop, inclusive, h⟩
      rw [expr_index expand hno, expr_index expand hno]
      rfl
  case closure params body isAsync =>
    by_cases hblock : ∃ stmts, body = .block stmts false none
    · obtain ⟨stmts, rfl⟩ := hblock
      rw [expr, expr]
      rfl
    · have hno : ∀ stmts, body ≠ .block stmts false none := fun stmts h => hblock ⟨stmts, h⟩
      rw [expr_closure expand hno, expr_closure expand hno]
      rfl
  case tupleLit elems =>
    cases elems <;>
      · rw [expr, expr]
        rfl
  case block stmts isAsync label =>
    cases isAsync <;>
      · rw [expr, expr]
        rfl
  all_goals
    rw [expr, expr]
    rfl

theorem Emit.expr_part_text {text : String} (htext : e.text? = some text) :
    Emit.expr expand e .part = pure [.chunk text] := by
  cases e
  case lit value =>
    have hsome : value.text? = some text := htext
    rw [expr, hsome]
    rfl
  case ref e isMutable =>
    have hsome : e.text? = some text := htext
    rw [expr, hsome]
    rfl
  case deref e =>
    have hsome : e.text? = some text := htext
    rw [expr, hsome]
    rfl
  all_goals cases htext

theorem Emit.exists_of_exprs_append {es fs : List Expr}
    (h : Emit.exprs expand (es ++ fs) place s = (.ok codes, t)) :
    ∃ as bs u, codes = as ++ bs ∧ as.length = es.length ∧
      Emit.exprs expand es place s = (.ok as, u) ∧ Emit.exprs expand fs place u = (.ok bs, t) := by
  induction es generalizing s codes with
  | nil => exact ⟨[], codes, s, rfl, rfl, by rw [exprs]; rfl, h⟩
  | cons e es ih =>
    rw [List.cons_append, exprs] at h
    obtain ⟨code, rest, u, hcode, hrest, rfl⟩ := exists_of_both h
    obtain ⟨as, bs, w, rfl, hlength, has, hbs⟩ := ih hrest
    refine ⟨code :: as, bs, w, rfl, congrArg (· + 1) hlength, ?_, hbs⟩
    rw [exprs, bind_of_ok hcode, bind_of_ok has]
    rfl

theorem Emit.length_of_exprs {es : List Expr} (h : Emit.exprs expand es place s = (.ok codes, t)) :
    codes.length = es.length := by
  rw [← List.append_nil es] at h
  obtain ⟨as, bs, u, rfl, hlength, -, hbs⟩ := exists_of_exprs_append h
  rw [exprs] at hbs
  obtain rfl : [] = bs := by cases hbs; rfl
  rw [List.append_nil, hlength]

theorem Expr.length_openAddends (e : Expr) :
    e.openAddends.length = (e.addends.map Expr.text?).count none := by
  rw [openAddends, ← List.countP_eq_length_filter, List.count, List.countP_map]
  congr 1
  funext e
  cases h : e.text? <;> simp [h]

theorem Emit.expr_part_of_addend (hsum : ∀ l r, e ≠ .binary "+" l r) (haddends : e.addends = [e])
    (h : Emit.exprs expand e.openAddends place s = (.ok codes, t)) :
    Emit.expr expand e .part place s =
      (.ok (Js.inOrder (e.addends.map Expr.text?) codes), t) := by
  rw [haddends, List.map_singleton]
  cases htext : e.text? with
  | some text =>
    have hopen : e.openAddends = [] := by
      rw [Expr.openAddends, haddends]
      simp [htext]
    rw [hopen, exprs] at h
    obtain ⟨rfl, rfl⟩ : [] = codes ∧ s = t := by cases h; exact ⟨rfl, rfl⟩
    rw [expr_part_text htext]
    rfl
  | none =>
    have hopen : e.openAddends = [e] := by
      rw [Expr.openAddends, haddends]
      simp [htext]
    rw [hopen, exprs] at h
    obtain ⟨code, u, hcode, h⟩ := exists_of_bind h
    rw [exprs] at h
    obtain ⟨rfl, rfl⟩ : [code] = codes ∧ u = t := by cases h; exact ⟨rfl, rfl⟩
    rw [expr_part hsum htext, bind_of_ok hcode]
    rfl

/-- By induction on the sum: the parts of the left operand come before those of the right one. -/
theorem Emit.expr_part_of_exprs (h : Emit.exprs expand e.openAddends place s = (.ok codes, t)) :
    Emit.expr expand e .part place s =
      (.ok (Js.inOrder (e.addends.map Expr.text?) codes), t) := by
  induction e using Expr.addends.induct generalizing s t codes with
  | case1 op l r hop ihl ihr =>
    have haddends : (Expr.binary op l r).addends = l.addends ++ r.addends := by
      rw [Expr.addends, if_pos hop]
    rw [Expr.openAddends, haddends, List.filter_append] at h
    obtain ⟨as, bs, u, rfl, hlength, has, hbs⟩ := exists_of_exprs_append h
    have hparts : expr expand (.binary op l r) .part = do
        let left ← expr expand l .part
        return left ++ (← expr expand r .part) := by
      rw [expr, hop]
      rfl
    rw [hparts, bind_of_ok (ihl has), bind_of_ok (ihr hbs), haddends, List.map_append,
      Js.inOrder_append (hlength.trans l.length_openAddends)]
    rfl
  | case2 op l r hop =>
    refine expr_part_of_addend (fun l' r' heq => ?_) (by rw [Expr.addends, if_neg hop]) h
    obtain ⟨rfl, -, -⟩ := Expr.binary.inj heq
    exact hop rfl
  | case3 e hno => exact expr_part_of_addend (fun l r => hno _ l r) (Expr.addends.eq_2 e hno) h

/-- A sum that is a text is one template literal. -/
theorem Emit.expr_text_sum {l r : Expr} (htext : (l.isText || r.isText) = true)
    (h : Emit.exprs expand (Expr.binary "+" l r).openAddends place s = (.ok codes, t)) :
    Emit.expr expand (.binary "+" l r) .value place s =
      (.ok (.template (Js.inOrder (Expr.binary "+" l r).summands codes)), t) := by
  have hvalue : expr expand (.binary "+" l r) .value = do
      return .template (← expr expand (.binary "+" l r) .part) := by
    rw [expr, expr, htext]
    rfl
  rw [hvalue, Expr.summands_eq, bind_of_ok (expr_part_of_exprs h)]
  rfl

end Emission

/-! ## What is read -/

/-- A sum that is a text is emitted as soon as its addends are, and wherever the code stands,
    JavaScript reads it as a template literal with the codes of the addends in order and, between
    them, the texts of the literals run together, exactly if no literal that ends in a dollar sign
    comes before one that begins with a brace. -/
theorem text_sum_is_read_as_its_addends_iff (expand : MacroCall → Emit Js.Expr) {l r : Expr}
    (htext : (l.isText || r.isText) = true) {place : Place} {s t : State} {codes : List Js.Expr}
    (hcodes : Emit.exprs expand (Expr.binary "+" l r).openAddends place s = (.ok codes, t))
    (hclosed : ∀ code ∈ codes, Js.Closed code.text.toList) :
    ∃ code, Emit.expr expand (.binary "+" l r) .value place s = (.ok code, t) ∧
      ((∀ rest, Js.readTemplate? (code.text.toList ++ rest) =
          some (Js.filling (Js.inOrder (Expr.binary "+" l r).summands codes), rest)) ↔
        Js.joinsSafely (Expr.binary "+" l r).summands = true) := by
  have hlength : codes.length = (Expr.binary "+" l r).summands.count none := by
    rw [Expr.summands_eq, ← Expr.length_openAddends]
    exact Emit.length_of_exprs hcodes
  have hread := Js.readTemplate?_inOrder_iff hlength hclosed
  refine ⟨_, Emit.expr_text_sum htext hcodes, fun h => (hread []).mp (h []), fun h rest => ?_⟩
  exact (hread rest).mpr h

/-- In `"cost: $" + price + "{" + "`"` the price comes between the dollar sign and the brace, and the
    last two texts are one chunk. -/
theorem price_between_dollar_and_brace_is_read :
    let sum := Expr.binary "+" (.binary "+" (.binary "+" (.lit (.str "cost: $")) (.ident "price"))
      (.lit (.str "\x7b"))) (.lit (.str "`"))
    ∃ code, (Reader.ofTable []).emit sum .value {} {} = (.ok code, {}) ∧
      ∀ rest, Js.readTemplate? (code.text.toList ++ rest) =
        some (⟨Json.units "cost: $", [("price", Json.units "\x7b`")]⟩, rest) := by
  intro sum
  have hcodes : Emit.exprs (Reader.ofTable []).expand sum.openAddends {} {} =
      (.ok [.atom "price"], {}) := rfl
  obtain ⟨code, hcode, hread⟩ := text_sum_is_read_as_its_addends_iff (Reader.ofTable []).expand
    (l := .binary "+" (.binary "+" (.lit (.str "cost: $")) (.ident "price")) (.lit (.str "\x7b")))
    (r := .lit (.str "`")) (by decide) hcodes (by
      intro code hmem
      rw [List.mem_singleton.mp hmem]
      exact .plain (by decide))
  exact ⟨code, hcode, hread.mpr (by decide)⟩

/-- `"$" + "{"` is emitted as a template literal in which the two characters open a substitution,
    and as it is never closed there is no literal at all. -/
theorem dollar_before_brace_opens_a_substitution :
    let sum := Expr.binary "+" (.lit (.str "$")) (.lit (.str "\x7b"))
    ∃ code, (Reader.ofTable []).emit sum .value {} {} = (.ok code, {}) ∧
      code.text = "`$\x7b`" ∧ Js.readTemplate? code.text.toList = none := by
  intro sum
  have hcodes : Emit.exprs (Reader.ofTable []).expand sum.openAddends {} {} = (.ok [], {}) := rfl
  have htext : (Js.Expr.template (Js.inOrder sum.summands [])).text = "`$\x7b`" := by decide
  have hopen : Js.readBody Js.templatePiece? ['$', '\x7b', '\x60'] = some ([], true, ['\x60']) := by
    rw [Js.readBody]
    rfl
  refine ⟨_, Emit.expr_text_sum (by decide) hcodes, htext, ?_⟩
  rw [htext, show ("`$\x7b`" : String).toList = ['\x60', '$', '\x7b', '\x60'] by decide,
    Js.readTemplate?, if_pos (by decide), Js.readParts_eq, hopen]
  rfl

end RustScript
