/-
  Operators keep their grouping.

  The bitwise operators bind tighter than the comparisons in the source and looser in JavaScript,
  and equality is looser than the other comparisons there. `Says` is the grammar of the source. The
  emitter puts parentheses in three places, and `levels_agree` goes through all operators and finds
  that no other place needs them.
-/
import RustScript.Emit.Reader
import RustScript.Proofs.Context.Restore
import RustScript.Proofs.Scope.Targets

namespace RustScript

open Emit (typeName bind_of_ok bind_of_error)

/-! ## The grammar of the source -/

/-- The binary operators of the source by how tight they bind, the loosest first. -/
def sourceLevels : List (List String) :=
  [["||"], ["&&"], comparisonOperators, ["|"], ["^"], ["&"], ["<<", ">>"], ["+", "-"],
   ["*", "/", "%"]]

/-- The precedence of an operator in the source. -/
def sourceLevel? (op : String) : Option Nat := sourceLevels.findIdx? (·.contains op)

/-- The operator of JavaScript that an operator of the source becomes. -/
def operatorName (op : String) : String :=
  if op = "==" then "===" else if op = "!=" then "!==" else op

/-- The expression respects the precedence of the source, as one that binds at least as tight as
    the level, and stands for the tree of operators; `word` says what the names in it stand for.
    Operators associate to the left, and comparisons not at all. -/
inductive Says (word : String → String) : Nat → Expr → Js.Term → Prop where
  | ident {name : String} : Name.isIdentifier name → Says word 10 (.ident name) (.word (word name))
  | int (n : Nat) : Says word 10 (.lit (.int n)) (.number n)
  | bool (b : Bool) : Says word 10 (.lit (.bool b)) (.word (if b then "true" else "false"))
  | paren {e : Expr} {t : Js.Term} : Says word 0 e t → Says word 10 (.paren e) t
  | unary {op : String} {e : Expr} {t : Js.Term} :
      op ∈ unaryOperators → Says word 9 e t → Says word 9 (.unary op e) (.unary op t)
  | binary {op : String} {k : Nat} {l r : Expr} {t u : Js.Term} :
      sourceLevel? op = some k → op ∉ comparisonOperators →
      Says word k l t → Says word (k + 1) r u →
      Says word k (.binary op l r) (.binary (operatorName op) t u)
  | comparison {op : String} {k : Nat} {l r : Expr} {t u : Js.Term} :
      sourceLevel? op = some k → op ∈ comparisonOperators →
      Says word (k + 1) l t → Says word (k + 1) r u →
      Says word k (.binary op l r) (.binary (operatorName op) t u)
  | tighter {k : Nat} {e : Expr} {t : Js.Term} : Says word (k + 1) e t → Says word k e t

/-- The word that is written for a name. -/
def Place.word (place : Place) (scopes : Scopes) (name : String) : String :=
  if name = "self" then "this"
  else if name = "Self" then place.selfType.getD ""
  else if name = "None" then "null"
  else scopes.resolve name

/-- Whether each name and literal of an operation has code at the place: there has to be a receiver
    for `self` and a type for `Self`, and numerals are limited in length. -/
def Expr.hasCode (place : Place) : Expr → Bool
  | ident name => (name != "self" || !place.isStatic) && (name != "Self" || place.selfType.isSome)
  | lit value => value.isWritable
  | paren e => e.hasCode place
  | unary _ e => e.hasCode place
  | binary _ l r => l.hasCode place && r.hasCode place
  | _ => false

/-! ## The levels of both grammars -/

/-- The precedence of the code of an expression. -/
def Expr.codeLevel : Expr → Nat
  | binary op _ _ => (Js.binaryLevel? (operatorName op)).getD 0
  | unary _ _ => Js.prefixLevel
  | lit _ => Js.prefixLevel
  | _ => Js.suffixLevel

/-- The loosest level in JavaScript of what binds at least as tight as a level of the source. -/
def levelFloor (k : Nat) : Nat := [0, 1, 2, 2, 3, 4, 7, 8, 9, 10].getD k 10

/-- The level from which on the operands of a comparison can stand without parentheses. -/
def aboveComparisons : Nat := 7

theorem levels_agree : ∀ op ∈ sourceLevels.flatten, ∀ k ∈ sourceLevel? op,
    binaryOperator? op = some (operatorName op) ∧ ∃ l ∈ Js.binaryLevel? (operatorName op),
      (op ∉ comparisonOperators → l = levelFloor k ∧ l < levelFloor (k + 1)) ∧
      (op ∈ comparisonOperators → k = 2 ∧ levelFloor k ≤ l ∧ l < aboveComparisons) ∧
      (2 < k → op ∈ bitwiseOperators ∨ aboveComparisons ≤ l) := by
  decide +kernel

theorem levelFloor_mono (k : Nat) : levelFloor k ≤ levelFloor (k + 1) := by
  have hlow : ∀ k < 10, levelFloor k ≤ levelFloor (k + 1) := by decide
  by_cases hk : k < 10
  · exact hlow k hk
  · have hhigh (n : Nat) (h : 10 ≤ n) : levelFloor n = 10 := by
      rw [levelFloor, List.getD_eq_getElem?_getD, List.getElem?_eq_none (by simpa using h)]
      rfl
    rw [hhigh k (by omega), hhigh (k + 1) (by omega)]

section Levels

variable {word : String → String} {k : Nat} {e : Expr} {t : Js.Term}

theorem Says.levelFloor_le (h : Says word k e t) : levelFloor k ≤ e.codeLevel := by
  induction h with
  | ident => exact (by decide : levelFloor 10 ≤ Js.suffixLevel)
  | int => exact Nat.le_refl _
  | bool => exact Nat.le_refl _
  | paren => exact (by decide : levelFloor 10 ≤ Js.suffixLevel)
  | unary => exact Nat.le_refl _
  | binary hk hop =>
    obtain ⟨-, l, hl, hsame, -⟩ := levels_agree _ (Js.mem_flatten_of_findIdx? hk) _ hk
    rw [Expr.codeLevel, Option.mem_def.mp hl]
    exact Nat.le_of_eq (hsame hop).1.symm
  | comparison hk hop =>
    obtain ⟨-, l, hl, -, hcmp, -⟩ := levels_agree _ (Js.mem_flatten_of_findIdx? hk) _ hk
    rw [Expr.codeLevel, Option.mem_def.mp hl]
    exact (hcmp hop).2.1
  | tighter _ ih => exact Nat.le_trans (levelFloor_mono _) ih

/-- What may stand beside a comparison binds tighter in JavaScript too, unless it is bitwise. -/
theorem Says.above_comparisons (h : Says word k e t) (hk : 2 < k) {op : String}
    (hop : op ∈ comparisonOperators) (hloose : e.isLooseIn op = false) :
    aboveComparisons ≤ e.codeLevel := by
  have hprefix : aboveComparisons ≤ Js.prefixLevel := by decide
  have hsuffix : aboveComparisons ≤ Js.suffixLevel := by decide
  induction h with
  | ident => exact hsuffix
  | int => exact hprefix
  | bool => exact hprefix
  | paren => exact hsuffix
  | unary => exact hprefix
  | @binary inner j l r t u hj =>
    obtain ⟨-, l, hl, -, -, hhigh⟩ := levels_agree _ (Js.mem_flatten_of_findIdx? hj) _ hj
    have hinner : inner ∉ bitwiseOperators := by simpa [Expr.isLooseIn, hop] using hloose
    rw [Expr.codeLevel, Option.mem_def.mp hl]
    exact (hhigh hk).resolve_left hinner
  | comparison hj hinner =>
    obtain ⟨-, l, -, -, hcmp, -⟩ := levels_agree _ (Js.mem_flatten_of_findIdx? hj) _ hj
    have := (hcmp hinner).1
    omega
  | tighter _ ih => exact ih (by omega) hloose

theorem Says.isText_eq_false (h : Says word k e t) : e.isText = false := by
  induction h with
  | binary _ _ _ _ ihl ihr => simp [Expr.isText, ihl, ihr]
  | comparison _ _ _ _ ihl ihr => simp [Expr.isText, ihl, ihr]
  | tighter _ ih => exact ih
  | _ => rfl

end Levels

/-! ## The code -/

/-- The expression has code that says the term, at its level, or fails because a name or literal
    in it has none. Neither changes the state. -/
structure Emitted (expand : MacroCall → Emit Js.Expr) (place : Place) (s : State) (e : Expr)
    (t : Js.Term) : Prop where
  code : e.hasCode place = true → ∃ code,
    Emit.expr expand e .value place s = (.ok code, s) ∧ Js.Written e.codeLevel code.text t
  failure : e.hasCode place = false → ∃ err,
    Emit.expr expand e .value place s = (.error err, s)

variable {k : Nat} {t : Js.Term} {place : Place} {name : String} {s : State} {text : String}

theorem written_parenIf {code : Js.Expr} {level : Nat} (h : Js.Written level code.text t)
    (hk : k ≤ Js.suffixLevel) {needed : Bool} (hlevel : needed = false → k ≤ level) :
    Js.Written k (code.parenIf needed).text t := by
  cases needed with
  | true => exact h.paren.loosen hk
  | false => exact h.loosen (hlevel rfl)

theorem Emit.ident_of_hasCode (h : (Expr.ident name).hasCode place = true) (s : State) :
    Emit.ident name place s = (.ok (place.word s.scopes name), s) := by
  simp only [Expr.hasCode, Bool.and_eq_true, Bool.or_eq_true, bne_iff_ne, Bool.not_eq_true'] at h
  unfold Emit.ident Place.word
  split
  · have hstatic := h.1.resolve_left fun hne => hne rfl
    simp [hstatic]
  · obtain ⟨type, htype⟩ := Option.isSome_iff_exists.mp (h.2.resolve_left (by decide))
    simp [htype]
  · simp
  · simp_all

theorem Emit.ident_of_not_hasCode (h : (Expr.ident name).hasCode place = false) (s : State) :
    ∃ err, Emit.ident name place s = (.error err, s) := by
  simp only [Expr.hasCode, Bool.and_eq_false_iff, Bool.or_eq_false_iff, bne_eq_false_iff_eq,
    Bool.not_eq_false'] at h
  rcases h with ⟨rfl, hstatic⟩ | ⟨rfl, hnone⟩
  · exact ⟨.mistake .selfWithoutReceiver, by simp [Emit.ident, hstatic]⟩
  · rw [Option.isSome_eq_false_iff, Option.isNone_iff_eq_none] at hnone
    exact ⟨.mistake .selfTypeOutsideImpl, by simp [Emit.ident, hnone]⟩

theorem Emit.ident_eq_ok {t : State} (h : Emit.ident name place s = (.ok text, t)) :
    text = place.word s.scopes name := by
  cases hcode : (Expr.ident name).hasCode place with
  | true =>
    rw [Emit.ident_of_hasCode hcode] at h
    cases h
    rfl
  | false =>
    obtain ⟨err, herr⟩ := Emit.ident_of_not_hasCode hcode s
    rw [herr] at h
    cases h

/-- The word that is written for the name of a type. -/
def Place.typeWord (place : Place) (name : String) : String :=
  if name = "Self" then place.selfType.getD "" else name

theorem Emit.typeName_eq_ok {t : State} (h : typeName name place s = (.ok text, t)) :
    text = place.typeWord name := by
  unfold typeName at h
  unfold Place.typeWord
  split at h
  · next hname =>
    rw [Emit.ident_eq_ok h, beq_iff_eq.mp hname]
    rfl
  · next hname =>
    cases h
    rw [if_neg (by simpa using hname)]

theorem Emit.last_eq_ok {t : State} {segments : List String}
    (h : Emit.ofExcept (Path.last segments) place s = (.ok name, t)) :
    segments.getLast? = some name ∧ s = t := by
  unfold Path.last at h
  cases hlast : segments.getLast? with
  | none =>
    rw [hlast] at h
    cases h
  | some last =>
    rw [hlast] at h
    cases h
    exact ⟨rfl, rfl⟩

theorem isOperand_word {scopes : Scopes} (hcode : (Expr.ident name).hasCode place)
    (hname : Name.isIdentifier name) (hs : scopes.Reached)
    (hself : ∀ type ∈ place.selfType, Js.isOperand type) :
    Js.isOperand (place.word scopes name) := by
  unfold Place.word
  split
  · decide
  split
  · next _ heq =>
    have hsome : place.selfType.isSome := by simpa [Expr.hasCode, heq] using hcode
    obtain ⟨type, htype⟩ := Option.isSome_iff_exists.mp hsome
    rw [htype]
    exact hself type htype
  split
  · decide
  · exact hs.isOperand_resolve hname

namespace Emitted

variable {expand : MacroCall → Emit Js.Expr} {place : Place} {s : State} {e l r : Expr}
  {t u : Js.Term} {op : String}

theorem ident (hname : Name.isIdentifier name) (hs : s.scopes.Reached)
    (hself : ∀ type ∈ place.selfType, Js.isOperand type) :
    Emitted expand place s (.ident name) (.word (place.word s.scopes name)) where
  code h := by
    refine ⟨.atom (place.word s.scopes name), ?_, Js.Written.word (isOperand_word h hname hs hself)⟩
    exact bind_of_ok (Emit.ident_of_hasCode h s) _
  failure h := by
    obtain ⟨err, hrun⟩ := Emit.ident_of_not_hasCode h s
    refine ⟨err, ?_⟩
    exact bind_of_error hrun _

theorem int (n : Nat) : Emitted expand place s (.lit (.int n)) (.number n) where
  code h := by
    refine ⟨.atom (toString n), ?_, Js.Written.number n⟩
    have hw : (Literal.int n).isWritable = true := h
    change Emit.literal (.int n) place s = _
    simp only [Emit.literal, Literal.text?, hw]
    rfl
  failure h := by
    refine ⟨.fault .badNumber, ?_⟩
    have hw : (Literal.int n).isWritable = false := h
    change Emit.literal (.int n) place s = _
    simp only [Emit.literal, Literal.text?, hw]
    rfl

theorem bool (b : Bool) :
    Emitted expand place s (.lit (.bool b)) (.word (if b then "true" else "false")) where
  code _ := by
    have hw : Js.isOperand (if b then "true" else "false") := by cases b <;> decide
    have hle : Js.prefixLevel ≤ Js.suffixLevel := by decide
    exact ⟨.atom (if b then "true" else "false"), rfl,
      (Js.Written.word hw).loosen hle⟩
  failure h := absurd h (by simp [Expr.hasCode, Literal.isWritable])

theorem paren (h : Emitted expand place s e t) : Emitted expand place s (.paren e) t where
  code hc := by
    obtain ⟨code, hrun, hw⟩ := h.code hc
    refine ⟨.paren code, ?_, hw.paren⟩
    exact bind_of_ok hrun _
  failure hc := by
    obtain ⟨err, hrun⟩ := h.failure hc
    refine ⟨err, ?_⟩
    exact bind_of_error hrun _

theorem unary (hop : op ∈ unaryOperators) (hlevel : Js.prefixLevel ≤ e.codeLevel)
    (h : Emitted expand place s e t) : Emitted expand place s (.unary op e) (.unary op t) where
  code hc := by
    obtain ⟨code, hrun, hw⟩ := h.code hc
    let operand := code.parenIf e.isCompound
    let clash := op == "-" && operand.text.toList.head? == some '-'
    have hoperand : Js.Written Js.prefixLevel operand.text t :=
      written_parenIf hw (by decide) fun _ => hlevel
    have hwrapped : Js.Written Js.prefixLevel (operand.parenIf clash).text t :=
      written_parenIf hoperand (by decide) fun _ => Nat.le_refl _
    have hname : op = "-" ∨ op = "!" := by simpa [unaryOperators] using hop
    refine ⟨.unary op (operand.parenIf clash), ?_, hwrapped.unary hname ?_⟩
    · change Emit.unary op (do return (← Emit.expr expand e .value).parenIf e.isCompound) place s = _
      simp only [Emit.unary, List.contains_iff_mem.mpr hop, if_true]
      exact bind_of_ok (bind_of_ok hrun _) _
    · rintro rfl
      cases hclash : clash with
      | true => simp [Js.Expr.parenIf, Js.Expr.text]
      | false => simpa [clash, Js.Expr.parenIf] using hclash
  failure hc := by
    obtain ⟨err, hrun⟩ := h.failure hc
    refine ⟨err, ?_⟩
    change Emit.unary op (do return (← Emit.expr expand e .value).parenIf e.isCompound) place s = _
    simp only [Emit.unary, List.contains_iff_mem.mpr hop, if_true]
    exact bind_of_error (bind_of_error hrun _) _

theorem binary {level : Nat} (hop : binaryOperator? op = some (operatorName op))
    (hlevel : Js.binaryLevel? (operatorName op) = some level) (hl : Emitted expand place s l t)
    (hr : Emitted expand place s r u) (hleft : l.isLooseIn op = false → level ≤ l.codeLevel)
    (hright : r.isLooseIn op = false → level + 1 ≤ r.codeLevel)
    (htext : (l.isText || r.isText) = false) :
    Emitted expand place s (.binary op l r) (.binary (operatorName op) t u) := by
  have hlt : level < Js.prefixLevel := Js.binaryLevel?_lt hlevel
  have hrun : Emit.expr expand (.binary op l r) .value =
      (do
        let left ← (do return (← Emit.expr expand l .value).parenIf (l.isLooseIn op))
        return .binary (operatorName op) left
          (← (do return (← Emit.expr expand r .value).parenIf (r.isLooseIn op)))) := by
    rw [Emit.expr]
    simp only [Position.sum, Position.plain, Emit.binary, hop, htext, Bool.and_false]
    rfl
  constructor
  · intro hc
    obtain ⟨hcl, hcr⟩ := Bool.and_eq_true_iff.mp hc
    obtain ⟨cl, hrl, hwl⟩ := hl.code hcl
    obtain ⟨cr, hrr, hwr⟩ := hr.code hcr
    refine ⟨.binary (operatorName op) (cl.parenIf (l.isLooseIn op)) (cr.parenIf (r.isLooseIn op)),
      ?_, ?_⟩
    · rw [hrun, bind_of_ok (bind_of_ok hrl _)]
      exact bind_of_ok (bind_of_ok hrr _) _
    · have hsuffix : level + 1 ≤ Js.suffixLevel := Nat.le_succ_of_le hlt
      rw [Expr.codeLevel, hlevel]
      exact Js.Written.binary hlevel (written_parenIf hwl (Nat.le_of_succ_le hsuffix) hleft)
        (written_parenIf hwr hsuffix hright)
  · intro hc
    rw [hrun]
    cases hcl : l.hasCode place with
    | false =>
      obtain ⟨err, hrl⟩ := hl.failure hcl
      exact ⟨err, bind_of_error (bind_of_error hrl _) _⟩
    | true =>
      obtain ⟨cl, hrl, -⟩ := hl.code hcl
      have hcr : r.hasCode place = false := by simpa [Expr.hasCode, hcl] using hc
      obtain ⟨err, hrr⟩ := hr.failure hcr
      refine ⟨err, ?_⟩
      rw [bind_of_ok (bind_of_ok hrl _)]
      exact bind_of_error (bind_of_error hrr _) _

end Emitted

theorem Says.emitted {e : Expr} (h : Says (place.word s.scopes) k e t)
    (expand : MacroCall → Emit Js.Expr) (hs : s.scopes.Reached)
    (hself : ∀ type ∈ place.selfType, Js.isOperand type) : Emitted expand place s e t := by
  induction h with
  | ident hname => exact .ident hname hs hself
  | int n => exact .int n
  | bool b => exact .bool b
  | paren _ ih => exact ih.paren
  | unary hop h ih => exact ih.unary hop h.levelFloor_le
  | @binary op k l r t u hk hop hl hr ihl ihr =>
    obtain ⟨hname, level, hlevel, hsame, -⟩ := levels_agree op (Js.mem_flatten_of_findIdx? hk) k hk
    obtain ⟨hfloor, hlt⟩ := hsame hop
    refine .binary hname hlevel ihl ihr (fun _ => ?_) (fun _ => ?_) ?_
    · exact hfloor ▸ hl.levelFloor_le
    · exact Nat.le_trans hlt hr.levelFloor_le
    · simp [hl.isText_eq_false, hr.isText_eq_false]
  | @comparison op k l r t u hk hop hl hr ihl ihr =>
    obtain ⟨hname, level, hlevel, -, hcmp, -⟩ :=
      levels_agree op (Js.mem_flatten_of_findIdx? hk) k hk
    obtain ⟨rfl, -, hlt⟩ := hcmp hop
    refine .binary hname hlevel ihl ihr (fun hloose => ?_) (fun hloose => ?_) ?_
    · exact Nat.le_trans (Nat.le_of_lt hlt) (hl.above_comparisons (by decide) hop hloose)
    · exact Nat.le_trans hlt (hr.above_comparisons (by decide) hop hloose)
    · simp [hl.isText_eq_false, hr.isText_eq_false]
  | tighter _ ih => exact ih

/-- Operators keep their grouping. An expression that respects the precedence of the source is given
    code as soon as its names and literals have code, and JavaScript reads the code as the same tree
    of operators and as no other; without it there is no code. -/
theorem operators_keep_their_grouping (r : Reader) (place : Place) (s : State) {e : Expr}
    {t : Js.Term} (h : Says (place.word s.scopes) 0 e t) (hs : s.scopes.Reached)
    (hself : ∀ type ∈ place.selfType, Js.isOperand type) :
    (e.hasCode place = true → ∃ code, (r.emit e .value place s).1 = .ok code ∧
      ∀ u, Js.ReadsAs code.text u ↔ u = t) ∧
    (e.hasCode place = false → ∃ err, (r.emit e .value place s).1 = .error err) := by
  have hemit := h.emitted r.expand hs hself
  constructor
  · intro hc
    obtain ⟨code, hrun, hw⟩ := hemit.code hc
    exact ⟨code, congrArg Prod.fst hrun, hw.readsAs_iff⟩
  · intro hc
    obtain ⟨err, hrun⟩ := hemit.failure hc
    exact ⟨err, congrArg Prod.fst hrun⟩

theorem Says.loosen {word : String → String} {j : Nat} {e : Expr} (h : Says word k e t)
    (hle : j ≤ k) : Says word j e t := by
  induction hle with
  | refl => exact h
  | step _ ih => exact ih h.tighter

/-- In `x & r#in == 0 || --y`, where `x` was declared twice, the mask is compared, both names of it
    become others, and the two minus signs stay apart. -/
theorem masked_comparison_keeps_its_grouping :
    let s : State := { scopes := ((({} : Scopes).declare "x").2.declare "x").2 }
    ∃ code, ((Reader.ofTable []).emit (.binary "||"
          (.binary "==" (.binary "&" (.ident "x") (.ident "r#in")) (.lit (.int (0 : Nat))))
          (.unary "-" (.unary "-" (.ident "y")))) .value {} s).1 = .ok code ∧
      ∀ u, Js.ReadsAs code.text u ↔
        u = .binary "||" (.binary "===" (.binary "&" (.word "x_1") (.word "in_")) (.number 0))
          (.unary "-" (.unary "-" (.word "y"))) := by
  intro s
  let word := Place.word {} s.scopes
  have hident {name w : String} (hname : Name.isIdentifier name) (hw : word name = w) {k : Nat}
      (hk : k ≤ 10) : Says word k (.ident name) (.word w) :=
    hw ▸ (Says.ident hname).loosen hk
  have hx : Says word 5 (.ident "x") (.word "x_1") :=
    hident (by decide) (by decide +kernel) (by decide)
  have hin : Says word 6 (.ident "r#in") (.word "in_") :=
    hident (by decide) (by decide +kernel) (by decide)
  have hy : Says word 9 (.ident "y") (.word "y") :=
    hident (by decide) (by decide +kernel) (by decide)
  have hmask : Says word 5 (.binary "&" (.ident "x") (.ident "r#in")) _ :=
    .binary (by decide) (by decide) hx hin
  have hzero : Says word 10 (.lit (.int (0 : Nat))) (.number 0) := .int 0
  have hequal : Says word 2 (.binary "==" _ (.lit (.int (0 : Nat)))) _ :=
    .comparison (by decide) (by decide) (hmask.loosen (show 3 ≤ 5 by decide))
      (hzero.loosen (show 3 ≤ 10 by decide))
  have hminus : Says word 9 (.unary "-" (.unary "-" (.ident "y"))) _ :=
    .unary (by decide) (.unary (by decide) hy)
  have hall : Says word 0 (.binary "||" _ _) _ :=
    .binary (by decide) (by decide) (hequal.loosen (show 0 ≤ 2 by decide))
      (hminus.loosen (show 1 ≤ 9 by decide))
  have hs : s.scopes.Reached := (Scopes.Reached.start.declare (by decide)).declare (by decide)
  exact (operators_keep_their_grouping (Reader.ofTable []) {} s hall hs (by simp)).1 (by decide)

end RustScript
