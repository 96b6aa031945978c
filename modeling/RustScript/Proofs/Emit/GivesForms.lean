/-
  What the forms of expressions, statements and functions give.

  A form keeps the rules if its parts do, provided that the names it writes by itself are lawful.
-/
import RustScript.Proofs.Emit.GivesControl

namespace RustScript

open Js (Policy Around Site)
open Layout (Neutral)
open Position (TailFit)

variable {P : Policy} {here : Setting} {law : Law}

/-! ## Expressions -/

theorem Path.mem_of_lastTwo? {segments : List String} {owner name : String}
    (h : Path.lastTwo? segments = some (owner, name)) : owner ∈ segments ∧ name ∈ segments := by
  unfold Path.lastTwo? at h
  split at h
  · next last owner init hrev =>
    cases h
    have hmem : ∀ x ∈ segments.reverse, x ∈ segments := fun _ hx => List.mem_reverse.mp hx
    rw [hrev] at hmem
    exact ⟨hmem _ (by simp), hmem _ (by simp)⟩
  · cases h

theorem Js.text_ofOperators {ops : List String} (hops : (ops.all fun op => decide
      (Layout.closersAfter false [] (' ' :: op.toList ++ [' ']) = some [])) = true)
    {op : String} (h : ops.contains op = true) : P.Text (" " ++ op ++ " ") := by
  have hop := of_decide_eq_true (List.all_eq_true.mp hops op (List.contains_iff_mem.mp h))
  have htext := Js.text_operator (P := P) hop
  rwa [String.ofList_toList] at htext

theorem text_binaryOperator? {op jsOp : String} (h : binaryOperator? op = some jsOp) :
    P.Text (" " ++ jsOp ++ " ") := by
  unfold binaryOperator? at h
  split at h
  · cases h
    exact Js.text_operator (by decide)
  · cases h
    exact Js.text_operator (by decide)
  · split at h
    · next hop =>
      cases h
      exact Js.text_ofOperators (by decide) hop
    · cases h

namespace Emit.Gives

variable {tries tries' : Bool} {x : Emit Js.Expr} {segments : List String} {op : String}

theorem literal (value : Literal) : GivesValue P here false (literal value) := by
  unfold Emit.literal
  split
  · refine pure fun _ => ?_
    trivial
  · split
    · refine pure fun _ => ?_
      exact fun _ => value.neutral_spelling
    · exact throw _

theorem atom {name : Emit String} (h : Gives P here tries name fun _ text => P.Plain text) :
    GivesValue P here tries (do return .atom (← name)) := by
  refine h.map fun _ _ htext => ?_
  exact htext.text

theorem path (serves : law.Serves P) (h : P.Lets (segments.all law.name)) :
    GivesValue P here false (path segments) := by
  unfold Emit.path
  split
  · exact atom (ident (serves.plain_of_mem h (by simp)))
  · split
    · exact throw _
    · next owner name htwo =>
      obtain ⟨howner, hname⟩ := Path.mem_of_lastTwo? htwo
      have howner := serves.plain_of_mem h howner
      have hname := serves.plain_of_mem h hname
      split
      · next code hcode =>
        refine pure fun _ => ?_
        exact Idiom.text_constant? hcode
      · split
        · refine pure fun _ => ?_
          exact .code (by decide)
        · refine (typeName howner).map fun site owner howner => ?_
          split
          · exact ⟨hname.text, howner.1.text⟩
          · exact hname.target.text

theorem unary (h : GivesValue P here tries x) : GivesValue P here tries (unary op x) := by
  unfold Emit.unary
  split
  · next hop =>
    refine h.map fun site code hcode => ?_
    have htext : P.Text op := by
      have hmem : op = "-" ∨ op = "!" := by simpa [unaryOperators] using hop
      rcases hmem with rfl | rfl <;> exact .code (by decide)
    exact ⟨htext, hcode.parenIf _⟩
  · exact refuse _

theorem binary {isText : Bool} {parts : Emit (List Js.Part)} {left right : Emit Js.Expr}
    {row : List (Option String)}
    (hparts : Gives P here (tries || tries') parts (Position.part.Obeys P row))
    (hrow : op = "+" → P.neutral → Js.joinsSafely row = true)
    (hleft : GivesValue P here tries left) (hright : GivesValue P here tries' right) :
    GivesValue P here (tries || tries') (binary op isText parts left right) := by
  unfold Emit.binary
  split
  · exact refuse _
  · next jsOp hop =>
    split
    · next hsum =>
      refine hparts.map fun site parts hparts => ?_
      have hplus : op = "+" := by
        rw [Bool.and_eq_true, beq_iff_eq] at hsum
        exact hsum.1
      rw [Js.Expr.Obeys, hparts.1]
      exact ⟨hrow hplus, hparts.2⟩
    · refine hleft.bind fun left => hright.map fun site right hright hleft => ?_
      exact ⟨text_binaryOperator? hop, hleft, hright⟩

theorem assign {target value : Emit Js.Expr} (htarget : GivesValue P here tries target)
    (hvalue : GivesValue P here tries' value) :
    GivesValue P here (tries || tries') (assign op target value) := by
  unfold Emit.assign
  split
  · next hop =>
    refine htarget.bind fun target => hvalue.map fun site value hvalue htarget => ?_
    exact ⟨Js.text_ofOperators (by decide) hop, htarget, hvalue⟩
  · exact refuse _

theorem callName {name : String} (hname : P.Plain name) (args : List Js.Expr) :
    Gives P here false (callName name args) fun site code =>
      Js.exprsObey P site.toAround args → code.Obeys P site.toAround := by
  refine readBind ?_
  split
  · refine (typeName hname).map fun site type ⟨htype, _⟩ hargs => ?_
    exact ⟨htype.text, hargs⟩
  · refine (ident hname).map fun site text htext hargs => ?_
    exact ⟨htext.text, hargs⟩

theorem callPath (serves : law.Serves P) (h : P.Lets (segments.all law.name))
    (args : List Js.Expr) :
    Gives P here false (callPath segments args) fun site code =>
      Js.exprsObey P site.toAround args → code.Obeys P site.toAround := by
  unfold Emit.callPath
  split
  · exact throw _
  · next owner func htwo =>
    obtain ⟨howner, hfunc⟩ := Path.mem_of_lastTwo? htwo
    have howner := serves.plain_of_mem h howner
    have hfunc := serves.plain_of_mem h hfunc
    refine ((typeName howner).bindFact fun type ⟨htype, _⟩ => ?_).congr (Bool.or_false _)
    split
    · next code hcode =>
      refine pure fun site hargs => ?_
      rcases Idiom.exists_of_orElse hcode with hcode | hcode
      · exact Idiom.obeys_associated? hargs hcode
      · exact Idiom.obeys_numeric? hfunc hargs hcode
    · refine pure fun site hargs => ?_
      split
      · exact ⟨⟨hfunc.text, htype.text⟩, hargs⟩
      · exact ⟨hfunc.target.text, hargs⟩

end Emit.Gives

namespace Emit

variable {around : Around} {name : String} {code : Js.Expr}

theorem obeys_wrapped? {args : List Expr} {codes : List Js.Expr}
    (hcodes : Js.exprsObey P around codes) (h : wrapped? name args codes = some code) :
    code.Obeys P around := by
  unfold wrapped? at h
  split at h
  · rw [Js.exprsObey] at hcodes
    split at h
    · cases h
      exact hcodes.1.parenIf _
    split at h
    · cases h
      simp only [Js.Expr.Obeys, Js.propsObey, and_true]
      exact ⟨.code (by decide), hcodes.1⟩
    split at h
    · cases h
      simp only [Js.Expr.Obeys, Js.propsObey, and_true]
      exact ⟨.code (by decide), hcodes.1⟩
    · cases h
  · cases h

theorem obeys_field {obj : Js.Expr} (hobj : obj.Obeys P around) (hname : P.Plain name) :
    (field obj name).Obeys P around := by
  unfold field
  split
  · exact ⟨hobj, hname.text⟩
  · exact ⟨hname.text, hobj⟩

theorem obeys_methodCall {receiver : Expr} {recv : Js.Expr} {method : String}
    {args : List Js.Expr} (hmethod : P.Plain method) (hrecv : recv.Obeys P around)
    (hargs : Js.exprsObey P around args) : (methodCall receiver recv method args).Obeys P around := by
  unfold methodCall
  cases hfound : Idiom.method? recv method args receiver.isSimple receiver.isHost with
  | some code => exact Idiom.obeys_method? hrecv hargs hfound
  | none => exact ⟨⟨hmethod.text, hrecv⟩, hargs⟩

theorem obeys_borrow {e : Expr} {isMutable : Bool} (h : code.Obeys P around) :
    (borrow e isMutable code).Obeys P around := by
  unfold borrow
  split
  · exact ⟨Js.text_note (by decide) (by decide), h⟩
  · exact h

theorem obeys_repeated {value count : Js.Expr}
    (hvalue : ∀ isAsync, value.Obeys P { around with isAsync }) (hcount : count.Obeys P around) :
    (Macro.repeated value count).Obeys P around := by
  refine Idiom.obeys_named (.code (by decide)) ?_
  simp only [Js.exprsObey, Js.Expr.Obeys, Js.propsObey, and_true]
  exact ⟨⟨.code (by decide), hcount⟩, Js.text_names [] (by decide), hvalue false⟩

end Emit

/-! ## Struct literals -/

namespace Emit

variable {around : Around} {values : List (String × Js.Expr)}

/-- The field values keep the rules, and the names are fit to be written. -/
def FieldsObey (P : Policy) (around : Around) (values : List (String × Js.Expr)) : Prop :=
  ∀ v ∈ values, P.Plain v.1 ∧ v.2.Obeys P around

theorem obeys_fields (h : FieldsObey P around values) {prop : String × Js.Expr → Js.Property}
    (hprop : ∀ v, prop v = .short v.1 ∨ prop v = .pair v.1 v.2) :
    Js.propsObey P around (values.map prop) := by
  induction values with
  | nil => trivial
  | cons v values ih =>
    obtain ⟨hname, hcode⟩ := h v List.mem_cons_self
    have ih := ih fun w hw => h w (List.mem_cons_of_mem _ hw)
    rw [List.map_cons]
    rcases hprop v with hv | hv
    · rw [hv, Js.propsObey]
      exact ⟨hname.text, ih⟩
    · rw [hv, Js.propsObey]
      exact ⟨hname.text, hcode, ih⟩

theorem obeys_variantFields (h : FieldsObey P around values) :
    Js.propsObey P around (variantFields values) :=
  obeys_fields h fun (name, code) => by
    dsimp only
    split
    · exact .inl rfl
    · exact .inr rfl

theorem obeys_inFieldOrder (h : FieldsObey P around values) (order : List String) :
    Js.exprsObey P around (inFieldOrder values order) := by
  refine Js.exprsObey_iff.mpr fun e he => ?_
  obtain ⟨name, -, rfl⟩ := List.mem_map.mp he
  cases hfound : values.reverse.lookup name with
  | none => exact .code (by decide)
  | some code =>
    obtain ⟨before, after, hlist, -⟩ := List.lookup_eq_some_iff.mp hfound
    refine (h (name, code) (List.mem_reverse.mp ?_)).2
    rw [hlist]
    exact List.mem_append_right _ List.mem_cons_self

theorem Gives.selfObject {type : String} (htype : P.Plain type) (values : List (String × Js.Expr)) :
    Gives P here false (selfObject type values) fun site code =>
      FieldsObey P { site.toAround with isAsync := false } values → code.Obeys P site.toAround := by
  refine (fresh "obj" (by decide)).map fun site temp htemp hvalues => ?_
  have hassigns : Js.blockObeys P (.value site.toAround false) (values.map fun v =>
      Js.Stmt.expr (.binary "=" (.member (.atom temp) v.1) v.2)) := by
    induction values with
    | nil => trivial
    | cons v values ih =>
      obtain ⟨hname, hcode⟩ := hvalues v List.mem_cons_self
      exact ⟨⟨Js.text_operator (by decide), ⟨hname.text, htemp.text⟩, hcode⟩,
        ih fun w hw => hvalues w (List.mem_cons_of_mem _ hw)⟩
  have hparams : P.Text (Js.paramsText []) := Js.text_names [] (by decide)
  simp only [Js.Expr.Obeys, Js.exprsObey, Js.blockObeys, Js.blockObeys_append, List.cons_append,
    Js.Stmt.Obeys, Js.Binding.text, and_true]
  exact ⟨hparams, ⟨htemp.text, htype.text⟩, hassigns, .code (by decide), htemp.text⟩

theorem Gives.structLit (serves : law.Serves P) (hknows : law.Knows here.place) {tries : Bool}
    {path : List String} (hpath : P.Lets (path.all law.name))
    {base : Option (Emit Js.Expr)} (hbase : GivesAction P here tries base)
    (values : List (String × Js.Expr)) :
    Gives P here tries (structLit path values base) fun site code =>
      FieldsObey P site.toAround values →
      (law.fillsIn path base = true → FieldsObey P { site.toAround with isAsync := false } values) →
      code.Obeys P site.toAround := by
  refine ofExceptBind fun name hlast => ?_
  have hname : P.Plain name :=
    serves.plain_of_mem hpath (List.mem_of_getLast? (Path.getLast?_of_last hlast))
  split
  · have hobj {site : Site} (hvalues : FieldsObey P site.toAround values) :
        (Js.Expr.object (.pair "type" (.atom ("\"" ++ name ++ "\"")) ::
          variantFields values)).Obeys P site.toAround :=
      ⟨.code (by decide), fun hP => .quoted (hname hP), obeys_variantFields hvalues⟩
    cases base with
    | none =>
      rw [show tries = false from hbase]
      exact pure fun site hvalues _ => hobj hvalues
    | some base =>
      refine Gives.map hbase fun site base hbase hvalues _ => ?_
      refine Idiom.obeys_named (.code (by decide)) ?_
      exact ⟨.code (by decide), hbase, hobj hvalues, trivial⟩
  · next hvariant =>
    refine (typeName hname).bindFact fun type htype => ?_
    obtain ⟨htype, hfrom⟩ := htype
    cases base with
    | some base =>
      refine Gives.map hbase fun site base hbase hvalues _ => ?_
      have hpairs : Js.propsObey P site.toAround (values.map fun v => .pair v.1 v.2) :=
        obeys_fields hvalues fun _ => .inr rfl
      have hcopy : Js.exprsObey P site.toAround [Idiom.named "Object.getPrototypeOf" [base]] :=
        ⟨Idiom.obeys_named (.code (by decide)) ⟨hbase, trivial⟩, trivial⟩
      refine Idiom.obeys_named (.code (by decide)) ?_
      exact ⟨Idiom.obeys_named (.code (by decide)) hcopy, hbase, hpairs, trivial⟩
    | none =>
      rw [show tries = false from hbase]
      refine readBind ?_
      split
      · next hself =>
        -- the type is the one that methods belong to, by either of its names
        have hown : law.own name = true := hknows name (hfrom.imp id fun heq => by
          rw [← heq]
          simpa using hself)
        have hfills : law.fillsIn path (none : Option (Emit Js.Expr)) = true := by
          simp [Law.fillsIn, Bool.eq_false_iff.mpr hvariant, Path.getLast?_of_last hlast, hown]
        exact (selfObject htype values).mono fun site code hcode _ hvalues => hcode (hvalues hfills)
      · split
        · refine pure fun site hvalues _ => ?_
          refine ⟨htype.text, Js.exprsObey_iff.mpr fun e he => ?_⟩
          obtain ⟨v, hv, rfl⟩ := List.mem_map.mp he
          exact (hvalues v hv).2
        · refine pure fun site hvalues _ => ?_
          exact ⟨htype.text, obeys_inFieldOrder hvalues _⟩

end Emit

/-! ## Functions -/

/-- Whether the statements are a handler for what `?` throws. -/
def Js.isGuarded : List Js.Stmt → Bool
  | [.catchTry _] => true
  | _ => false

theorem Js.isGuarded_of_obeys {site : Site} (hsite : site.isBody = false) {lines : List Js.Stmt}
    (h : Js.blockObeys P site lines) : Js.isGuarded lines = false := by
  unfold Js.isGuarded
  split
  · rw [Js.blockObeys_singleton, Js.Stmt.Obeys, hsite] at h
    cases h.1
  · rfl

namespace Emit

/-- What is known of the parameters and the body of a function that uses `?` or does not. -/
structure IsFunction (P : Policy) (tries isAsync : Bool) (params : List Js.Binding)
    (body : List Js.Stmt) : Prop where
  params : P.Text (Js.paramsText params)
  guarded : Js.isGuarded body = tries
  body : Js.blockObeys P (.body isAsync) body

theorem isFunction_guarded {tries isAsync : Bool} {params : List Js.Binding} {lines : List Js.Stmt}
    (hparams : P.Text (Js.paramsText params))
    (h : ∀ site : Site, (tries = true → site.caught = true) → site.inValue = false →
      site.isAsync = isAsync → Js.blockObeys P site lines) :
    IsFunction P tries isAsync params (guarded tries lines) := by
  cases tries with
  | true =>
    refine ⟨hparams, rfl, ?_⟩
    have hlines := h { (Site.body isAsync).inner with caught := true } (fun _ => rfl) rfl rfl
    unfold guarded
    rw [if_pos rfl, Js.blockObeys_singleton, Js.Stmt.Obeys]
    exact ⟨rfl, hlines⟩
  | false =>
    have hnone (site : Site) : false = true → site.caught = true :=
      fun h => absurd h Bool.false_ne_true
    have hinside := h (Site.body isAsync).inner (hnone _) rfl rfl
    exact ⟨hparams, Js.isGuarded_of_obeys rfl hinside, h (.body isAsync) (hnone _) rfl rfl⟩

/-- The code is a closure that keeps the rules, with a handler exactly if `tries` holds. -/
inductive IsClosure (P : Policy) (tries : Bool) : Js.Expr → Prop where
  | block {isAsync : Bool} {params : List Js.Binding} {body : List Js.Stmt}
      (h : IsFunction P tries isAsync params body) :
      IsClosure P tries (.arrowBlock .source isAsync params body)
  | value {isAsync : Bool} {params : List Js.Binding} {code : Js.Expr} (htries : tries = false)
      (hparams : P.Text (Js.paramsText params)) (hcode : code.Obeys P { isAsync }) :
      IsClosure P tries (.arrow .source isAsync params code)

theorem IsClosure.obeys {tries : Bool} {code : Js.Expr} (h : IsClosure P tries code)
    (around : Around) : code.Obeys P around := by
  cases h with
  | block h => exact ⟨h.params, h.body⟩
  | value htries hparams hcode => exact ⟨hparams, hcode⟩

def ClosureBody.Obeys (P : Policy) (site : Site) : ClosureBody → Prop
  | value code => code.Obeys P site.toAround
  | block lines => Js.blockObeys P site lines

namespace Gives

variable {tries : Bool} {α : Type} {Q : Site → α → Prop} {ps : List Param} {isAsync : Bool}
  {body : Emit (List Js.Stmt)}

theorem withParams (serves : law.Serves P) (hparams : P.Lets (ps.all fun p => p.pat.isLawful law))
    (isAsync : Bool) {body : Emit α}
    (hbody : Gives P { here with mode := .body isAsync } tries body Q) :
    Gives P here false (Emit.inFunction isAsync (Emit.inScope do
        let bindings ← Emit.params ps
        return (bindings, ← body)))
      fun _ result => P.Text (Js.paramsText result.1.1) ∧ result.2 = tries ∧
        ∀ site : Site, (tries = true → site.caught = true) → site.inValue = false →
          site.isAsync = isAsync → Q site result.1.2 := by
  have hrest : Gives P { here with mode := .body isAsync } tries (do
      let bindings ← Emit.params ps
      return (bindings, ← body)) fun site result =>
        P.Text (Js.paramsText result.1) ∧ Q site result.2 :=
    ((params serves hparams).bindFact fun bindings hbindings =>
      hbody.map fun site a ha => ⟨hbindings, ha⟩).congr (Bool.false_or _)
  refine (inFunction hrest.inScope).mono fun _ result h => ?_
  obtain ⟨htries, hQ⟩ := h
  refine ⟨(hQ { caught := true, isAsync } (fun _ => rfl) rfl rfl).1, htries, ?_⟩
  exact fun site hcaught hvalue hasync => (hQ site hcaught hvalue hasync).2

theorem function (serves : law.Serves P) (hparams : P.Lets (ps.all fun p => p.pat.isLawful law))
    (hbody : GivesLines P { here with mode := .body isAsync } tries body) :
    Gives P here false (function isAsync ps body) fun _ result =>
      IsFunction P tries isAsync result.1 result.2 := by
  refine (withParams serves hparams isAsync hbody).map fun _ result h => ?_
  obtain ⟨⟨bindings, lines⟩, usesTry⟩ := result
  obtain ⟨hbindings, rfl, hlines⟩ := h
  exact isFunction_guarded hbindings hlines

theorem closure (serves : law.Serves P) (hparams : P.Lets (ps.all fun p => p.pat.isLawful law))
    {body : Emit ClosureBody}
    (hbody : Gives P { here with mode := .body isAsync } tries body (ClosureBody.Obeys P)) :
    Gives P here false (closure isAsync ps body) fun _ code => IsClosure P tries code := by
  refine (withParams serves hparams isAsync hbody).bindFact fun result h => ?_
  obtain ⟨⟨bindings, body⟩, usesTry⟩ := result
  obtain ⟨hbindings, rfl, hbody⟩ := h
  cases body with
  | block lines => exact pure fun _ => .block (isFunction_guarded hbindings hbody)
  | value code =>
    cases usesTry with
    | true =>
      have hlines : ∀ site : Site, (true = true → site.caught = true) → site.inValue = false →
          site.isAsync = isAsync → Js.blockObeys P site [.deliver .ret code] := by
        intro site hcaught hvalue hasync
        exact ⟨⟨.code (by decide), hbody site hcaught hvalue hasync⟩, trivial⟩
      exact pure fun _ => .block (isFunction_guarded hbindings hlines)
    | false =>
      have hcode : code.Obeys P { isAsync } := hbody (.body isAsync) nofun rfl rfl
      exact pure fun _ => .value rfl hbindings (hcode.parenIf _)

theorem asyncBlock (hbody : GivesLines P { here with mode := .async } tries body) :
    Gives P here false (asyncBlock body) fun _ code => ∃ lines, IsFunction P tries true [] lines ∧
      code = .call (.paren (.arrowBlock .source true [] lines)) [] := by
  have hbody : GivesLines P { here with mode := .body true } tries body := hbody
  refine (inFunction hbody).map fun _ result h => ?_
  obtain ⟨lines, usesTry⟩ := result
  obtain ⟨rfl, hlines⟩ := h
  exact ⟨_, isFunction_guarded (Js.text_names [] (by decide)) hlines, rfl⟩

end Gives

end Emit

/-! ## Blocks and statements -/

namespace Emit.Gives

variable {tries tries' tries'' : Bool} {tail : Option Js.Tail} {body : Emit (List Js.Stmt)}
  {value : Emit Js.Expr} {isSimple : Bool}

theorem blockStmt (serves : law.Serves P) {label : Option String}
    (hlabel : P.Lets (label.all law.label)) (htail : TailFit P tail)
    (hbody : GivesLines P here tries body) :
    GivesLines P here tries (blockStmt label tail body) := by
  cases label with
  | none =>
    have hinside := hbody.within (fun site => site.labelled none) fun _ _ h => h.labelled none
    refine hinside.map fun site lines hlines => ?_
    refine ⟨⟨?_, hlines⟩, trivial⟩
    rintro _ ⟨⟩
  | some name =>
    refine (inTarget hbody ⟨some name, tail, true⟩ htail).map fun site lines hlines => ?_
    refine ⟨⟨?_, hlines _ rfl rfl ?_ ?_ fun _ h => List.mem_append_right _ h⟩, trivial⟩
    · intro target htarget
      obtain rfl : labelName name = target := by simpa using htarget
      exact serves.textOfLabel hlabel
    · rintro (hblock | hloop)
      · cases hblock
      · exact hloop
    · intro label hmem _
      obtain rfl : name = label := by simpa using hmem
      exact List.mem_cons_self

theorem named (hvalue : GivesValue P here tries value) (isSimple : Bool) :
    Gives P here tries (named value isSimple) fun site result =>
      Js.blockObeys P site result.1 ∧ P.Text result.2 := by
  refine (hvalue.bind fun code => ?_).congr (Bool.or_false _)
  split
  · refine pure fun site hcode => ⟨?_, hcode.text⟩
    trivial
  · refine (fresh "tmp" (by decide)).map fun site temp htemp hcode => ⟨?_, htemp.text⟩
    exact ⟨⟨htemp.text, hcode⟩, trivial⟩

theorem ternary {cond yes no : Emit Js.Expr} (hcond : GivesValue P here tries cond)
    (hyes : GivesValue P here tries' yes) (hno : GivesValue P here tries'' no) :
    GivesValue P here (tries || (tries' || tries'')) (ternary cond yes no) := by
  -- the parts are emitted in another order than they are written
  rw [← Bool.or_assoc, Bool.or_comm]
  refine hno.bind fun no => hcond.bind fun cond => hyes.map fun site yes hyes hcond hno => ?_
  exact ⟨hcond, hyes, hno⟩

/-- The branches behind an `else` keep the rules. -/
def ElseObeys (P : Policy) (site : Site) (orelse : Else) : Prop :=
  Js.branchesObey P site orelse.1 ∧ Js.otherwiseObeys P site orelse.2

theorem ifLet (serves : law.Serves P) {pat : Pat} (hpat : P.Lets (pat.isLawful law))
    (hvalue : GivesValue P here tries value) (hbody : GivesLines P here tries' body)
    {orelse : Emit Else} (horelse : Gives P here tries'' orelse (ElseObeys P)) :
    GivesLines P here (tries || (tries' || tries'')) (ifLet pat value isSimple body orelse) := by
  refine (named hvalue isSimple).bindWith (F := fun result => P.Text result.2)
    (fun _ _ h => h.2) fun result hsubject => ?_
  obtain ⟨lines, subject⟩ := result
  refine (matcher serves hpat hsubject).bindFact fun m hm => ?_
  have hinside := (matched hm.2 hbody).within Site.inner fun _ _ => Fits.inner
  refine hinside.bind fun body => horelse.map fun site orelse horelse hbody hlines => ?_
  rw [Js.blockObeys_append, Js.blockObeys_singleton, Js.Stmt.obeys_branch]
  exact ⟨hlines.1, ⟨hm.2.tests, hbody, horelse.1⟩, horelse.2⟩

theorem letElse (serves : law.Serves P) {pat : Pat} (hpat : P.Lets (pat.isLawful law))
    (hvalue : GivesValue P here tries value) (hbody : GivesLines P here tries' body) :
    GivesLines P here (tries || tries') (letElse pat value isSimple body) := by
  refine (named hvalue isSimple).bindWith (F := fun result => P.Text result.2)
    (fun _ _ h => h.2) fun result hsubject => ?_
  obtain ⟨lines, subject⟩ := result
  refine (matcher serves hpat hsubject).bindFact fun m hm => ?_
  have hinside := hbody.within Site.inner fun _ _ => Fits.inner
  refine (hinside.bind fun body => ?_).congr (Bool.or_false _)
  refine (bindMatched hm.2.bindings).map fun site bindings hbindings hbody hlines => ?_
  rw [Js.blockObeys_append, Js.blockObeys, Js.Stmt.obeys_branch]
  exact ⟨hlines.1, ⟨⟨⟨.code (by decide), hm.2.tests⟩, hbody, trivial⟩, trivial⟩, hbindings⟩

section

variable (serves : law.Serves P) {pat : Pat} (hpat : P.Lets (pat.isLawful law))
include serves hpat

theorem letBare : GivesLines P here false (letBare pat) := by
  unfold Emit.letBare
  split
  · refine (declare (serves.plain hpat)).map fun site target htarget => ?_
    exact ⟨htarget.text, trivial⟩
  · refine pure fun site => ?_
    trivial
  · exact refuse _

theorem letValue (hvalue : GivesValue P here tries value) :
    GivesLines P here tries (letValue pat value) := by
  refine (hvalue.bind fun code => ?_).congr (Bool.or_false _)
  refine (destructure serves pat hpat).map fun site binding hbinding hcode => ?_
  exact ⟨⟨hbinding, hcode⟩, trivial⟩

theorem letControl {body : Js.Tail → Emit (List Js.Stmt)}
    (hbody : ∀ tail, TailFit P (some tail) → GivesLines P here tries (body tail)) :
    GivesLines P here tries (letControl pat body) := by
  have hdeclare {site : Site} {name : String} (hname : P.Plain name) :
      (Js.Stmt.declare .var (.name name) none).Obeys P site := hname.text
  unfold Emit.letControl
  split
  · next name hname =>
    have hplain : P.Plain name := by
      unfold Pat.plainName? at hname
      split at hname
      · cases hname
        exact serves.plain hpat
      · cases hname
    refine (reserve hplain).bindFact fun target htarget => ?_
    refine ((hbody _ (.into htarget)).bind fun lines => ?_).congr (Bool.or_false _)
    refine (bindName name htarget).map fun site _ _ hlines => ?_
    exact ⟨hdeclare htarget, hlines⟩
  · refine (fresh "tmp" (by decide)).bindFact fun temp htemp => ?_
    refine ((hbody _ (.into htemp)).bind fun lines => ?_).congr (Bool.or_false _)
    refine (destructure serves pat hpat).map fun site binding hbinding hlines => ?_
    have hlast : (Js.Stmt.declare (.of pat.hasMutable) binding (some (.atom temp))).Obeys P site :=
      ⟨hbinding, htemp.text⟩
    rw [List.cons_append, Js.blockObeys, Js.blockObeys_append, Js.blockObeys_singleton]
    exact ⟨hdeclare htemp, hlines, hlast⟩

end

theorem macroStmt {code : Emit Js.Expr} (hcode : GivesValue P here tries code) {m : MacroCall}
    {semi : Bool} (htail : TailFit P tail) :
    GivesLines P here tries (do return [macroStmt m semi tail (← code)]) := by
  refine hcode.map fun site code hcode => ?_
  rw [Js.blockObeys_singleton]
  unfold Emit.macroStmt
  split
  · next lead =>
    split
    · exact ⟨htail lead rfl, hcode⟩
    · exact hcode
  · exact hcode

end Emit.Gives

/-! ## Macros -/

namespace Template

def Piece.text? : Piece → Option String
  | .text value => some value
  | .slot _ => none

variable {pieces : List Piece}

/-- A text is followed by a placeholder, so that texts never run into each other. -/
theorem joinsSafely_flush {buffer : List Char}
    (hpieces : Js.joinsSafely (pieces.map Piece.text?) = true)
    (hfirst : Js.firstChar? (pieces.map Piece.text?) = none) :
    Js.joinsSafely ((flush buffer pieces).map Piece.text?) = true := by
  unfold flush
  split
  · exact hpieces
  · simp [Piece.text?, Js.joinsSafely, hpieces, hfirst]

theorem joinsSafely_piecesFrom {template : String} {skip : Nat} {buffer cs : List Char}
    (h : piecesFrom template skip buffer cs = .ok pieces) :
    Js.joinsSafely (pieces.map Piece.text?) = true := by
  induction cs generalizing skip buffer pieces with
  | nil => cases skip <;> cases h <;> exact joinsSafely_flush rfl rfl
  | cons c cs ih =>
    cases skip with
    | succ skip => exact ih h
    | zero =>
      rw [piecesFrom] at h
      split at h
      · split at h
        · exact ih h
        split at h
        · obtain ⟨rest, hrest, rfl⟩ := exists_of_return_eq_ok h
          refine joinsSafely_flush ?_ rfl
          rw [List.map_cons, Piece.text?, Js.joinsSafely]
          exact ih hrest
        · cases h
      split at h
      · split at h
        · exact ih h
        · cases h
      · exact ih h

end Template

namespace Macro

open Emit (GivesValue)

theorem isPlainText_of_places? {spec places : String} (h : places? spec = some places) :
    Layout.isPlainText places = true := by
  unfold places? at h
  split at h
  · split at h
    · next hdigits =>
      cases h
      simp only [Layout.isPlainText, String.toList_ofList]
      refine List.all_eq_true.mpr fun c hc => ?_
      exact Layout.isPlain_of_isDecimal (List.all_eq_true.mp hdigits c hc)
    · cases h
  · cases h

theorem obeys_showAs {value : Js.Expr} {around : Around} (h : value.Obeys P around)
    (p : Placeholder) : (showAs value p).Obeys P around := by
  have hargs : Js.exprsObey P around [value] := ⟨h, trivial⟩
  unfold showAs
  split
  · exact Idiom.obeys_named (.code (by decide)) hargs
  split
  · next places hplaces =>
    have hplain : P.Plain places := fun _ => isPlainText_of_places? hplaces
    have hnumber : (Idiom.named "Number" [value]).Obeys P around :=
      Idiom.obeys_named (.code (by decide)) hargs
    simp only [Js.Expr.Obeys, Js.exprsObey, and_true]
    exact ⟨⟨.code (by decide), hnumber⟩, hplain.text⟩
  · exact h

/-- The arguments keep the rules, and those with a name are the named ones among the parts. -/
structure Given.Obeys (P : Policy) (around : Around) (args : Given) : Prop where
  positional : ∀ e ∈ args.positional, e.Obeys P around
  byName : ∀ v ∈ args.byName, v.2.Obeys P around

/-- The arguments with names are those among the parts, the last one first. -/
def Given.IsFor (args : Given) (parts : List String) : Prop :=
  args.byName.map Prod.fst = ((parts.filterMap namedArgument?).map Prod.fst).reverse

theorem Given.IsFor.isSome_lookup {args : Given} {parts : List String} (h : args.IsFor parts)
    (key : String) : (args.byName.lookup key).isSome =
      (parts.filterMap namedArgument?).any fun named => named.1 == key := by
  have hlookup : (args.byName.lookup key).isSome = (args.byName.map Prod.fst).contains key := by
    induction args.byName with
    | nil => rfl
    | cons v vs ih =>
      rw [List.lookup_cons, List.map_cons, List.contains_cons]
      cases key == v.1 with
      | true => rfl
      | false => simpa using ih
  rw [hlookup, h, List.contains_reverse, List.contains_map]
  simp [BEq.comm]

section

variable {arg : String → Emit Js.Expr} {ok tries : String → Bool}
  (harg : ∀ text, P.Lets (ok text) → GivesValue P here (tries text) (arg text))
include harg

variable {parts : List String} {tokens : String} {template : String} {args : Given} {next : Nat}
  {okInHelper : String → Bool} {func : String}

theorem gives_given (hparts : P.Lets ((parts.map argumentText).all ok)) :
    Emit.Gives P here ((parts.map argumentText).any tries) (given arg parts) fun site args =>
      args.Obeys P site.toAround ∧ args.IsFor parts := by
  induction parts with
  | nil => exact .pure fun _ => ⟨⟨by simp, by simp⟩, rfl⟩
  | cons part parts ih =>
    simp only [List.map_cons, List.all_cons, lets_and] at hparts
    have hpart := harg (argumentText part) hparts.1
    have ih := ih hparts.2
    rw [List.map_cons, List.any_cons]
    simp only [given]
    rcases hnamed : namedArgument? part with _ | ⟨name, value⟩
    all_goals
      simp only [argumentText, hnamed] at hpart ⊢
      refine hpart.bind fun code => ih.map fun site rest hrest hcode => ⟨?_, ?_⟩
    · exact ⟨List.forall_mem_cons.mpr ⟨hcode, hrest.1.positional⟩, hrest.1.byName⟩
    · simpa [Given.IsFor, hnamed] using hrest.2
    · refine ⟨hrest.1.positional, List.forall_mem_append.mpr ⟨hrest.1.byName, ?_⟩⟩
      exact List.forall_mem_singleton.mpr hcode
    · simpa [Given.IsFor, hnamed] using hrest.2

theorem gives_valueOf {p : Placeholder}
    (hcaptured : P.Lets ((captured? parts (.slot p)).toList.all ok)) (hfor : args.IsFor parts) :
    Emit.Gives P here ((captured? parts (.slot p)).toList.any tries)
      (valueOf arg template args next p)
      fun site result => args.Obeys P site.toAround → result.1.Obeys P site.toAround := by
  unfold valueOf
  unfold captured? at hcaptured ⊢
  by_cases hempty : p.key.isEmpty = true
  · rw [if_pos hempty]
    simp only [hempty, Bool.true_or, if_true]
    split
    · next value hvalue =>
      exact .pure fun _ hargs => hargs.positional value (List.mem_of_getElem? hvalue)
    · exact .throw _
  · rw [if_neg hempty]
    by_cases hdigits : p.key.toList.all Text.isDigit = true
    · rw [if_pos hdigits]
      simp only [hdigits, Bool.or_true, if_true]
      split
      · exact .throw _
      · split
        · next value hvalue =>
          exact .pure fun _ hargs => hargs.positional value (List.mem_of_getElem? hvalue)
        · exact .throw _
    · rw [if_neg hdigits]
      have hname : (p.key.isEmpty || p.key.toList.all Text.isDigit) = false := by
        simp only [Bool.eq_false_iff.mpr hempty, Bool.eq_false_iff.mpr hdigits, Bool.or_self]
      simp only [hname, Bool.false_eq_true, if_false, ← hfor.isSome_lookup] at hcaptured ⊢
      cases hlookup : args.byName.lookup p.key with
      | some value =>
        obtain ⟨before, after, hlist, -⟩ := List.lookup_eq_some_iff.mp hlookup
        refine .pure fun _ hargs => hargs.byName (p.key, value) ?_
        rw [hlist]
        exact List.mem_append_right _ List.mem_cons_self
      | none =>
        simp only [hlookup, Option.isSome_none, Bool.false_eq_true, if_false, Option.toList_some,
          List.all_cons, List.all_nil, Bool.and_true, List.any_cons, List.any_nil, Bool.or_false]
          at hcaptured ⊢
        exact (harg p.key hcaptured).map fun _ _ hcode _ => hcode

/-- By induction on the pieces: each becomes one part. -/
theorem gives_templateParts {pieces : List Template.Piece}
    (hpieces : P.Lets ((pieces.filterMap (captured? parts)).all ok)) (hfor : args.IsFor parts) :
    Emit.Gives P here ((pieces.filterMap (captured? parts)).any tries)
      (templateParts arg template args next pieces) fun site result =>
        args.Obeys P site.toAround → result.map Js.Part.text? = pieces.map Template.Piece.text? ∧
          Js.partsObey P site.toAround result := by
  induction pieces generalizing next with
  | nil =>
    refine .pure fun _ _ => ⟨rfl, ?_⟩
    trivial
  | cons piece pieces ih =>
    cases piece with
    | text value =>
      have hnone : captured? parts (.text value) = none := rfl
      refine (ih hpieces).map fun site result hresult hargs => ?_
      obtain ⟨htexts, hobeys⟩ := hresult hargs
      rw [Js.partsObey, List.map_cons, List.map_cons, htexts]
      exact ⟨rfl, hobeys⟩
    | slot p =>
      have hcons : (Template.Piece.slot p :: pieces).filterMap (captured? parts) =
          (captured? parts (.slot p)).toList ++ pieces.filterMap (captured? parts) := by
        cases hc : captured? parts (.slot p) with
        | none => exact List.filterMap_cons_none hc
        | some key => exact List.filterMap_cons_some hc
      rw [hcons, List.all_append, lets_and] at hpieces
      rw [hcons, List.any_append]
      refine (gives_valueOf harg hpieces.1 hfor).bind fun result => ?_
      refine (ih hpieces.2).map fun site rest hrest hvalue hargs => ?_
      obtain ⟨htexts, hobeys⟩ := hrest hargs
      rw [Js.partsObey, List.map_cons, List.map_cons, htexts]
      exact ⟨rfl, obeys_showAs (hvalue hargs) p, hobeys⟩

theorem gives_format (h : P.Lets ((formatTexts tokens).all ok)) :
    GivesValue P here ((formatTexts tokens).any tries) (format arg tokens) := by
  refine .ofExceptBind fun parts hparts => ?_
  unfold formatTexts at h ⊢
  rw [hparts] at h ⊢
  cases parts with
  | nil =>
    refine .pure fun _ => ?_
    trivial
  | cons first parts =>
    simp only [List.all_append, lets_and] at h
    rw [List.any_append]
    refine .ofExceptBind fun template htemplate => ?_
    refine (gives_given harg h.1).bindWith (F := fun args => args.IsFor parts)
      (fun _ _ hargs => hargs.2) fun args hfor => ?_
    refine .ofExceptBind fun pieces hpieces => ?_
    have hcaptured : capturedIn first parts = pieces.filterMap (captured? parts) := by
      simp only [capturedIn, htemplate, hpieces]
    rw [hcaptured] at h ⊢
    split
    · refine (gives_templateParts harg h.2 hfor).map fun site result hresult hargs => ?_
      obtain ⟨htexts, hobeys⟩ := hresult hargs.1
      rw [Js.Expr.Obeys, htexts]
      exact ⟨fun _ => Template.joinsSafely_piecesFrom hpieces, hobeys⟩
    · next hslots =>
      have hnone : pieces.filterMap (captured? parts) = [] := by
        refine List.filterMap_eq_nil_iff.mpr fun piece hpiece => ?_
        cases piece with
        | text value => rfl
        | slot p => exact absurd (List.any_eq_true.mpr ⟨_, hpiece, rfl⟩) hslots
      rw [hnone]
      refine .pure fun _ _ => ?_
      trivial

theorem gives_each (h : P.Lets (parts.all ok)) :
    Emit.Gives P here (parts.any tries) (each arg parts) fun site codes =>
      Js.exprsObey P site.toAround codes := by
  induction parts with
  | nil =>
    refine .pure fun _ => ?_
    trivial
  | cons part parts ih =>
    simp only [List.all_cons, lets_and] at h
    refine (harg part h.1).bind fun code => (ih h.2).map fun site codes hcodes hcode => ?_
    exact ⟨hcode, hcodes⟩

theorem gives_elements (h : P.Lets ((elementTexts tokens).all ok)) :
    GivesValue P here ((elementTexts tokens).any tries) (do
      let parts ← Emit.ofExcept (Arguments.split tokens ',')
      return .array (← each arg parts)) := by
  refine .ofExceptBind fun elems helems => ?_
  unfold elementTexts at h ⊢
  rw [helems] at h ⊢
  refine (gives_each harg h).map fun site codes hcodes => ?_
  exact hcodes

theorem gives_vector (hhelper : ∀ text, P.Lets (okInHelper text) →
      GivesValue P here.inHelper (tries text) (arg text))
    (h : P.Lets ((vectorTexts tokens).all ok))
    (hrepeated : P.Lets ((repeatedFor? "vec" tokens).all okInHelper)) :
    GivesValue P here ((vectorTexts tokens).any tries) (vector arg tokens) := by
  refine .ofExceptBind fun parts hparts => ?_
  unfold vectorTexts at h ⊢
  unfold repeatedFor? at hrepeated
  rw [hparts] at h hrepeated ⊢
  rcases parts with _ | ⟨value, _ | ⟨count, _ | ⟨third, parts⟩⟩⟩
  · exact gives_elements harg h
  · exact gives_elements harg h
  · simp only [List.all_cons, List.all_nil, Bool.and_true, lets_and] at h
    simp only [List.any_cons, List.any_nil, Bool.or_false]
    have hvalue := (hhelper value hrepeated).inHelper
    refine hvalue.bind fun value => (harg _ h.2).map fun site count hcount hvalue => ?_
    exact Emit.obeys_repeated hvalue hcount
  · exact gives_elements harg h

theorem gives_message (hfunc : P.Text func) {default : List Js.Expr}
    (hdefault : ∀ around, Js.exprsObey P around default)
    (h : P.Lets ((messageTexts tokens).all ok)) :
    GivesValue P here ((messageTexts tokens).any tries) (do
      if (Text.strip tokens).isEmpty then return Idiom.named func default
      else return Idiom.named func [← format arg tokens]) := by
  unfold messageTexts at h ⊢
  split
  · exact .pure fun site => Idiom.obeys_named hfunc (hdefault site.toAround)
  · next hblank =>
    rw [if_neg hblank] at h
    exact (gives_format harg h).map fun site code hcode => Idiom.obeys_named hfunc ⟨hcode, trivial⟩

theorem gives_print (hfunc : P.Text func) (h : P.Lets ((messageTexts tokens).all ok)) :
    GivesValue P here ((messageTexts tokens).any tries) (print func arg tokens) :=
  gives_message harg hfunc (fun _ => by simp only [Js.exprsObey]) h

theorem gives_fail {default : String} (h : P.Lets ((messageTexts tokens).all ok)) :
    GivesValue P here ((messageTexts tokens).any tries) (fail default arg tokens) :=
  gives_message harg (.code (by decide))
    (fun _ => by simp [Js.exprsObey, Js.Expr.Obeys]) h

theorem gives_assertMessage {message : List String} {Q : Site → Js.Expr → Prop}
    (h : P.Lets ((if message.isEmpty then [] else formatTexts (Js.commas message)).all ok))
    {default : Js.Expr} (hdefault : ∀ around, default.Obeys P around) {f : Js.Expr → Js.Expr}
    (hf : ∀ site text, text.Obeys P site.toAround → Q site (f text)) :
    Emit.Gives P here
      ((if message.isEmpty then [] else formatTexts (Js.commas message)).any tries)
      (do return f (← if message.isEmpty then pure default else format arg (Js.commas message)))
      Q := by
  by_cases hmessage : message.isEmpty = true
  · simp only [if_pos hmessage]
    exact .pure fun site => hf site _ (hdefault _)
  · simp only [if_neg hmessage] at h ⊢
    exact (gives_format harg h).map hf

theorem gives_assertion (h : P.Lets ((assertionTexts 1 tokens).all ok)) :
    GivesValue P here ((assertionTexts 1 tokens).any tries) (assertion arg tokens) := by
  refine .ofExceptBind fun parts hparts => ?_
  unfold assertionTexts at h ⊢
  rw [hparts] at h ⊢
  rcases parts with _ | ⟨cond, message⟩
  · exact .throw _
  · have hsplit : (cond :: message).take 1 = [cond] ∧ (cond :: message).drop 1 = message :=
      ⟨rfl, rfl⟩
    simp only [hsplit, List.cons_append, List.nil_append, List.all_cons, lets_and] at h
    simp only [hsplit, List.cons_append, List.nil_append, List.any_cons]
    refine (harg cond h.1).bind fun code => ?_
    refine gives_assertMessage harg h.2 ?_ fun site text htext hcode => ?_
    · exact fun _ => trivial
    · exact Idiom.obeys_named (.code (by decide)) ⟨hcode, htext, trivial⟩

theorem gives_comparison (negated : Bool) (h : P.Lets ((assertionTexts 2 tokens).all ok)) :
    GivesValue P here ((assertionTexts 2 tokens).any tries) (comparison negated arg tokens) := by
  refine .ofExceptBind fun parts hparts => ?_
  unfold assertionTexts at h ⊢
  rw [hparts] at h ⊢
  rcases parts with _ | ⟨left, _ | ⟨right, message⟩⟩
  · exact .throw _
  · exact .throw _
  · have hsplit : (left :: right :: message).take 2 = [left, right] ∧
        (left :: right :: message).drop 2 = message := ⟨rfl, rfl⟩
    simp only [hsplit, List.cons_append, List.nil_append, List.all_cons, lets_and] at h
    simp only [hsplit, List.cons_append, List.nil_append, List.any_cons]
    have hflag : P.Text (if negated then "true" else "false") := by
      split <;> exact .code (by decide)
    refine (harg left h.1).bind fun left => (harg right h.2.1).bind fun right => ?_
    refine gives_assertMessage harg h.2.2 ?_ fun site text htext hright hleft => ?_
    · exact fun _ => .code (by decide)
    · exact Idiom.obeys_named (.code (by decide)) ⟨hleft, hright, htext, hflag, trivial⟩

theorem gives_expander (hhelper : ∀ text, P.Lets (okInHelper text) →
      GivesValue P here.inHelper (tries text) (arg text)) {name : String} {expander : Expander}
    (hmem : (name, expander) ∈ expanders) (h : P.Lets ((textsFor name tokens).all ok))
    (hrepeated : P.Lets ((repeatedFor? name tokens).all okInHelper)) :
    GivesValue P here ((textsFor name tokens).any tries) (expander arg tokens) := by
  simp only [expanders, List.mem_cons, Prod.mk.injEq, List.not_mem_nil, or_false] at hmem
  rcases hmem with ⟨rfl, rfl⟩ | ⟨rfl, rfl⟩ | ⟨rfl, rfl⟩ | ⟨rfl, rfl⟩ | ⟨rfl, rfl⟩ | ⟨rfl, rfl⟩ |
    ⟨rfl, rfl⟩ | ⟨rfl, rfl⟩ | ⟨rfl, rfl⟩ | ⟨rfl, rfl⟩ | ⟨rfl, rfl⟩ | ⟨rfl, rfl⟩ | ⟨rfl, rfl⟩ |
    ⟨rfl, rfl⟩ <;>
    simp only [textsFor, String.reduceBEq, Bool.or_self, Bool.or_true, Bool.true_or,
      Bool.false_eq_true, if_true, if_false] at h ⊢
  · exact gives_format harg h
  · exact gives_print harg (.code (by decide)) h
  · exact gives_print harg (.code (by decide)) h
  · exact gives_print harg (.code (by decide)) h
  · exact gives_print harg (.code (by decide)) h
  · exact gives_vector harg hhelper h hrepeated
  · exact gives_fail harg h
  · exact gives_fail harg h
  · exact gives_fail harg h
  · exact gives_fail harg h
  · exact gives_assertion harg h
  · exact gives_assertion harg h
  · exact gives_comparison harg _ h
  · exact gives_comparison harg _ h

omit harg in
theorem gives_expand {ok : Mode → String → Bool} (harg : ∀ mode text, P.Lets (ok mode text) →
      GivesValue P { here with mode } (tries text) (arg text))
    {m : MacroCall} (h : P.Lets (allRead ok here.mode m)) :
    GivesValue P here ((texts m).any tries) (expand arg m) := by
  simp only [allRead, allReadFor, lets_and] at h
  unfold expand
  split
  · next expander hexpander =>
    obtain ⟨before, after, htable, -⟩ := List.lookup_eq_some_iff.mp hexpander
    exact gives_expander (harg here.mode) (harg here.mode.inHelper)
      (htable ▸ List.mem_append_right _ List.mem_cons_self) h.1 h.2
  · exact .refuse _

end

end Macro

end RustScript
