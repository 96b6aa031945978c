/-
  Code that begins with a brace.

  Behind the `=>` of an arrow function a brace opens a block. A closure puts its body in parentheses
  where it has to, but a value that is repeated is put behind the arrow as it is. `Expr.opensBrace`
  follows the part whose code comes first.
-/
import RustScript.Proofs.Context.Tree
import RustScript.Proofs.Emit.Operators
import RustScript.Proofs.Emit.Sums
import RustScript.Proofs.Idiom.Once

namespace RustScript

open Idiom (numeric? constant? callForm?)

/-! ## The first character of code -/

namespace Js.Expr

variable {e l r : Expr}

@[simp] theorem opensBrace_atom (text : String) :
    (atom text).opensBrace = (text.toList.head? == some '\x7b') :=
  rfl

theorem head_append (text rest : String) {c : Char} (h : rest.toList.head? = some c)
    (hc : c ≠ '\x7b') : ((text ++ rest).toList.head? == some '\x7b') =
      (text.toList.head? == some '\x7b') := by
  rw [String.toList_append]
  cases text.toList with
  | nil => simpa [h] using hc
  | cons d ds => rfl

@[simp] theorem opensBrace_binary (op : String) : (binary op l r).opensBrace = l.opensBrace := by
  rw [opensBrace, text, String.append_assoc, String.append_assoc, String.append_assoc]
  exact head_append _ _ (c := ' ') (by simp) (by decide)

@[simp] theorem opensBrace_call (args : List Expr) : (call e args).opensBrace = e.opensBrace := by
  rw [opensBrace, text, String.append_assoc, String.append_assoc]
  exact head_append _ _ (c := '(') (by simp) (by decide)

@[simp] theorem opensBrace_member (name : String) : (member e name).opensBrace = e.opensBrace := by
  rw [opensBrace, text, String.append_assoc]
  exact head_append _ _ (c := '.') (by simp) (by decide)

@[simp] theorem opensBrace_index : (index e l).opensBrace = e.opensBrace := by
  rw [opensBrace, text, String.append_assoc, String.append_assoc]
  exact head_append _ _ (c := '[') (by simp) (by decide)

@[simp] theorem opensBrace_note (comment : String) :
    (note e comment).opensBrace = e.opensBrace := by
  rw [opensBrace, text, String.append_assoc, String.append_assoc]
  exact head_append _ _ (c := ' ') (by simp) (by decide)

@[simp] theorem opensBrace_object (props : List Property) : (object props).opensBrace = true := by
  simp [opensBrace, text]

/-- Code that begins with a character of its own, other than a brace. -/
abbrev hasLead : Expr → Bool
  | str _ | template _ | paren _ | ternary .. | construct .. | array _ | arrow .. | arrowBlock ..
  | await _ | tryUnwrap _ => true
  | _ => false

@[simp] theorem opensBrace_of_hasLead (h : e.hasLead = true) : e.opensBrace = false := by
  cases e with
  | arrow _ isAsync | arrowBlock _ isAsync => cases isAsync <;> simp [opensBrace, text, asyncText]
  | str => simp [opensBrace, text, Literal.quote]
  | _ => cases h <;> simp [opensBrace, text]

@[simp] theorem opensBrace_parenIf (needed : Bool) :
    (e.parenIf needed).opensBrace = (!needed && e.opensBrace) := by
  cases needed <;> simp [parenIf]

@[simp] theorem opensBrace_named (func : String) (args : List Expr) :
    (Idiom.named func args).opensBrace = (atom func).opensBrace := by
  rw [Idiom.named, opensBrace_call]

end Js.Expr

/-! ## Methods -/

/-- Code of which only the first character counts. -/
def Js.Expr.stub (opens : Bool) : Js.Expr := .atom (if opens then "\x7b" else "")

@[simp] theorem Js.Expr.opensBrace_stub (opens : Bool) : (stub opens).opensBrace = opens := by
  cases opens <;> rfl

namespace Idiom

/-- What a frame begins with depends on what the receiver begins with and on nothing else. -/
theorem Frame.opensBrace_code (f : Frame) {recv recv' : Js.Expr}
    (h : recv.opensBrace = recv'.opensBrace) (args args' : List Js.Expr) :
    (f.code recv args).opensBrace = (f.code recv' args').opensBrace := by
  cases f <;> simp [Frame.code, h]

/-- Whether the code of a method call begins with a brace, from what its receiver begins with. -/
def methodOpensBrace (opens : Bool) (method : String) (count : Nat) (isSimple isHost : Bool) :
    Bool :=
  ((method? (.stub opens) method (List.replicate count (.stub false)) isSimple isHost).getD
    (.stub opens)).opensBrace

theorem opensBrace_methodCall (receiver : Expr) (recv : Js.Expr) (method : String)
    (args : List Js.Expr) : (Emit.methodCall receiver recv method args).opensBrace =
      methodOpensBrace recv.opensBrace method args.length receiver.isSimple receiver.isHost := by
  have hlength : (List.replicate args.length (Js.Expr.stub false)).length = args.length :=
    List.length_replicate
  unfold Emit.methodCall methodOpensBrace
  rcases method?_cases method args.length receiver.isSimple receiver.isHost with
    hnone | ⟨f, hbuilds, -⟩
  · rw [hnone _ _ hlength, hnone _ _ rfl]
    simp
  · rw [hbuilds _ _ hlength, hbuilds _ _ rfl, Option.getD_some, Option.getD_some]
    exact f.opensBrace_code (by simp) _ _

theorem opensBrace_cast (code : Js.Expr) (ty : String) :
    (cast code ty).opensBrace = (cast (.stub code.opensBrace) ty).opensBrace := by
  unfold cast
  dsimp only
  split_ifs <;> simp

end Idiom

/-! ## Expressions -/

/-- Whether the text begins with a brace. -/
abbrev isBraceFirst (text : String) : Bool := (Js.Expr.atom text).opensBrace

namespace Expr

/-- Whether the code of a path begins with a brace. -/
def pathOpensBrace (place : Place) (scopes : Scopes) (segments : List String) : Bool :=
  match segments with
  | [name] => isBraceFirst (place.word scopes name)
  | _ => (Path.lastTwo? segments).any fun (owner, name) =>
    (constant? owner name).isNone && name != "None" &&
      !Name.isCapitalized (place.typeWord owner) && isBraceFirst (Name.target name)

/-- Whether the code of `Some(e)`, `Ok(e)` or `Err(e)` begins with a brace, if the call is one. -/
def wrapperOpensBrace? (name : String) (args : List Expr) (first : Bool) : Option Bool :=
  match args with
  | [arg] =>
    if name == "Some" then some (!arg.isCompound && first)
    else if name == "Ok" || name == "Err" then some true
    else none
  | _ => none

/-- Whether the code of a call of a name begins with a brace. -/
def nameCallOpensBrace (place : Place) (scopes : Scopes) (name : String) : Bool :=
  !(name == "Self" || (place.structs.lookup name).isSome) &&
    isBraceFirst (place.word scopes name)

/-- Whether the code of a call of a path begins with a brace; `first` says so of its first argument.
    -/
def pathCallOpensBrace (place : Place) (segments : List String) (args : List Expr) (first : Bool) :
    Bool :=
  (Path.lastTwo? segments).any fun (owner, func) =>
    let owner := place.typeWord owner
    match callForm? owner func, args with
    | some (.fixed code), _ => isBraceFirst code
    | some .first, _ :: _ => first
    | some (.apply _), _ :: _ => false
    | _, _ =>
      (numeric? owner func (args.map fun _ => .stub false)).isNone &&
        !Name.isCapitalized owner && isBraceFirst (Name.target func)

mutual

/-- Whether the code of the expression begins with a brace. -/
def opensBrace (place : Place) (scopes : Scopes) : Expr → Bool
  | ident name => isBraceFirst (place.word scopes name)
  | path segments => pathOpensBrace place scopes segments
  | binary op l r =>
    !(op == "+" && (l.isText || r.isText)) && !l.isLooseIn op && l.opensBrace place scopes
  | assign target _ _ => target.opensBrace place scopes
  | call (ident name) args =>
    (wrapperOpensBrace? name args (firstOpensBrace place scopes args)).getD
      (nameCallOpensBrace place scopes name)
  | call (path segments) args =>
    (segments.getLast?.bind fun name =>
        wrapperOpensBrace? name args (firstOpensBrace place scopes args)).getD
      (pathCallOpensBrace place segments args (firstOpensBrace place scopes args))
  | call func _ => !func.isClosure && func.opensBrace place scopes
  | methodCall receiver method args =>
    Idiom.methodOpensBrace (!receiver.isCompoundTarget && receiver.opensBrace place scopes) method
      args.length receiver.isSimple receiver.isHost
  | field obj _ => !obj.isCompoundTarget && obj.opensBrace place scopes
  | index obj _ => !obj.isCompoundTarget && obj.opensBrace place scopes
  | structLit segments _ base => base.isNone && Path.isVariant segments
  | ref e _ => e.opensBrace place scopes
  | deref e => e.opensBrace place scopes
  | cast e ty => (Idiom.cast (.stub (e.opensBrace place scopes)) ty).opensBrace
  | _ => false

/-- Whether the code of the first expression begins with a brace. -/
def firstOpensBrace (place : Place) (scopes : Scopes) : List Expr → Bool
  | [] => false
  | e :: _ => e.opensBrace place scopes

end

end Expr

/-! ## What is emitted -/

namespace Emit

/-- What the emission yields at a place begins with a brace exactly if `opens` says so of the scopes
    that it starts in. -/
def Begins (place : Place) (opens : Scopes → Bool) (x : Emit Js.Expr) : Prop :=
  ∀ ⦃s t : State⦄ ⦃code : Js.Expr⦄, x place s = (.ok code, t) → code.opensBrace = opens s.scopes

/-- No code that is emitted begins with a brace. -/
abbrev NoBrace (place : Place) (x : Emit Js.Expr) : Prop := Begins place (fun _ => false) x

namespace Begins

variable {α : Type} {place : Place} {opens : Scopes → Bool} {b : Bool} {x : Emit α}

theorem pure {code : Js.Expr} (h : code.opensBrace = b) :
    Begins place (fun _ => b) (Pure.pure code) := by
  rintro s t _ ⟨⟩
  exact h

theorem throw (e : Error) : Begins place opens (throw e) := by rintro s t _ ⟨⟩

theorem refuse (cause : Refusal) : Begins place opens (refuse cause) := throw _

theorem bind {f : α → Emit Js.Expr} (hf : ∀ a, Begins place (fun _ => b) (f a)) :
    Begins place (fun _ => b) (x >>= f) := by
  intro s t code h
  obtain ⟨a, u, -, ha⟩ := exists_of_bind h
  exact hf a ha

theorem andReturn {f : α → Js.Expr} (hf : ∀ a, (f a).opensBrace = b) :
    Begins place (fun _ => b) (do return f (← x)) :=
  bind fun a => pure (hf a)

theorem bindFirst {x : Emit Js.Expr} {f : Js.Expr → Emit Js.Expr} (hx : Begins place opens x)
    (g : Bool → Bool) (hf : ∀ code, Begins place (fun _ => g code.opensBrace) (f code)) :
    Begins place (fun scopes => g (opens scopes)) (x >>= f) := by
  intro s t code h
  obtain ⟨first, u, hfirst, hcode⟩ := exists_of_bind h
  rw [hf first hcode, hx hfirst]

theorem map {x : Emit Js.Expr} {f : Js.Expr → Js.Expr} (hx : Begins place opens x) (g : Bool → Bool)
    (hf : ∀ code, (f code).opensBrace = g code.opensBrace) :
    Begins place (fun scopes => g (opens scopes)) (do return f (← x)) :=
  hx.bindFirst g fun code => pure (hf code)

end Begins

theorem word_eq_of_restored {place : Place} {s t : State} (h : Restored s t) (name : String) :
    place.word t.scopes name = place.word s.scopes name := by
  have hresolve : t.scopes.resolve name = s.scopes.resolve name := by
    simp only [Scopes.resolve, Scopes.layers, h.inner, h.outer]
  simp only [Place.word, hresolve]

variable {place : Place} {args : List Expr} {codes : List Js.Expr}

theorem begins_ident (name : String) :
    Begins place (fun scopes => isBraceFirst (place.word scopes name))
      (do return .atom (← ident name)) := by
  intro s t code h
  obtain ⟨text, htext, rfl⟩ := exists_of_return h
  rw [ident_eq_ok htext]

theorem isBraceFirst_of_isPlainText {text : String} (h : Layout.isPlainText text = true) :
    isBraceFirst text = false := by
  rw [isBraceFirst, Js.Expr.opensBrace_atom, beq_eq_false_iff_ne]
  intro hhead
  have hbrace := List.all_eq_true.mp h _ (List.mem_of_mem_head? hhead)
  exact absurd hbrace (by decide)

theorem begins_literal (value : Literal) : NoBrace place (literal value) := by
  have hspelling (hplain : Layout.isPlainText value.spelling = true) (htext : value.text? = none) :
      NoBrace place (literal value) := by
    rw [literal, htext]
    dsimp only
    split
    · exact .pure (isBraceFirst_of_isPlainText hplain)
    · exact .throw _
  cases value with
  | str text => exact .pure (by simp)
  | char text => exact .pure (by simp)
  | bool b => exact hspelling (by cases b <;> decide) rfl
  | int i => exact hspelling (isPlainText_int i) rfl
  | float d => exact hspelling d.isPlainText_toText rfl

theorem isBraceFirst_of_isCapitalized {name : String} (h : Name.isCapitalized name = true) :
    isBraceFirst name = false := by
  rw [isBraceFirst, Js.Expr.opensBrace_atom, beq_eq_false_iff_ne]
  unfold Name.isCapitalized at h
  cases hname : name.toList with
  | nil => simp
  | cons c cs =>
    rw [hname] at h
    rintro ⟨⟩
    exact absurd (show Text.isUpper '\x7b' = true from h) (by decide +kernel)

theorem isBraceFirst_of_constant? {owner name text : String}
    (h : constant? owner name = some text) : isBraceFirst text = false := by
  unfold constant? at h
  split at h <;> cases h <;> decide

theorem begins_path (segments : List String) :
    Begins place (Expr.pathOpensBrace place · segments) (path segments) := by
  match segments with
  | [] => exact .throw _
  | [name] => exact begins_ident name
  | first :: second :: rest =>
    unfold path Expr.pathOpensBrace
    cases Path.lastTwo? (first :: second :: rest) with
    | none => exact .throw _
    | some last =>
      obtain ⟨owner, name⟩ := last
      dsimp only [Option.any_some]
      cases hconstant : constant? owner name with
      | some text => exact .pure (isBraceFirst_of_constant? hconstant)
      | none =>
        dsimp only
        split
        · next hnone => exact .pure (by simp [beq_iff_eq.mp hnone])
        · next hnone =>
          have hnone : (name != "None") = true := by simpa using hnone
          intro s t code h
          obtain ⟨type, htype, rfl⟩ := exists_of_return h
          rw [typeName_eq_ok htype, hnone]
          cases hcapital : Name.isCapitalized (place.typeWord owner) with
          | true => simp [isBraceFirst_of_isCapitalized hcapital]
          | false => simp

theorem begins_asValue (body : Emit (List Js.Stmt)) : NoBrace place (asValue body) := by
  intro s t code h
  rcases hbody : body place s.enterValue with ⟨e | lines, u⟩
  · simp only [asValue, hbody] at h
    cases h
  · simp only [asValue, hbody] at h
    cases h
    unfold calledArrow
    cases s.frame.isAsync <;> simp

theorem begins_control (body : Option Js.Tail → Emit (List Js.Stmt)) :
    NoBrace place (Position.value.control body) :=
  begins_asValue _

/-! ### Forms -/

theorem begins_unary (op : String) (operand : Emit Js.Expr) : NoBrace place (unary op operand) := by
  unfold unary
  split
  · next hop =>
    refine .andReturn fun code => ?_
    obtain rfl | rfl : op = "-" ∨ op = "!" := by simpa [unaryOperators] using hop
    all_goals simp [Js.Expr.opensBrace, Js.Expr.text]
  · exact .refuse _

theorem begins_binary {opens : Scopes → Bool} {left : Emit Js.Expr}
    (hleft : Begins place opens left) (op : String) (isText : Bool)
    (parts : Emit (List Js.Part)) (right : Emit Js.Expr) :
    Begins place (fun scopes => !(op == "+" && isText) && opens scopes)
      (binary op isText parts left right) := by
  unfold binary
  split
  · exact .refuse _
  · split
    · next htext =>
      simp only [htext, Bool.not_true, Bool.false_and]
      exact .andReturn fun _ => by simp
    · next htext =>
      simp only [eq_false_of_ne_true htext, Bool.not_false, Bool.true_and]
      exact hleft.bindFirst id fun code => .andReturn fun _ => by simp

theorem begins_assign {opens : Scopes → Bool} {target : Emit Js.Expr}
    (htarget : Begins place opens target) (op : String) (value : Emit Js.Expr) :
    Begins place opens (assign op target value) := by
  unfold assign
  split
  · exact htarget.bindFirst id fun code => .andReturn fun _ => by simp
  · exact .refuse _

/-- Whether the first code begins with a brace. -/
abbrev firstOpens (codes : List Js.Expr) : Bool := codes.head?.any (·.opensBrace)

theorem map_wrapped? (name : String) (h : codes.length = args.length) :
    (wrapped? name args codes).map (·.opensBrace) =
      Expr.wrapperOpensBrace? name args (firstOpens codes) := by
  match args, codes with
  | [], _ => rfl
  | [arg], [code] =>
    unfold wrapped? Expr.wrapperOpensBrace?
    by_cases hsome : name = "Some"
    · simp [hsome, firstOpens]
    · by_cases hok : name = "Ok"
      · simp [hok]
      · by_cases herr : name = "Err" <;> simp [hsome, hok, herr]
  | _ :: _ :: _, _ => rfl
  | [_], [] => cases h
  | [_], _ :: _ :: _ => cases h

theorem opensBrace_of_wrapped? (name : String) {code : Js.Expr} {plain : Bool}
    (h : codes.length = args.length) (hsome : ∀ w, wrapped? name args codes = some w → w = code)
    (hnone : wrapped? name args codes = none → code.opensBrace = plain) :
    code.opensBrace = (Expr.wrapperOpensBrace? name args (firstOpens codes)).getD plain := by
  rw [← map_wrapped? name h]
  cases hwrapped : wrapped? name args codes with
  | some w => rw [hsome w hwrapped]; rfl
  | none => exact hnone hwrapped

theorem begins_callName (name : String) (codes : List Js.Expr) :
    Begins place (Expr.nameCallOpensBrace place · name) (callName name codes) := by
  intro s t code h
  obtain ⟨place', u, hplace, h⟩ := exists_of_bind h
  obtain ⟨rfl, rfl⟩ : place = place' ∧ s = u := by
    cases hplace
    exact ⟨rfl, rfl⟩
  unfold Expr.nameCallOpensBrace
  split at h
  · next hconstructs =>
    obtain ⟨type, -, rfl⟩ := exists_of_return h
    simp [hconstructs]
  · next hconstructs =>
    obtain ⟨text, htext, rfl⟩ := exists_of_return h
    rw [ident_eq_ok htext, eq_false_of_ne_true hconstructs]
    simp

theorem isNone_numeric? (owner func : String) {codes codes' : List Js.Expr}
    (h : codes.length = codes'.length) :
    (numeric? owner func codes).isNone = (numeric? owner func codes').isNone := by
  unfold numeric?
  split
  · split
    · rfl
    · match codes, codes' with
      | [], [] => rfl
      | [_], [_] => by_cases hfrom : func = "from" <;> simp [hfrom]
      | _ :: _ :: _, _ :: _ :: _ => by_cases hfrom : func = "from" <;> simp [hfrom]
  · rfl

theorem opensBrace_of_numeric? {owner func : String} {code : Js.Expr}
    (h : numeric? owner func codes = some code) : code.opensBrace = false := by
  unfold numeric? at h
  split at h
  · split at h
    · cases h
      simp
    · split at h <;> cases h
      simp
  · cases h

theorem isBraceFirst_of_callForm? {type func own : String}
    (h : callForm? type func = some (.apply own)) : isBraceFirst own = false := by
  unfold callForm? at h
  split at h <;> cases h <;> decide

theorem begins_callPath (segments : List String) (h : codes.length = args.length) :
    Begins place (fun _ => Expr.pathCallOpensBrace place segments args (firstOpens codes))
      (callPath segments codes) := by
  unfold callPath Expr.pathCallOpensBrace
  cases Path.lastTwo? segments with
  | none => exact .throw _
  | some last =>
    obtain ⟨owner, func⟩ := last
    rw [Option.any_some]
    dsimp only
    intro s t code hcode
    obtain ⟨type, u, htype, hcode⟩ := exists_of_bind hcode
    obtain rfl := typeName_eq_ok htype
    -- a call without a form of its own is a function on numbers or the program's own
    have hother (hnone : Idiom.associated? (place.typeWord owner) func codes = none) :
        code.opensBrace = ((numeric? (place.typeWord owner) func
          (args.map fun _ => .stub false)).isNone &&
            !Name.isCapitalized (place.typeWord owner) && isBraceFirst (Name.target func)) := by
      have hlength : (args.map fun _ => Js.Expr.stub false).length = codes.length := by simp [h]
      rw [isNone_numeric? _ func hlength]
      simp only [hnone, Option.orElse_eq_orElse, Option.orElse_eq_or, Option.none_or] at hcode
      cases hnumeric : numeric? (place.typeWord owner) func codes with
      | some number =>
        rw [hnumeric] at hcode
        cases hcode
        simp [opensBrace_of_numeric? hnumeric]
      | none =>
        rw [hnumeric] at hcode
        cases hcode
        cases hcapital : Name.isCapitalized (place.typeWord owner) with
        | true => simp [isBraceFirst_of_isCapitalized hcapital]
        | false => simp
    have hform (own : Js.Expr)
        (hown : Idiom.associated? (place.typeWord owner) func codes = some own) : code = own := by
      rw [hown] at hcode
      cases hcode
      rfl
    unfold Idiom.associated? at hother hform
    cases hcall : callForm? (place.typeWord owner) func with
    | none => exact hother (by simp [hcall])
    | some form =>
      cases form with
      | fixed own => rw [hform (.atom own) (by simp [hcall])]
      | first =>
        rcases args with _ | ⟨_, args⟩ <;> rcases codes with _ | ⟨arg, codes⟩
        · exact hother (by simp [hcall])
        · cases h
        · cases h
        · rw [hform arg (by simp [hcall])]
          rfl
      | apply own =>
        rcases args with _ | ⟨_, args⟩ <;> rcases codes with _ | ⟨arg, codes⟩
        · exact hother (by simp [hcall])
        · cases h
        · cases h
        · rw [hform (Idiom.named own [arg]) (by simp [hcall]), Js.Expr.opensBrace_named]
          exact isBraceFirst_of_callForm? hcall

theorem begins_structLit (segments : List String) (values : List (String × Js.Expr))
    (base : Option (Emit Js.Expr)) :
    Begins place (fun _ => base.isNone && Path.isVariant segments)
      (structLit segments values base) := by
  refine .bind fun name => ?_
  split
  · next hvariant =>
    cases base with
    | none => exact .pure (by simp [hvariant])
    | some base => exact .andReturn fun _ => by simp
  · next hvariant =>
    refine .bind fun type => ?_
    cases base with
    | some base => exact .andReturn fun _ => by simp
    | none =>
      simp only [hvariant, Bool.and_false]
      refine .bind fun place => ?_
      split
      · exact .andReturn fun _ => by simp
      · split <;> exact .pure (by simp)

theorem begins_closure (isAsync : Bool) (params : List Param) (body : Emit ClosureBody) :
    NoBrace place (closure isAsync params body) := by
  refine .bind fun ((bindings, body), usesTry) => ?_
  rcases body with code | lines <;> rcases usesTry with _ | _ <;> exact .pure (by simp)

theorem begins_asyncBlock (body : Emit (List Js.Stmt)) : NoBrace place (asyncBlock body) :=
  Begins.andReturn fun _ => by simp

theorem begins_ternary (cond yes no : Emit Js.Expr) : NoBrace place (ternary cond yes no) :=
  Begins.bind fun _ => .bind fun _ => .andReturn fun _ => by simp

theorem begins_tryOp (operand : Emit Js.Expr) : NoBrace place (tryOp operand) := by
  refine .bind fun state => ?_
  split
  · exact .refuse _
  · exact .bind fun _ => .andReturn fun _ => by simp

theorem begins_rangeValue (r : RangePlan) : NoBrace place r.value := by
  unfold RangePlan.value
  cases r.stop with
  | none => exact .refuse _
  | some stop =>
    refine .bind fun _ => ?_
    cases r.start <;> exact .bind fun _ => .pure (by simp)

theorem begins_slice (obj : Js.Expr) (r : RangePlan) :
    Begins place (fun _ => obj.opensBrace) (RangePlan.slice obj r) := by
  unfold RangePlan.slice
  cases r.stop with
  | none => cases r.start <;> exact .bind fun _ => .pure (by simp)
  | some stop =>
    cases r.inclusive <;> cases r.start <;>
      exact .bind fun _ => .bind fun _ => .pure (by simp)

/-! ### Trees -/

section Trees

variable {expand : MacroCall → Emit Js.Expr}

theorem exists_closure (expand : MacroCall → Emit Js.Expr) (params : List Param) (body : Expr)
    (isAsync : Bool) :
    ∃ x, expr expand (.closure params body isAsync) .value = closure isAsync params x := by
  by_cases hblock : ∃ stmts, body = .block stmts false none
  · obtain ⟨stmts, rfl⟩ := hblock
    exact ⟨_, rfl⟩
  · rw [expr_closure expand fun stmts h => hblock ⟨stmts, h⟩]
    exact ⟨_, rfl⟩

theorem begins_call {func : Expr}
    (hfunc : Begins place (fun scopes => func.opensBrace place scopes) (expr expand func .value))
    (hargs : ∀ ⦃s t : State⦄ ⦃codes : List Js.Expr⦄, exprs expand args place s = (.ok codes, t) →
      codes.length = args.length ∧ firstOpens codes = Expr.firstOpensBrace place s.scopes args ∧
        Restored s t) :
    Begins place (fun scopes => (Expr.call func args).opensBrace place scopes)
      (expr expand (.call func args) .value) := by
  have hcall := hfunc.bindFirst (!func.isClosure && ·) fun callee =>
    Begins.andReturn (x := exprs expand args)
      (f := fun codes => .call (callee.parenIf func.isClosure) codes) fun codes => by simp
  cases func with
  | ident name =>
    simp only [Expr.opensBrace]
    intro s t code h
    obtain ⟨codes, u, hcodes, h⟩ := exists_of_bind h
    obtain ⟨hlength, hfirst, hrestored⟩ := hargs hcodes
    dsimp only
    rw [← hfirst]
    refine opensBrace_of_wrapped? name hlength (fun wrapper hwrapped => ?_) fun hwrapped => ?_
    · simp only [hwrapped] at h
      cases h
      rfl
    · simp only [hwrapped] at h
      rw [begins_callName name codes h]
      simp only [Expr.nameCallOpensBrace, word_eq_of_restored hrestored]
  | path segments =>
    simp only [Expr.opensBrace]
    intro s t code h
    obtain ⟨name, u, hname, h⟩ := exists_of_bind h
    obtain ⟨hlast, rfl⟩ := last_eq_ok hname
    obtain ⟨codes, v, hcodes, h⟩ := exists_of_bind h
    obtain ⟨hlength, hfirst, -⟩ := hargs hcodes
    dsimp only
    rw [hlast, Option.bind_some, ← hfirst]
    refine opensBrace_of_wrapped? name hlength (fun wrapper hwrapped => ?_) fun hwrapped => ?_
    · simp only [hwrapped] at h
      cases h
      rfl
    · simp only [hwrapped] at h
      exact begins_callPath segments hlength h
  | _ => exact hcall

mutual

theorem begins_expr (hexpand : ∀ m, Tidy True (expand m) ∧ NoBrace place (expand m)) : ∀ e : Expr,
    Begins place (fun scopes => e.opensBrace place scopes) (expr expand e .value)
  | .lit value => begins_literal value
  | .ident name => begins_ident name
  | .path segments => begins_path segments
  | .paren _ | .arrayLit _ | .await _ => .andReturn fun _ => by simp
  | .unary op e => begins_unary op _
  | .binary op l r => by
    simp only [Expr.opensBrace, Bool.and_assoc]
    have hleft := (begins_expr hexpand l).map (!l.isLooseIn op && ·) (f := (·.parenIf (l.isLooseIn op)))
      fun code => by simp
    exact begins_binary hleft op (l.isText || r.isText) _ _
  | .assign target value op => begins_assign (begins_expr hexpand target) op _
  | .call func args =>
    begins_call (begins_expr hexpand func) fun s t codes h =>
      ⟨length_of_exprs h, begins_exprs hexpand args h, by
        simpa [h] using (tidy_exprs (fun _ => true) (fun m _ => (hexpand m).1) args
          (.inl trivial)).runs place s⟩
  | .methodCall receiver method args => by
    simp only [Expr.opensBrace]
    intro s t code h
    obtain ⟨recv, codes, u, hrecv, hcodes, rfl⟩ := exists_of_both h
    rw [Idiom.opensBrace_methodCall, length_of_exprs hcodes, Js.Expr.opensBrace_parenIf,
      begins_expr hexpand receiver hrecv]
  | .field obj name => (begins_expr hexpand obj).map (!obj.isCompoundTarget && ·) fun code => by
      unfold field
      split <;> simp
  | .index obj index => by
    have hindex := (begins_expr hexpand obj).bindFirst (!obj.isCompoundTarget && ·) fun code =>
      Begins.andReturn (x := expr expand index .value)
        (f := fun i => .index (code.parenIf obj.isCompoundTarget) i) fun i => by simp
    cases index with
    | range start stop inclusive =>
      exact (begins_expr hexpand obj).bindFirst (!obj.isCompoundTarget && ·) fun code => by
        simpa using begins_slice (code.parenIf obj.isCompoundTarget) _
    | _ =>
      rw [expr]
      exact hindex
      simp
  | .structLit segments fields base => by
    have hbase : base.isNone = (action expand base).isNone := by cases base <;> rw [action] <;> rfl
    simp only [Expr.opensBrace, hbase]
    exact .bind fun values => begins_structLit segments values _
  | .arrayRepeat value count => Begins.bind fun _ => .andReturn fun _ => by simp [Macro.repeated]
  | .tupleLit [] => .pure (by simp)
  | .tupleLit (e :: es) => .bind fun _ => .andReturn fun _ => by simp
  | .closure params body isAsync => by
    obtain ⟨x, hx⟩ := exists_closure expand params body isAsync
    rw [hx]
    exact begins_closure isAsync params x
  | .block stmts true _ => begins_asyncBlock _
  | .ifElse cond stmts orelse => by
    rw [expr]
    split
    · exact begins_ternary _ _ _
    · simp only [Position.either]
      exact begins_control _
  | .block _ false _ | .ifLet .. | .whileLoop .. | .whileLet .. | .loop .. | .forLoop ..
  | .matchOn .. => begins_control _
  | .ret _ | .brk .. | .cont _ | .bare => .refuse _
  | .mac m => (hexpand m).2
  | .ref e isMutable => (begins_expr hexpand e).map id fun code => by
      unfold borrow
      split <;> simp
  | .deref e => begins_expr hexpand e
  | .cast e ty =>
    (begins_expr hexpand e).map (fun opens => (Idiom.cast (.stub opens) ty).opensBrace) fun code =>
      Idiom.opensBrace_cast code ty
  | .tryOp e => begins_tryOp _
  | .range start stop inclusive => begins_rangeValue _

theorem begins_exprs (hexpand : ∀ m, Tidy True (expand m) ∧ NoBrace place (expand m)) :
    ∀ (es : List Expr) ⦃s t : State⦄ ⦃codes : List Js.Expr⦄,
    exprs expand es place s = (.ok codes, t) →
      firstOpens codes = Expr.firstOpensBrace place s.scopes es
  | [], s, t, codes, h => by
    cases h
    rfl
  | e :: es, s, t, codes, h => by
    obtain ⟨code, rest, u, hcode, -, rfl⟩ := exists_of_both h
    exact begins_expr hexpand e hcode

end

end Trees

end Emit

/-! ## Macro calls -/

namespace Macro

open Emit

variable {place : Place} (arg : String → Emit Js.Expr) (tokens : String)

theorem begins_format : NoBrace place (format arg tokens) := by
  refine .bind fun parts => ?_
  cases parts with
  | nil => exact .pure (by simp)
  | cons first parts =>
    refine .bind fun template => .bind fun args => .bind fun pieces => ?_
    split
    · exact .andReturn fun _ => by simp
    · exact .pure (by simp)

theorem begins_print {func : String} (h : isBraceFirst func = false) :
    NoBrace place (print func arg tokens) := by
  unfold print
  split
  · exact .pure ((Js.Expr.opensBrace_named _ _).trans h)
  · exact .andReturn fun _ => (Js.Expr.opensBrace_named _ _).trans h

theorem begins_fail (default : String) : NoBrace place (fail default arg tokens) := by
  unfold fail
  split
  · exact .pure (by simp)
  · exact .andReturn fun _ => by simp

theorem begins_vector : NoBrace place (vector arg tokens) := by
  refine .bind fun parts => ?_
  split
  · exact .bind fun _ => .andReturn fun _ => by simp [repeated]
  · exact .bind fun _ => .andReturn fun _ => by simp

theorem begins_assertion : NoBrace place (assertion arg tokens) := by
  refine .bind fun parts => ?_
  cases parts with
  | nil => exact .throw _
  | cons cond message =>
    refine .bind fun _ => ?_
    split <;> exact .andReturn fun _ => by simp

theorem begins_comparison (negated : Bool) : NoBrace place (comparison negated arg tokens) := by
  refine .bind fun parts => ?_
  split
  · refine .bind fun _ => .bind fun _ => ?_
    dsimp only
    split <;> exact .andReturn fun _ => by simp
  · exact .throw _

theorem begins_expand (m : MacroCall) : NoBrace place (expand arg m) := by
  have hall : ∀ entry ∈ expanders, NoBrace place (entry.2 arg m.tokens) := by
    simp only [expanders, List.forall_mem_cons]
    exact ⟨begins_format arg _, begins_print arg _ (by decide), begins_print arg _ (by decide),
      begins_print arg _ (by decide), begins_print arg _ (by decide), begins_vector arg _,
      begins_fail arg _ _, begins_fail arg _ _, begins_fail arg _ _, begins_fail arg _ _,
      begins_assertion arg _, begins_assertion arg _, begins_comparison arg _ _,
      begins_comparison arg _ _, List.forall_mem_nil _⟩
  unfold expand
  split
  · next expander hexpander =>
    obtain ⟨before, after, htable, -⟩ := List.lookup_eq_some_iff.mp hexpander
    exact hall _ (htable ▸ List.mem_append_right _ List.mem_cons_self)
  · exact .refuse _

end Macro

namespace Reader

open Emit

variable (r : Reader) {place : Place}

theorem begins_expandWithin (depth : Nat) (m : MacroCall) :
    NoBrace place (r.expandWithin depth m) := by
  cases depth with
  | zero => exact .throw _
  | succ depth => exact Macro.begins_expand _ m

theorem begins_value (depth : Nat) (e : Expr) :
    Begins place (fun scopes => e.opensBrace place scopes)
      (Emit.expr (r.expandWithin depth) e .value) :=
  begins_expr (fun m => ⟨r.tidy_expandWithin depth m (.inl trivial), r.begins_expandWithin depth m⟩)
    e

end Reader

/-! ## Arrow functions -/

/-- An arrow function whose body is a block of statements, or a value that does not begin with a
    brace. -/
def Js.Expr.IsArrow (isAsync : Bool) (code : Js.Expr) : Prop :=
  (∃ params lines, code = .arrowBlock .source isAsync params lines) ∨
    ∃ params body, code = .arrow .source isAsync params body ∧ body.opensBrace = false

namespace Emit

variable {place : Place} {s t : State} {code : Js.Expr}

theorem isArrow_of_closure {isAsync : Bool} {params : List Param} {body : Emit ClosureBody}
    (h : closure isAsync params body place s = (.ok code, t)) : code.IsArrow isAsync := by
  obtain ⟨⟨⟨bindings, body⟩, usesTry⟩, u, -, h⟩ := exists_of_bind h
  rcases body with value | lines
  · cases usesTry <;> cases h
    · exact .inr ⟨bindings, _, rfl, by simp⟩
    · exact .inl ⟨bindings, _, rfl⟩
  · cases usesTry <;> cases h <;> exact .inl ⟨bindings, _, rfl⟩

theorem exists_of_repeated {opens : Scopes → Bool} {x y : Emit Js.Expr} (hx : Begins place opens x)
    (h : (do let value ← x; return Macro.repeated value (← y)) place s = (.ok code, t)) :
    ∃ value count, code = Macro.repeated value count ∧ value.opensBrace = opens s.scopes := by
  obtain ⟨value, count, u, hvalue, -, rfl⟩ := exists_of_both h
  exact ⟨value, count, rfl, hx hvalue⟩

end Emit

theorem Reader.exists_of_vector (r : Reader) {place : Place} {s t : State} {m : MacroCall}
    {value count : String} {e : Expr} {code : Js.Expr} (hname : m.baseName = "vec")
    (hsplit : Arguments.split m.tokens ';' = .ok [value, count]) (hread : r.read value = .ok e)
    (h : r.expand m place s = (.ok code, t)) :
    ∃ value count, code = Macro.repeated value count ∧
      value.opensBrace = e.opensBrace place s.scopes := by
  unfold Reader.expand at h
  cases hdepth : r.depth m.tokens with
  | zero =>
    rw [hdepth] at h
    cases h
  | succ depth =>
    rw [hdepth, expandWithin, Macro.expand, hname] at h
    obtain ⟨parts, u, hparts, h⟩ := Emit.exists_of_bind h
    rw [hsplit] at hparts
    cases hparts
    have hvalue : Emit.Begins place (fun scopes => e.opensBrace place scopes)
        (do Emit.expr (r.expandWithin depth) (← Emit.ofExcept (r.read value)) .value) := by
      rw [hread]
      exact r.begins_value depth e
    exact Emit.exists_of_repeated hvalue h

/-- Behind the arrow of a closure stands a block of statements or a value that does not begin with
    a brace, whatever the body of the closure is. Behind the arrow of a value that is repeated, in
    an array or in a vector, stands the value as it is; it does not begin with a brace exactly if
    the source says so of the value. -/
theorem arrow_body_is_no_block_iff (r : Reader) (place : Place) (s t : State) (code : Js.Expr) :
    (∀ params body isAsync, r.emit (.closure params body isAsync) .value place s = (.ok code, t) →
        code.IsArrow isAsync) ∧
    (∀ value count, r.emit (.arrayRepeat value count) .value place s = (.ok code, t) →
      ∃ body length, code = Macro.repeated body length ∧
        (body.opensBrace = false ↔ value.opensBrace place s.scopes = false)) ∧
    ∀ (m : MacroCall) (first second : String) (value : Expr), m.baseName = "vec" →
      Arguments.split m.tokens ';' = .ok [first, second] → r.read first = .ok value →
      r.emit (.mac m) .value place s = (.ok code, t) →
        ∃ body length, code = Macro.repeated body length ∧
          (body.opensBrace = false ↔ value.opensBrace place s.scopes = false) := by
  refine ⟨fun params body isAsync h => ?_, fun value count h => ?_,
    fun m first second value hname hsplit hread h => ?_⟩
  · obtain ⟨x, hx⟩ := Emit.exists_closure r.expand params body isAsync
    rw [Reader.emit, hx] at h
    exact Emit.isArrow_of_closure h
  · rw [Reader.emit, Emit.expr] at h
    obtain ⟨body, length, hcode, hbody⟩ :=
      Emit.exists_of_repeated
        (Emit.begins_expr (fun m => ⟨r.restores_expand m, r.begins_expandWithin _ m⟩) value) h
    exact ⟨body, length, hcode, by rw [hbody]⟩
  · rw [Reader.emit, Emit.expr] at h
    obtain ⟨body, length, hcode, hbody⟩ := r.exists_of_vector hname hsplit hread h
    exact ⟨body, length, hcode, by rw [hbody]⟩

def lengthThree : Reader := .ofTable [("x", .ident "x"), ("3", .lit (.int 3))]

/-- The closure `|| Ok(x)` puts the object that it gives in parentheses; `[x; 3]` and `vec![x; 3]`
    need none. -/
theorem object_of_closure_is_no_block :
    (∃ code, lengthThree.emit (.closure [] (.call (.ident "Ok") [.ident "x"]) false) .value {} {} =
        (.ok code, {}) ∧ code.text = "() => (\x7b ok: x \x7d)" ∧ code.IsArrow false) ∧
    (∃ code, lengthThree.emit (.arrayRepeat (.ident "x") (.lit (.int 3))) .value {} {} =
        (.ok code, {}) ∧
      ∃ body length, code = Macro.repeated body length ∧ body.opensBrace = false) ∧
    ∃ code, lengthThree.emit (.mac ⟨"vec", "x; 3"⟩) .value {} {} = (.ok code, {}) ∧
      ∃ body length, code = Macro.repeated body length ∧ body.opensBrace = false := by
  have hx : Expr.opensBrace {} {} (.ident "x") = false := by decide
  have hall := arrow_body_is_no_block_iff lengthThree {} {} {}
  obtain ⟨body, length, hcode, hbody⟩ := (hall _).2.1 (.ident "x") (.lit (.int 3)) rfl
  obtain ⟨body', length', hcode', hbody'⟩ :=
    (hall _).2.2 ⟨"vec", "x; 3"⟩ "x" "3" (.ident "x") rfl rfl rfl rfl
  exact ⟨⟨.arrow .source false [] (.paren (.object [.pair "ok" (.atom "x")])), rfl, by decide,
      (hall _).1 [] (.call (.ident "Ok") [.ident "x"]) false rfl⟩,
    ⟨_, rfl, body, length, hcode, hbody.mpr hx⟩, _, rfl, body', length', hcode', hbody'.mpr hx⟩

/-- The array `[Ok(1); 3]` is made of what a block gives, not of objects. -/
theorem repeated_object_is_read_as_block :
    ∃ code, (Reader.ofTable []).emit
        (.arrayRepeat (.call (.ident "Ok") [.lit (.int 1)]) (.lit (.int 3))) .value {} {} =
          (.ok code, {}) ∧
      code.text = "Array.from(\x7b length: 3 \x7d, () => \x7b ok: 1 \x7d)" :=
  ⟨Macro.repeated (.object [.pair "ok" (.atom "1")]) (.atom "3"), rfl, by decide⟩

end RustScript
