/-
  Macro calls within macro calls.

  The calls in what is read out of a call are shorter than its tokens. So calls nest finitely often,
  and expanding them without a bound on the depth means the same as with the bound that a reader
  has. This takes a parser whose trees fit their texts (`Node.fits`).
-/
import RustScript.Proofs.Macro.Texts
import RustScript.Proofs.Source.Stretch
import RustScript.Proofs.Twin.Tree
import RustScript.Source.Parse

namespace RustScript

namespace Emit

theorem alike_of_eq {p q : Place} (h : p = q) : p.Alike q := by
  subst h
  exact ⟨rfl, rfl, fun _ => rfl⟩

/-- The tie of a run to one at the same place and in the same state. -/
def Tie.same : Tie where
  faults := True
  keeps := False
  places := Eq
  scopes := Eq
  tails := Eq
  alike h := alike_of_eq h
  view := .eq
  returns := rfl

variable {R : State → State → Prop} {p q : Js.Tail} {α : Type} {x y : Emit α}

theorem Paired.eq {Q : α → α → Prop} (h : Paired .same R p p Q x y)
    (hQ : ∀ {a b}, Q a b → a = b) : x = y := by
  funext place s
  have hxy := (h place place s s rfl (.of_scopes p p (s := s) rfl)).1
  generalize x place s = r at hxy ⊢
  generalize y place s = r' at hxy ⊢
  cases hxy with
  | ok hab hst => rw [hQ hab, hst.1.eq]
  | error hst => rw [hst.1.eq]

theorem Paired.of_eq (h : x = y) (hpq : p = q) : Paired .same R p q Eq x y := by
  subst h hpq
  rintro place _ s t rfl hst
  obtain rfl := hst.eq
  refine ⟨?_, fun _ _ => .inl trivial⟩
  rcases x place s with ⟨e | a, u⟩
  · exact .error ⟨.of_scopes p p (s := u) rfl, False.elim⟩
  · exact .ok rfl ⟨.of_scopes p p (s := u) rfl, False.elim⟩

theorem expr_congr {expand expand' : MacroCall → Emit Js.Expr} {call : MacroCall → Prop}
    (hcall : ∀ m, call m → expand m = expand' m) {e : Expr} (h : e.EachCall call)
    (pos : Position) : expr expand e pos = expr expand' e pos :=
  (twins_expr (T := .same) True call (fun _ => true)
    (fun m _ k _ _ hpq => .of_eq (hcall m (k trivial)) hpq) rfl (.refl .ret pos) e (.inl trivial)
    fun _ => h).eq Position.CodeAlike.eq

end Emit

/-- An expansion depends on what its texts become, and on no other text. -/
theorem Macro.expand_congr {m : MacroCall} {arg arg' : String → Emit Js.Expr}
    (h : ∀ text ∈ texts m, arg text = arg' text) : expand arg m = expand arg' m :=
  (twins_expand (T := .same) (p := .ret) (fun _ => true) (.inl trivial) fun text htext _ =>
    .of_eq (h text htext) rfl).eq id

/-- The call stands in the expression: what holds of every call in it holds of this one. -/
def Expr.HasCall (e : Expr) (m : MacroCall) : Prop := ∀ P : MacroCall → Prop, e.EachCall P → P m

namespace Reader

/-- What becomes of a text, by a given expansion of the calls in it. -/
def argument (r : Reader) (expand : MacroCall → Emit Js.Expr) (text : String) : Emit Js.Expr := do
  let e ← Emit.ofExcept (r.read text)
  Emit.expr expand e .value

/-- The inner call stands in an expression that is read when the outer one is expanded. -/
def Nests (r : Reader) (inner outer : MacroCall) : Prop :=
  ∃ text ∈ Macro.texts outer, ∃ e, r.read text = .ok e ∧ e.HasCall inner

/-- Calls are shorter than the text that they are read out of. -/
def Shrinks (r : Reader) : Prop := ∀ text e, r.read text = .ok e → e.EachCall (Source.Shorter text)

/-- A call that is shorter than a text of another call is shorter than that call. The text may be
    empty, but a call without tokens reads no text at all. -/
theorem length_lt_of_shorter {inner outer : MacroCall} {text : String}
    (htext : text ∈ Macro.texts outer) (hinner : Source.Shorter text inner) :
    inner.tokens.length < outer.tokens.length := by
  have hle := Macro.length_le_of_mem_texts htext
  rcases hinner with hlt | ⟨-, hempty⟩
  · omega
  · rw [hempty, String.length_empty]
    refine Nat.pos_of_ne_zero fun hzero => ?_
    rw [Macro.texts_of_tokens_eq_empty (String.length_eq_zero_iff.mp hzero)] at htext
    exact absurd htext List.not_mem_nil

section

variable {r : Reader} (hr : r.Shrinks) {expand expand' : MacroCall → Emit Js.Expr} {m : MacroCall}

include hr

theorem Nests.length_lt {inner outer : MacroCall} (h : r.Nests inner outer) :
    inner.tokens.length < outer.tokens.length := by
  obtain ⟨text, htext, e, he, hcall⟩ := h
  exact length_lt_of_shorter htext (hcall _ (hr text e he))

theorem wellFounded_nests : WellFounded r.Nests :=
  Subrelation.wf (fun h => Nests.length_lt hr h) (measure fun m : MacroCall => m.tokens.length).wf

theorem expand_argument_congr (h : ∀ inner : MacroCall, inner.tokens.length < m.tokens.length →
      expand inner = expand' inner) :
    Macro.expand (r.argument expand) m = Macro.expand (r.argument expand') m := by
  refine Macro.expand_congr fun text htext => ?_
  rw [argument, argument]
  cases hread : r.read text with
  | error err => rfl
  | ok e =>
    have hcall := fun inner hinner => h inner (length_lt_of_shorter htext hinner)
    exact Emit.expr_congr hcall (hr text e hread) .value

/-- A depth that exceeds the number of tokens is as good as any other. -/
theorem expandWithin_eq {depth depth' : Nat} (h : m.tokens.length < depth)
    (h' : m.tokens.length < depth') : r.expandWithin depth m = r.expandWithin depth' m := by
  induction depth generalizing m depth' with
  | zero => exact absurd h (Nat.not_lt_zero _)
  | succ depth ih =>
    cases depth' with
    | zero => exact absurd h' (Nat.not_lt_zero _)
    | succ depth' =>
      refine expand_argument_congr hr fun inner hinner => ih ?_ ?_
      · omega
      · omega

theorem expand_eq (hdepth : ∀ tokens : String, tokens.length < r.depth tokens) (m : MacroCall) :
    r.expand m = Macro.expand (r.argument r.expand) m := by
  have hsucc : r.expand m = r.expandWithin (m.tokens.length + 1) m :=
    expandWithin_eq hr (hdepth _) (Nat.lt_succ_self _)
  rw [hsucc]
  exact expand_argument_congr hr fun inner hinner => expandWithin_eq hr hinner (hdepth _)

/-- There is no other expansion that goes on without a bound. -/
theorem eq_of_expand_eq (h : ∀ m, expand m = Macro.expand (r.argument expand) m)
    (h' : ∀ m, expand' m = Macro.expand (r.argument expand') m) : expand = expand' := by
  have hlength : ∀ (n : Nat) (m : MacroCall), m.tokens.length < n → expand m = expand' m := by
    intro n
    induction n with
    | zero => exact fun m hm => absurd hm (Nat.not_lt_zero _)
    | succ n ih =>
      intro m hm
      rw [h m, h' m]
      exact expand_argument_congr hr fun inner hinner => ih inner (by omega)
  exact funext fun m => hlength _ m (Nat.lt_succ_self _)

end

end Reader

namespace Source

/-- The reader that takes the trees of texts from a parser. -/
def readerOf (tree : String → Node) : Reader where
  read text := exprOf text (tree (wrap text))
  depth tokens := tokens.length + 1

example : reader = readerOf parse := rfl

theorem shrinks_readerOf {tree : String → Node} (h : ∀ text, (tree (wrap text)).fits text = true) :
    (readerOf tree).Shrinks :=
  fun text _ hread => eachCall_of_exprOf (h text) hread

/-- Every text that is read when a call is expanded is no longer than the tokens of the call, a call
    without tokens reads none, and no other text has a part in the expansion. If the trees of the
    parser fit their texts, every call in what a text reads as has fewer tokens than the text, or
    both have none. So calls nest finitely often, and there is exactly one expansion that goes on
    without a bound on the depth, which is the one with the bound. -/
theorem macro_expansion_terminates (tree : String → Node)
    (hfits : ∀ text, (tree (wrap text)).fits text = true) :
    (∀ m, (∀ text ∈ Macro.texts m, text.length ≤ m.tokens.length) ∧
      (m.tokens = "" → Macro.texts m = [])) ∧
    (∀ m (arg arg' : String → Emit Js.Expr), (∀ text ∈ Macro.texts m, arg text = arg' text) →
      Macro.expand arg m = Macro.expand arg' m) ∧
    (∀ text e, (readerOf tree).read text = .ok e → e.EachCall fun m =>
      m.tokens.length < text.length ∨ text = "" ∧ m.tokens = "") ∧
    WellFounded (readerOf tree).Nests ∧
    ∀ expand, (∀ m, expand m = Macro.expand ((readerOf tree).argument expand) m) ↔
      expand = (readerOf tree).expand := by
  have hr := shrinks_readerOf hfits
  have hexpand := Reader.expand_eq hr fun tokens => Nat.lt_succ_self tokens.length
  refine ⟨fun m => ⟨fun text => Macro.length_le_of_mem_texts, Macro.texts_of_tokens_eq_empty⟩,
    fun m arg arg' => Macro.expand_congr, hr, Reader.wellFounded_nests hr,
    fun expand => ⟨fun h => ?_, ?_⟩⟩
  · exact Reader.eq_of_expand_eq hr h hexpand
  · rintro rfl
    exact hexpand

/-- The text in the body of the function that it was wrapped in. -/
def unwrap (text : String) : String :=
  .ofList ((text.toList.drop wrapperHead.length).dropLast.dropLast)

theorem unwrap_wrap (text : String) : unwrap (wrap text) = text := by
  have hend : "\n\x7d".toList = ['\n', '\x7d'] := rfl
  rw [unwrap, wrap, String.toList_append, String.toList_append, List.append_assoc,
    ← String.length_toList, List.drop_left, hend, List.dropLast_append_of_ne_nil (by simp)]
  simp

/-- The tree of the parser if it fits its text, and otherwise that of a mistake. -/
def checked (text : String) : Node :=
  if (parse text).fits (unwrap text) then parse text
  else { kind := "ERROR", start := 0, stop := 0 }

theorem fits_checked (text : String) : (checked (wrap text)).fits text = true := by
  rw [checked, unwrap_wrap]
  split
  · assumption
  · rfl

theorem macro_expansion_terminates_checked :
    (∀ text, (checked (wrap text)).fits text = true) ∧
    WellFounded (readerOf checked).Nests ∧
    (readerOf checked).expand ⟨"vec", "vec![1], vec![2]"⟩ =
      Macro.expand ((readerOf checked).argument (readerOf checked).expand)
        ⟨"vec", "vec![1], vec![2]"⟩ ∧
    Except.toOption (((readerOf checked).expand ⟨"vec", "vec![1], vec![2]"⟩ {} {}).1.map
      Js.Expr.text) = some "[[1], [2]]" := by
  obtain ⟨-, -, -, hwf, hexpand⟩ := macro_expansion_terminates checked fits_checked
  exact ⟨fits_checked, hwf, (hexpand _).mpr rfl _, by decide +kernel⟩

/-- A tree of a text in the function around it, with one call as the body. -/
def aroundCall (text : String) (name brackets : Nat × Nat) : Node :=
  let whole := (Text.encode (wrap text)).length
  let call : Node :=
    { kind := "macro_invocation", start := brackets.1, stop := brackets.2
      children := [
        { kind := "identifier", start := name.1, stop := name.2, field := some "macro" },
        { kind := "token_tree", start := brackets.1, stop := brackets.2 }] }
  { kind := "source_file", start := 0, stop := whole
    children := [{
      kind := "function_item", start := 0, stop := whole
      children := [
        { kind := "identifier", start := 3, stop := 9, field := some "name" },
        { kind := "parameters", start := 9, stop := 11, field := some "parameters" },
        { kind := "block", start := 12, stop := whole, field := some "body"
          children := [call] }] }] }

/-- Nodes that lie within their parents are not enough. A call that reaches into the function around
    the text has more tokens than the text, and when it is expanded the same text is read again. And
    a call without tokens is not shorter than a text without characters. -/
theorem call_reaching_out_reads_itself :
    ((aroundCall "vec" (14, 17) (12, 19)).isNested = true ∧
      ∃ m, exprOf "vec" (aroundCall "vec" (14, 17) (12, 19)) = .ok (.mac m) ∧
        m.tokens = "\nvec\n" ∧ "vec".length < m.tokens.length ∧ "vec" ∈ Macro.texts m) ∧
    (aroundCall "" (14, 14) (14, 14)).isNested = true ∧
      ∃ m, exprOf "" (aroundCall "" (14, 14) (14, 14)) = .ok (.mac m) ∧
        ¬ m.tokens.length < "".length := by
  refine ⟨⟨by decide +kernel, _, rfl, ?_, ?_, ?_⟩, by decide +kernel, _, rfl, ?_⟩
  · decide +kernel
  · decide +kernel
  · decide +kernel
  · decide +kernel

end Source

end RustScript
