/-
  Method calls with an idiom of their own.

  The argument of a power must bind at least as tight as `**`, that of `unwrap_or` tighter than `||`
  and `&&`, and all others can be any expression.
-/
import RustScript.Proofs.Emit.Tree

namespace RustScript.Idiom

open Js (Seat IsExpr)

/-! ## What is read -/

section Reading

variable {expand : MacroCall → Emit Js.Expr} {receiver : Expr} {args : List Expr} {place : Place}
  {s t u : State} {recv : Js.Expr} {codes : List Js.Expr}

/-- The receiver of a method call as the code around it gets it. -/
def target (receiver : Expr) (recv : Js.Expr) : Js.Expr := recv.parenIf receiver.isCompoundTarget

theorem isExpr_target (h : IsExpr recv.text) (receiver : Expr) :
    IsExpr (target receiver recv).text := by
  unfold target Js.Expr.parenIf
  split
  · rw [Js.Expr.text]
    exact ⟨_, h.groupsAs.paren⟩
  · exact h

theorem expr_methodCall (hrecv : Emit.expr expand receiver .value place s = (.ok recv, t))
    (hargs : Emit.exprs expand args place t = (.ok codes, u)) (method : String) :
    Emit.expr expand (.methodCall receiver method args) .value place s =
      (.ok (Emit.methodCall receiver (target receiver recv) method codes), u) := by
  rw [Emit.expr]
  exact (Emit.bind_of_ok hrecv _).trans (Emit.bind_of_ok hargs _)

/-- A method call with an idiom of its own is emitted as soon as its receiver and arguments are.
    JavaScript reads the code as the idiom with what it reads in the receiver and the arguments for
    operands, and in no other way, exactly if they bind tight enough for their places. -/
theorem method_arguments_stay_whole_iff (method : String)
    (hrecv : Emit.expr expand receiver .value place s = (.ok recv, t))
    (hargs : Emit.exprs expand args place t = (.ok codes, u))
    (hidiom : (method? (target receiver recv) method codes receiver.isSimple
      receiver.isHost).isSome = true)
    (hisRecv : IsExpr recv.text) (hisArgs : ∀ a ∈ codes, IsExpr a.text) :
    ∃ code whole, Emit.expr expand (.methodCall receiver method args) .value place s =
        (.ok code, u) ∧
      method? (target receiver recv).leaf method (codes.map Js.Expr.leaf) receiver.isSimple
        receiver.isHost = some whole ∧
      ((∀ q, Js.GroupsAs code.text q ↔ q = whole.phrase) ↔
        (methodSeat method codes.length receiver.isSimple receiver.isHost).Admits
          (target receiver recv).text ∧ ∀ a ∈ codes, (argumentSeat method).Admits a.text) := by
  obtain ⟨code, hcode⟩ := Option.isSome_iff_exists.mp hidiom
  obtain ⟨f, hbuilds, ⟨hsound, -⟩, hreceiver, hargument⟩ := exists_frame hcode
  have hwhole := hbuilds (target receiver recv).leaf (codes.map Js.Expr.leaf)
    (List.length_map _)
  obtain rfl : f.code (target receiver recv) codes = code :=
    Option.some.inj ((hbuilds _ codes rfl).symm.trans hcode)
  refine ⟨_, _, expr_methodCall hrecv hargs method, hwhole, ?_⟩
  have hleaves : codes.map Js.Expr.leaf = (codes.map Js.Expr.text).map .atom := by
    simp [Js.Expr.leaf]
  have htexts : ∀ a ∈ codes.map Js.Expr.text, IsExpr a := by simpa using hisArgs
  have hread := Frame.isRead_code_iff (by rwa [List.length_map])
    (isExpr_target hisRecv receiver) htexts
  rw [Emit.methodCall, hcode, Option.getD_some, ← f.text_code_leaf, ← Js.Expr.isRead_iff, hleaves,
    Js.Expr.leaf, ← hreceiver, ← hargument]
  simpa using hread

end Reading

theorem emit_name_and_sum :
    Emit.expr (Reader.ofTable []).expand (.ident "x") .value {} {} = (.ok (.atom "x"), {}) ∧
      Emit.exprs (Reader.ofTable []).expand [.binary "+" (.ident "a") (.ident "b")] {} {} =
        (.ok [.binary "+" (.atom "a") (.atom "b")], {}) :=
  ⟨rfl, rfl⟩

/-- In `x.unwrap_or(a + b)` the whole sum is the fallback. -/
theorem sum_as_fallback_stays_whole :
    let call := Expr.methodCall (.ident "x") "unwrap_or" [.binary "+" (.ident "a") (.ident "b")]
    ∃ code, (Reader.ofTable []).emit call .value {} {} = (.ok code, {}) ∧
      ∀ q, Js.GroupsAs code.text q ↔ q = .paren (.binary "??" (.word "x")
        (.binary "+" (.word "a") (.word "b"))) := by
  obtain ⟨hrecv, hargs⟩ := emit_name_and_sum
  have hx : Js.read? 10 "x".toList = some (.word "x") := by decide
  have hsum : Js.read? 10 "a + b".toList = some (.binary "+" (.word "a") (.word "b")) := by decide
  have htext : (Js.Expr.binary "+" (.atom "a") (.atom "b")).text = "a + b" := by decide
  obtain ⟨code, whole, hcode, hwhole, hread⟩ := method_arguments_stay_whole_iff "unwrap_or" hrecv
    hargs rfl (Js.isExpr_of_read? hx) (by simpa [htext] using Js.isExpr_of_read? hsum)
  obtain rfl : Js.Expr.paren (.binary "??" (.atom "x") (.atom "a + b")) = whole :=
    Option.some.inj hwhole
  have hphrase : (Js.Expr.paren (.binary "??" (.atom "x") (.atom "a + b"))).phrase =
      .paren (.binary "??" (.word "x") (.binary "+" (.word "a") (.word "b"))) := by
    simp only [Js.Expr.phrase, Js.reading_of_read? hx, Js.reading_of_read? hsum]
  have hleft : (Seat.left "??").Admits "x" := ⟨5, by decide, by rw [Js.reading_of_read? hx]; decide⟩
  have hright : (Seat.right "??").Admits "a + b" :=
    ⟨5, by decide, by rw [Js.reading_of_read? hsum]; decide⟩
  rw [hphrase] at hread
  refine ⟨code, hcode, hread.mpr ⟨hleft, fun a ha => ?_⟩⟩
  rw [List.mem_singleton.mp ha, htext]
  exact hright

/-- In `x.pow(a + b)` the exponent falls apart: what is emitted is read as a sum. -/
theorem sum_as_exponent_falls_apart :
    let call := Expr.methodCall (.ident "x") "pow" [.binary "+" (.ident "a") (.ident "b")]
    ∃ code, (Reader.ofTable []).emit call .value {} {} = (.ok code, {}) ∧
      code.text = "(x ** a + b)" ∧
      ∀ q, Js.GroupsAs code.text q ↔ q = .paren (.binary "+" (.binary "**" (.word "x") (.word "a"))
        (.word "b")) := by
  obtain ⟨hrecv, hargs⟩ := emit_name_and_sum
  have htext : (Emit.methodCall (.ident "x") (target (.ident "x") (.atom "x")) "pow"
      [.binary "+" (.atom "a") (.atom "b")]).text = "(x ** a + b)" := by decide
  have hread : Js.read? 10 "(x ** a + b)".toList = some (.paren (.binary "+"
      (.binary "**" (.word "x") (.word "a")) (.word "b"))) := by decide +kernel
  refine ⟨_, expr_methodCall hrecv hargs "pow", htext, fun q => ?_⟩
  rw [htext]
  have hgroups := Js.groupsAs_of_read? hread
  exact ⟨fun hq => hq.unique hgroups, fun hq => hq ▸ hgroups⟩

end RustScript.Idiom
