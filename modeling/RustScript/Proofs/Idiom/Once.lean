/-
  Receivers and arguments of method idioms are used once.

  Seen from one of its operands, the frame of an idiom is a context. The one frame that writes its
  receiver twice is used for names and fields only. Methods that are erased lose their argument.
-/
import RustScript.Proofs.Idiom.Operands
import RustScript.Proofs.Js.Context

namespace RustScript.Idiom

open Js (Seat Context)

variable {recv : Js.Expr} {args : List Js.Expr} {method : String} {isHost : Bool} {f : Frame}
  {count : Nat}

/-! ## Frames seen from an operand -/

theorem Frame.exists_receiver_context (hf : f.IsSound args.length)
    (honce : ∀ op joint, f ≠ .question op joint) :
    ∃ c : Context, c.isStrict = true ∧ ∀ recv, f.code recv args = c.fill recv := by
  cases f with
  | itself => exact ⟨.hole, rfl, fun _ => rfl⟩
  | property name => exact ⟨.member .hole name, rfl, fun _ => rfl⟩
  | element => exact ⟨.index .hole (.atom "0"), rfl, fun _ => rfl⟩
  | function func => exact ⟨.argument func [] .hole args, rfl, fun _ => rfl⟩
  | chain func name more =>
    exact ⟨.callee (.member (.argument func [] .hole []) name) more, rfl, fun _ => rfl⟩
  | method name more => exact ⟨.callee (.member .hole name) (args ++ more), rfl, fun _ => rfl⟩
  | extension name => exact ⟨.callee (.member .hole name) (args.map .spread), rfl, fun _ => rfl⟩
  | operator op =>
    obtain ⟨a, rfl⟩ := List.length_eq_one_iff.mp hf.1
    exact ⟨.paren (.left op .hole a), rfl, fun _ => rfl⟩
  | alternative =>
    obtain ⟨a, rfl⟩ := List.length_eq_one_iff.mp hf
    exact ⟨.paren (.left "??" .hole (.call (.paren a) [])), rfl, fun _ => rfl⟩
  | key text => exact ⟨.paren (.right "in" (.atom text) .hole), rfl, fun _ => rfl⟩
  | question op joint => exact absurd rfl (honce op joint)

/-- Whether the argument may be passed over. -/
def Frame.passesOver : Frame → Bool
  | operator op => Js.shortCircuits.contains op
  | alternative => true
  | _ => false

theorem Frame.exists_argument_context (hf : f.IsSound args.length) (hne : f ≠ .itself) {i : Nat}
    (hi : i < args.length) (recv : Js.Expr) :
    ∃ c : Context, c.isStrict = !f.passesOver ∧ ∀ e, f.code recv (args.set i e) = c.fill e := by
  have hset (e : Js.Expr) : args.set i e = args.take i ++ e :: args.drop (i + 1) :=
    List.set_eq_take_append_cons_drop.trans (if_pos hi)
  have hnone (hzero : args.length = 0) : False := by omega
  cases f with
  | itself => exact absurd rfl hne
  | property name => exact (hnone hf.1).elim
  | element => exact (hnone hf).elim
  | chain func name more => exact (hnone hf.1).elim
  | key text => exact (hnone hf.1).elim
  | question op joint => exact (hnone hf.1).elim
  | function func =>
    refine ⟨.argument func (recv :: args.take i) .hole (args.drop (i + 1)), rfl, fun e => ?_⟩
    rw [code, hset]
    rfl
  | method name more =>
    refine ⟨.argument (.member recv name) (args.take i) .hole (args.drop (i + 1) ++ more), rfl,
      fun e => ?_⟩
    rw [code, hset, List.append_assoc]
    rfl
  | extension name =>
    refine ⟨.argument (.member recv name) ((args.take i).map .spread) (.spread .hole)
      ((args.drop (i + 1)).map .spread), rfl, fun e => ?_⟩
    rw [code, hset, List.map_append]
    rfl
  | operator op =>
    obtain ⟨a, rfl⟩ := List.length_eq_one_iff.mp hf.1
    obtain rfl : i = 0 := Nat.lt_one_iff.mp hi
    exact ⟨.paren (.right op recv .hole), by simp [Context.isStrict, passesOver], fun _ => rfl⟩
  | alternative =>
    obtain ⟨a, rfl⟩ := List.length_eq_one_iff.mp hf
    obtain rfl : i = 0 := Nat.lt_one_iff.mp hi
    exact ⟨.paren (.right "??" recv (.callee (.paren .hole) [])), rfl, fun _ => rfl⟩

/-! ## Which frame a method has -/

theorem isIdentity_of_method? {text : String} {isSimple : Bool}
    (h : method? (.atom text) method args isSimple isHost = some (.atom text)) :
    identities.contains method = true ∧ args.length ≤ 1 := by
  unfold method? at h
  split at h
  · cases h
  split at h
  · next hidentity => simpa using hidentity
  split at h
  · cases h
  · cases h
  rcases exists_of_orElse h with h | h
  · unfold container? at h
    split at h <;> cases h
  rcases exists_of_orElse h with h | h
  · unfold optional? askNull at h
    split at h
    case h_1 | h_2 => cases isSimple <;> cases h
    all_goals cases h
  rcases exists_of_orElse h with h | h
  · unfold sequence? at h
    split at h
    case h_8 => cases isSimple <;> cases h
    all_goals cases h
  · obtain ⟨name, -, hcode⟩ := Option.map_eq_some_iff.mp h
    cases hcode

theorem method?_of_identity (h : identities.contains method = true) (recv arg : Js.Expr) :
    method? recv method [arg] false isHost = some recv := by
  unfold method?
  rw [if_neg (by simp), if_pos (by rw [h]; rfl)]

/-- The methods whose argument is used only if there is no value. -/
def fallbacks : List String := ["unwrap_or", "unwrap_or_else"]

theorem op_of_methodSeat {op : String} (h : methodSeat method count false isHost = .left op) :
    op = "??" ∧ fallbacks.contains method = true ∨
      op ∈ ["+=", "**"] ∧ fallbacks.contains method = false := by
  unfold methodSeat at h
  split at h
  · cases h
  split at h
  · cases h
  unfold receiverSeat at h
  split at h
  case h_1 | h_2 => cases h
  case h_15 => split at h <;> cases h
  all_goals
    cases h
    try decide

theorem methodSeat_of_fallbacks (h : fallbacks.contains method = true) (count : Nat)
    (isSimple isHost : Bool) : methodSeat method count isSimple isHost = .left "??" := by
  simp only [fallbacks, List.contains_eq_mem, List.mem_cons, List.not_mem_nil, or_false,
    decide_eq_true_eq] at h
  obtain rfl | rfl := h <;> simp [methodSeat, hostProperties, identities, receiverSeat]

theorem Frame.ne_question (hf : f.IsSound count)
    (hseat : f.receiver = methodSeat method count false isHost) (op joint : String) :
    f ≠ .question op joint := by
  rintro rfl
  obtain ⟨-, hop⟩ := hf
  simp only [List.mem_cons, List.not_mem_nil, or_false, Prod.mk.injEq] at hop
  obtain ⟨rfl, -⟩ | ⟨rfl, -⟩ := hop <;>
    · rcases op_of_methodSeat hseat.symm with ⟨h, -⟩ | ⟨h, -⟩ <;> simp at h

theorem Frame.passesOver_eq (hf : f.IsSound count)
    (hseat : f.receiver = methodSeat method count false isHost) :
    f.passesOver = fallbacks.contains method := by
  have hother (hne : f.receiver ≠ .left "??") : fallbacks.contains method = false := by
    refine Bool.eq_false_iff.mpr fun hfallback => hne ?_
    rw [hseat, methodSeat_of_fallbacks hfallback]
  cases f with
  | operator op =>
    rcases op_of_methodSeat hseat.symm with ⟨rfl, hmethod⟩ | ⟨hop, hmethod⟩
    · rw [hmethod]
      rfl
    · simp only [List.mem_cons, List.not_mem_nil, or_false] at hop
      rw [hmethod]
      obtain rfl | rfl := hop <;> rfl
  | alternative =>
    rcases op_of_methodSeat hseat.symm with ⟨-, hmethod⟩ | ⟨hop, -⟩
    · rw [hmethod]
      rfl
    · simp at hop
  | question op joint => exact absurd rfl (ne_question hf hseat op joint)
  | _ => exact (hother (by simp [receiver])).symm

/-! ## Every operand once -/

/-- For a receiver that is not a name or a field: what a method with an idiom of its own becomes
    holds the receiver at exactly one place and runs it, and holds each argument at exactly one
    place and runs it, or may pass over it if it is a fallback. No function is around these places.
    This is so exactly if the method is not erased with an argument. -/
theorem method_operands_occur_once_iff
    (hidiom : (method? recv method args false isHost).isSome = true) :
    ((∃ c : Context, c.isStrict = true ∧ c.Surrounds (method? · method args false isHost)) ∧
      ∀ i < args.length, ∃ c : Context, c.isStrict = !fallbacks.contains method ∧
        c.Surrounds fun e => method? recv method (args.set i e) false isHost) ↔
      ¬ (identities.contains method = true ∧ args.length = 1) := by
  obtain ⟨code, hcode⟩ := Option.isSome_iff_exists.mp hidiom
  obtain ⟨f, hbuilds, ⟨hsound, -⟩, hseat, -⟩ := exists_frame hcode
  constructor
  · rintro ⟨-, hargs⟩ ⟨hidentity, hone⟩
    obtain ⟨c, -, hc⟩ := hargs 0 (by omega)
    -- the receiver is left alone whatever the argument is
    have hconst : (fun e => method? recv method (args.set 0 e) false isHost) = fun _ => some recv := by
      funext e
      obtain ⟨a, rfl⟩ := List.length_eq_one_iff.mp hone
      exact method?_of_identity hidentity recv e
    rw [hconst] at hc
    exact c.not_surrounds_const recv hc
  · intro hkept
    obtain ⟨c, hstrict, hc⟩ := f.exists_receiver_context hsound (f.ne_question hsound hseat)
    refine ⟨⟨c, hstrict, .of_eq fun e => ?_⟩, fun i hi => ?_⟩
    · exact (hbuilds e args rfl).trans (congrArg some (hc e))
    · have hne : f ≠ .itself := by
        rintro rfl
        have hbare := isIdentity_of_method? (hbuilds (.atom "") args rfl)
        exact hkept ⟨hbare.1, by omega⟩
      obtain ⟨c, hstrict, hc⟩ := f.exists_argument_context hsound hne hi recv
      rw [f.passesOver_eq hsound hseat] at hstrict
      refine ⟨c, hstrict, .of_eq fun e => ?_⟩
      have hlength : (args.set i e).length = args.length := List.length_set
      exact (hbuilds recv (args.set i e) hlength).trans (congrArg some (hc e))

/-- `f().insert(k(), v())` calls each of the three functions at one place. -/
theorem insertion_uses_each_operand_once :
    let calls : List Js.Expr := [.call (.atom "k") [], .call (.atom "v") []]
    (∃ c : Context, c.isStrict = true ∧ c.Surrounds (method? · "insert" calls false false)) ∧
      ∀ i < 2, ∃ c : Context, c.isStrict = true ∧
        c.Surrounds fun e => method? (.call (.atom "f") []) "insert" (calls.set i e) false false :=
  (method_operands_occur_once_iff rfl).mpr (by decide)

/-- `f().into(g())` is emitted as `f()`: the call of `g` is lost. -/
theorem argument_of_an_erased_method_is_lost :
    let call := Expr.methodCall (.call (.ident "f") []) "into" [.call (.ident "g") []]
    ∃ code, (Reader.ofTable []).emit call .value {} {} = (.ok code, {}) ∧ code.text = "f()" ∧
      ∀ c : Context, ¬ c.Surrounds fun e =>
        method? (.call (.atom "f") []) "into" [e] false false := by
  have hconst : (fun e => method? (.call (.atom "f") []) "into" [e] false false) =
      fun _ => some (.call (.atom "f") []) :=
    funext fun e => method?_of_identity (by decide) _ e
  rw [hconst]
  exact ⟨.call (.atom "f") [], rfl, by decide, fun c => c.not_surrounds_const _⟩

end RustScript.Idiom
