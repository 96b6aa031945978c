/-
  Locals that hide helpers.

  No target is kept for the helpers that emitted code calls by name, so a local of such a name takes
  it. Nothing else does: a helper is the target of its own name only (`Name.target_eq_helper_iff`,
  `Scopes.suffixed_ne_helper`).
-/
import RustScript.Proofs.Scope.Fresh
import RustScript.Proofs.Scope.Merging

namespace RustScript

namespace Js

/-- The helpers of the preamble. -/
def preambleNames : List String :=
  ["debug_repr", "panic", "assert", "assert_eq", "try_unwrap", "TryPropagation", "unwrap",
   "write_stdout", "write_stderr", "env"]

/-- The objects of JavaScript that emitted code uses. -/
def hostNames : List String := ["console", "Math", "Array", "Object", "String", "Number", "Boolean"]

/-- The global names that emitted code relies on. -/
def helpers : List String := preambleNames ++ hostNames

end Js

/-! ## Targets of other names -/

/-- The last character of a word is a letter. -/
def Name.endsPlain (w : String) : Bool :=
  match w.toList.getLast? with
  | some c => !c.isDigit && c != '_'
  | none => false

theorem Name.endsPlain_of_mem {w : String} (h : w ∈ Js.helpers) : endsPlain w = true := by
  have hall : ∀ w ∈ Js.helpers, endsPlain w = true := by decide
  exact hall w h

theorem Name.notMem_reserved_of_mem {w : String} (h : w ∈ Js.helpers) : w ∉ reserved := by
  have hall : ∀ w ∈ Js.helpers, w ∉ reserved := by decide
  exact hall w h

theorem Name.target_eq_helper_iff {name helper : String} (h : helper ∈ Js.helpers) :
    target name = helper ↔ unraw name = helper := by
  by_cases hname : unraw name ∈ reserved
  · refine iff_of_false (fun heq => ?_) fun heq => notMem_reserved_of_mem h (heq ▸ hname)
    have hends := endsPlain_of_mem h
    rw [← heq, target_of_mem hname, endsPlain, String.toList_append] at hends
    simp at hends
  · rw [target_of_notMem hname]

theorem Scopes.suffixed_ne_helper {helper : String} (h : helper ∈ Js.helpers) (base : String)
    (n : Nat) : suffixed base n ≠ helper := by
  intro heq
  have hends := Name.endsPlain_of_mem h
  obtain ⟨cs, c, hcs⟩ : ∃ cs c, (toString n).toList = cs ++ [c] :=
    ⟨_, _, (List.dropLast_append_getLast (Js.toString_chars n).1).symm⟩
  have hdigit : c.isDigit = true :=
    Js.isDigit_of_mem_toString (n := n) (hcs ▸ List.mem_append_right cs List.mem_cons_self)
  rw [← heq, Name.endsPlain, suffixed, String.toList_append, hcs, ← List.append_assoc,
    List.getLast?_concat] at hends
  simp [hdigit] at hends

/-! ## The main statement -/

namespace Scopes

/-- Whatever the scopes, a local gets the name of a helper exactly if this is its own name and no
    live local has it. So of several locals of that name the first hides the helper, and no local of
    another name does. -/
theorem helper_is_hidden_iff (s : Scopes) (name : String) {helper : String}
    (h : helper ∈ Js.helpers) :
    (s.declare name).1 = helper ↔ Name.unraw name = helper ∧ s.isLive helper = false := by
  have hnext := s.isNext_fresh name
  constructor
  · intro (heq : s.fresh name = helper)
    have hfree := hnext.isLive_eq_false
    unfold IsNext at hnext
    rw [heq] at hnext hfree
    split at hnext
    · obtain ⟨n, -, hsuffixed, -⟩ := hnext
      exact absurd hsuffixed.symm (suffixed_ne_helper h _ n)
    · exact ⟨(Name.target_eq_helper_iff h).mp hnext.symm, hfree⟩
  · rintro ⟨hname, hfree⟩
    have htarget := (Name.target_eq_helper_iff h).mpr hname
    unfold IsNext at hnext
    rw [htarget, hfree, if_neg Bool.false_ne_true] at hnext
    exact hnext

/-- The scopes inside a local named `unwrap`. -/
def unwrapped : Scopes := (({} : Scopes).declare "unwrap").2.push

theorem unwrap_is_hidden_once :
    (({} : Scopes).declare "unwrap").1 = "unwrap" ∧ (unwrapped.declare "unwrap").1 ≠ "unwrap" ∧
      (unwrapped.declare "r#panic").1 = "panic" ∧ (unwrapped.declare "unwrap_").1 ≠ "unwrap" := by
  have hunwrap : "unwrap" ∈ Js.helpers := by decide
  refine ⟨(helper_is_hidden_iff _ _ hunwrap).mpr (by decide), ?_,
    (helper_is_hidden_iff _ _ (by decide)).mpr (by decide), ?_⟩
  · rw [Ne, helper_is_hidden_iff _ _ hunwrap]
    decide
  · rw [Ne, helper_is_hidden_iff _ _ hunwrap]
    decide

/-- The first local of the name `panic` hides the helper. -/
theorem local_hides_panic : "panic" ∈ Js.helpers ∧ (({} : Scopes).declare "panic").1 = "panic" := by
  decide

end Scopes

end RustScript
