/-
  The mistake that is reported.

  The search for a mistake goes down into the first child that holds one. In terms of the whole tree
  that is the first mistake in the order of the source (`Node.firstFlaw?_eq`).
-/
import RustScript.Source.Node

namespace RustScript.Source

namespace Node

mutual

/-- The node and all below it, each before its children. -/
def preorder (n : Node) : List Node :=
  match n with
  | ⟨_, _, _, _, _, _, children⟩ => n :: preorderAll children

def preorderAll : List Node → List Node
  | [] => []
  | n :: ns => n.preorder ++ preorderAll ns

end

/-- The nodes below a node, in the order of the text. -/
def descendants (n : Node) : List Node := preorderAll n.children

theorem preorder_eq (n : Node) : n.preorder = n :: n.descendants := by
  cases n
  rfl

mutual

theorem hasFlaw_eq (n : Node) : n.hasFlaw = n.preorder.any isFlaw := by
  obtain ⟨kind, start, stop, isNamed, isMissing, field, children⟩ := n
  rw [hasFlaw, anyFlaw_eq children]
  rfl

theorem anyFlaw_eq (ns : List Node) : anyFlaw ns = (preorderAll ns).any isFlaw := by
  cases ns with
  | nil => rfl
  | cons n ns => rw [anyFlaw, hasFlaw_eq n, anyFlaw_eq ns, preorderAll, List.any_append]

end

theorem any_descendants {n : Node} (h : n.hasFlaw = true) (hself : n.isFlaw = false) :
    n.descendants.any isFlaw = true := by
  rwa [hasFlaw_eq, preorder_eq, List.any_cons, hself, Bool.false_or] at h

mutual

theorem flaw_eq (n : Node) : n.flaw = (n.descendants.find? isFlaw).getD n := by
  obtain ⟨kind, start, stop, isNamed, isMissing, field, children⟩ := n
  rw [flaw, firstFlaw?_eq children]
  rfl

theorem firstFlaw?_eq (ns : List Node) : firstFlaw? ns = (preorderAll ns).find? isFlaw := by
  cases ns with
  | nil => rfl
  | cons n ns =>
    rw [firstFlaw?, preorderAll, List.find?_append, preorder_eq, List.find?_cons]
    cases hself : n.isFlaw with
    | true => rfl
    | false =>
      cases hbelow : n.hasFlaw with
      | true =>
        have hany := any_descendants hbelow hself
        obtain ⟨m, hm⟩ := Option.isSome_iff_exists.mp (List.find?_isSome.mpr (List.any_eq_true.mp hany))
        simp [flaw_eq n, hm]
      | false =>
        have hnone : n.descendants.find? isFlaw = none := by
          rw [hasFlaw_eq, preorder_eq, List.any_cons, hself, Bool.false_or] at hbelow
          simpa using hbelow
        simp [hnone, firstFlaw?_eq ns]

end

end Node

theorem Node.flaw_cases {n : Node} (h : n.hasFlaw = true) :
    n.flaw.isFlaw = true ∧
    (n.descendants.find? isFlaw = some n.flaw ∨
      n.flaw = n ∧ n.descendants.find? isFlaw = none) := by
  rw [flaw_eq]
  cases hfind : n.descendants.find? isFlaw with
  | some m => exact ⟨List.find?_some hfind, .inl rfl⟩
  | none =>
    refine ⟨?_, .inr ⟨rfl, rfl⟩⟩
    rw [hasFlaw_eq, preorder_eq, List.any_cons, Bool.or_eq_true] at h
    refine h.resolve_right fun hbelow => ?_
    obtain ⟨m, hm, hflaw⟩ := List.any_eq_true.mp hbelow
    exact List.find?_eq_none.mp hfind m hm hflaw

/-- A tree is refused exactly if one of its nodes is a mistake. What is reported is the first
    mistake below the root, and the root itself only if it is the one mistake there is. The line of
    the message is the line of that node less the hidden lines, at least zero, counted from one. -/
theorem first_flaw_is_reported (bytes : Bytes) (hidden : Nat) (root : Node) :
    ((∃ cause line column, check bytes hidden root = .error (.parse cause line column)) ↔
      ∃ n ∈ root.preorder, n.isFlaw = true) ∧
    ∀ e, check bytes hidden root = .error e →
      root.flaw.isFlaw = true ∧
      (root.descendants.find? Node.isFlaw = some root.flaw ∨
        root.flaw = root ∧ root.descendants.find? Node.isFlaw = none) ∧
      ∃ line : Nat,
        (line : Int) = max (((position bytes root.flaw.start).1 : Int) - hidden) 0 ∧
        e.message = (if root.flaw.isMissing then "Missing " ++ root.flaw.kind else "Syntax error") ++
          " at line " ++ toString (line + 1) ++ ", column " ++
          toString ((position bytes root.flaw.start).2 + 1) := by
  rw [← List.any_eq_true, ← Node.hasFlaw_eq]
  unfold check
  cases hflaw : root.hasFlaw with
  | false =>
    refine ⟨by simp, ?_⟩
    rintro e ⟨⟩
  | true =>
    refine ⟨by simp, ?_⟩
    rintro e ⟨⟩
    obtain ⟨hself, hfirst⟩ := Node.flaw_cases hflaw
    refine ⟨hself, hfirst, (position bytes root.flaw.start).1 - hidden, by omega, ?_⟩
    cases root.flaw.isMissing with
    | true => rfl
    | false => rfl

/-- In a tree with two mistakes, one of them deep inside and one behind it, the deep one is reported;
    the line of the wrapper is hidden. -/
theorem deep_flaw_is_reported_first :
    let deep : Node := { kind := ";", start := 15, stop := 15, isMissing := true }
    let body : Node := { kind := "block", start := 12, stop := 16, children := [deep] }
    let late : Node := { kind := "ERROR", start := 16, stop := 17 }
    let root : Node := { kind := "source_file", start := 0, stop := 17, children := [body, late] }
    let bytes := Text.encode "fn __expr() \x7b\nx\n\x7d)"
    ∃ e, check bytes 1 root = .error e ∧ root.flaw = deep ∧
      root.descendants.find? Node.isFlaw = some root.flaw ∧
      e.message = "Missing ; at line 1, column 2" := by
  intro deep body late root bytes
  have hcheck : check bytes 1 root = .error (.parse (.missing ";") 0 1) := by rfl
  have hfind : root.descendants.find? Node.isFlaw = some deep := rfl
  obtain ⟨-, hfirst, line, hline, hmessage⟩ := (first_flaw_is_reported bytes 1 root).2 _ hcheck
  have hposition : position bytes root.flaw.start = (1, 1) := by decide
  rw [hposition] at hline hmessage
  obtain rfl : line = 0 := by omega
  refine ⟨_, hcheck, rfl, hfirst.resolve_right fun h => ?_, hmessage.trans (by decide)⟩
  exact Option.some_ne_none deep (hfind.symm.trans h.2)

end RustScript.Source
