/-
  Paths as they are written.

  `std::collections::HashMap::<K, V>::new` has the segments `std`, `collections`, `HashMap` and
  `new`: generic arguments are left out, and so are the marks of the crate's own modules in front.
-/
import RustScript.Text.Blank

namespace RustScript.Source

/-- The text without the groups `<…>` that have no bracket inside, one pass from left to right; `held`
    is what stands behind a bracket that may open such a group, backwards. -/
def dropInnermost : (held : Option (List Char)) → List Char → List Char
  | none, [] => []
  | none, '<' :: cs => dropInnermost (some []) cs
  | none, c :: cs => c :: dropInnermost none cs
  | some held, [] => '<' :: held.reverse
  | some held, '<' :: cs => '<' :: (held.reverse ++ dropInnermost (some []) cs)
  | some _, '>' :: cs => dropInnermost none cs
  | some held, c :: cs => dropInnermost (some (c :: held)) cs

/-- What is held back, as it stands in the text. -/
def heldText : Option (List Char) → List Char
  | none => []
  | some held => '<' :: held.reverse

/-- A pass makes the text shorter or leaves it as it is. -/
theorem dropInnermost_eq_or_lt (held : Option (List Char)) (cs : List Char) :
    dropInnermost held cs = heldText held ++ cs ∨
      (dropInnermost held cs).length < (heldText held ++ cs).length := by
  fun_induction dropInnermost held cs with
  | case1 => exact .inl rfl
  | case2 cs ih => exact ih
  | case3 c cs _ ih => exact ih.imp (congrArg _) Nat.succ_lt_succ
  | case4 held => exact .inl (List.append_nil _).symm
  | case5 held cs ih =>
    refine ih.imp (fun heq => ?_) fun hlt => ?_
    · rw [heq]
      rfl
    · simpa [heldText] using hlt
  | case6 held cs ih =>
    have hle : (dropInnermost none cs).length ≤ cs.length :=
      ih.elim (fun heq => heq ▸ Nat.le_refl _) Nat.le_of_lt
    refine .inr (Nat.lt_of_le_of_lt hle ?_)
    rw [List.length_append, List.length_cons]
    omega
  | case7 held c cs _ _ ih => simpa [heldText] using ih

/-- The text without generic arguments: passes are made until one changes nothing. -/
def dropGenerics (cs : List Char) : List Char :=
  if _h : dropInnermost none cs = cs then cs else dropGenerics (dropInnermost none cs)
termination_by cs.length
decreasing_by exact (dropInnermost_eq_or_lt none cs).resolve_left _h

/-- The pieces of a text between double colons; `piece` is the one being read, backwards. -/
def splitColons (piece : List Char) : List Char → List (List Char)
  | [] => [piece.reverse]
  | ':' :: ':' :: cs => piece.reverse :: splitColons [] cs
  | c :: cs => splitColons (c :: piece) cs

def isOwnModule (segment : String) : Bool :=
  segment == "crate" || segment == "self" || segment == "super"

/-- The segments without the marks of the crate's own modules in front; one segment stays. -/
def dropOwnModules : List String → List String
  | s :: t :: rest => if isOwnModule s then dropOwnModules (t :: rest) else s :: t :: rest
  | segments => segments

def segments (path : String) : List String :=
  let pieces := (splitColons [] (dropGenerics path.toList)).map Text.trim
  dropOwnModules ((pieces.filter fun p => !p.isEmpty).map String.ofList)

def implName (type : String) : String :=
  String.ofList ((splitColons [] (dropGenerics type.toList)).getLast?.getD [])

end RustScript.Source
