/-
  Induction along the compilation of patterns.

  What holds of every compiled pattern is proved case by case (`Pat.Cases`): there is one case for
  each way in which `Pat.compile` succeeds.
-/
import Mathlib.Data.List.Forall2
import RustScript.Emit.Pattern
import RustScript.Proofs.Outcome

namespace RustScript

variable {segments : List String}

theorem Path.getLast?_of_last {name : String} (h : Path.last segments = .ok name) :
    segments.getLast? = some name := by
  unfold Path.last at h
  split at h
  · next last hlast => rw [hlast, Except.ok.inj h]
  · cases h

theorem Path.isVariant_of_no_name
    (h : ∀ name, Path.isVariant segments = true → segments.getLast? = some name → False) :
    Path.isVariant segments = false := by
  cases hv : Path.isVariant segments with
  | false => rfl
  | true =>
    exfalso
    cases hlast : segments.getLast? with
    | some name => exact h name hv hlast
    | none =>
      rw [List.getLast?_eq_none_iff.mp hlast] at hv
      cases hv

theorem LitPat.checked_eq_ok {p q : LitPat} (h : p.checked = .ok q) : q = p := by
  unfold LitPat.checked at h
  split at h
  · exact (Except.ok.inj h).symm
  · simp at h

namespace Pat

variable {v : Vocabulary}

/-! ## Places -/

theorem length_spots (front back : Nat → Js.Access) (index : Nat) (pastRest : Bool)
    (elems : List Pat) : (spots front back index pastRest elems).length = elems.length := by
  induction elems generalizing index pastRest with
  | nil => rfl
  | cons p ps ih => rw [spots, List.length_cons, ih, List.length_cons]

theorem length_cellSpots (place : Js.Access) (afterRest cell : Int) (elems : List Pat) :
    (cellSpots place afterRest cell elems).length = elems.length := by
  induction elems generalizing cell with
  | nil => rfl
  | cons p ps ih => rw [cellSpots, List.length_cons, ih, List.length_cons]

theorem length_payloadSpots (place : Js.Access) (index : Nat) (elems : List Pat) :
    (payloadSpots place index elems).length = elems.length := by
  induction elems generalizing index with
  | nil => rfl
  | cons p ps ih => rw [payloadSpots, List.length_cons, ih, List.length_cons]

theorem length_layout (place : Js.Access) (path : List String) (name : String)
    (elems : List Pat) : (v.layout place path name elems).2.length = elems.length := by
  unfold Vocabulary.layout
  repeat' split
  all_goals simp [sameSpots, length_cellSpots, length_payloadSpots]

/-! ## Cases -/

/-- The cases of a property `R` of what a pattern compiles to at a place, together with a property
    `A` for several patterns on places of their own and `F` for fields. -/
structure Cases (v : Vocabulary) (R : Js.Access → Pat → Matcher → Prop)
    (A : List Js.Access → List Pat → Matcher → Prop)
    (F : Js.Access → List FieldPat → Matcher → Prop) : Prop where
  wild place : R place .wild {}
  rest place : R place .rest {}
  ref {place p m} (h : R place p m) : R place (.ref p) m
  named {place name isMutable byRef sub m} (h : R place sub m) :
    R place (.ident name isMutable byRef (some sub)) (m ++ ⟨[], [⟨name, place, isMutable⟩]⟩)
  absent place isMutable byRef :
    R place (.ident "None" isMutable byRef none) (.test (.isNull place))
  constant {name} place isMutable byRef (hname : name ≠ "None")
    (h : Name.isConstant name = true) : R place (.ident name isMutable byRef none)
      (.test (.equals place (.constant (v.scopes.resolve name))))
  fresh {name} place isMutable byRef (hname : name ≠ "None") (h : Name.isConstant name = false) :
    R place (.ident name isMutable byRef none) ⟨[], [⟨name, place, isMutable⟩]⟩
  lit place p : R place (.lit p) (.test (.equals place (.literal p)))
  range {place start stop inclusive low high}
    (hlow : Matcher.bound (.atLeast place) start = .ok low)
    (hhigh : Matcher.bound (if inclusive then .atMost place else .lessThan place) stop = .ok high) :
    R place (.range start stop inclusive) (low ++ high)
  tuple {place ps m} (h : A (elementSpots place ps) ps m) : R place (.tuple ps) m
  slice {place ps m} (h : A (elementSpots place ps) ps m) : R place (.slice ps)
    (.test (.length place ((ps.filter fun p => !p.isRest).length == ps.length)
      (ps.filter fun p => !p.isRest).length) ++ m)
  path {place segments name test} (hname : segments.getLast? = some name)
    (h : test = .isNull place ∨ test = .equals place (.constant (v.scopes.resolve name)) ∨
      test = .equals place (.word name)) : R place (.path segments) (.test test)
  tupleStruct {place segments name ps m} (hname : segments.getLast? = some name)
    (h : A (v.layout place segments name ps).2 ps m) :
    R place (.tupleStruct segments ps) (⟨(v.layout place segments name ps).1, []⟩ ++ m)
  variant {place segments name fields hasRest m} (hvariant : Path.isVariant segments = true)
    (hname : segments.getLast? = some name) (h : F place fields m) :
    R place (.struct segments fields hasRest)
      (.test (.equals (.prop place "type") (.word name)) ++ m)
  struct {place segments fields hasRest m} (hvariant : Path.isVariant segments = false)
    (h : F place fields m) : R place (.struct segments fields hasRest) m
  alt {place ps ms m} (hall : compileEach v place ps = .ok ms)
    (hms : List.Forall₂ (R place) ps ms) (h : Matcher.oneOf ms = .ok m) : R place (.alt ps) m
  nil : A [] [] {}
  cons {place places p ps m n} (hp : R place p m) (hps : A places ps n) :
    A (place :: places) (p :: ps) (m ++ n)
  noFields place : F place [] {}
  field {place name p fs m n} (hp : R (.prop place name) p m) (hfs : F place fs n) :
    F place (⟨name, p⟩ :: fs) (m ++ n)

namespace Cases

-- the cases are given once for the whole recursion
set_option linter.unusedSectionVars false

variable {R : Js.Access → Pat → Matcher → Prop} {A : List Js.Access → List Pat → Matcher → Prop}
  {F : Js.Access → List FieldPat → Matcher → Prop} (cases : Cases v R A F)

include cases

theorem ident {place : Js.Access} {name : String} {isMutable byRef : Bool} {m : Matcher}
    (h : (Pat.ident name isMutable byRef none).compile v place = .ok m) :
    R place (.ident name isMutable byRef none) m := by
  rw [compile] at h
  split at h
  · next hname =>
    obtain rfl := beq_iff_eq.mp hname
    cases h
    exact cases.absent place isMutable byRef
  · next hname =>
    have hname : name ≠ "None" := by simpa using hname
    split at h
    · next hconst =>
      cases h
      exact cases.constant place isMutable byRef hname hconst
    · next hconst =>
      cases h
      exact cases.fresh place isMutable byRef hname (Bool.eq_false_iff.mpr hconst)

mutual

theorem compile {place : Js.Access} {m : Matcher} : ∀ p : Pat,
    p.compile v place = .ok m → R place p m
  | .wild, h => by
    cases h
    exact cases.wild place
  | .rest, h => by
    cases h
    exact cases.rest place
  | .bare, h => by cases h
  | .ref p, h => cases.ref (compile p h)
  | .ident name isMutable byRef none, h => cases.ident h
  | .ident name isMutable byRef (some sub), h => by
    rw [Pat.compile] at h
    obtain ⟨m, hm, rfl⟩ := exists_of_return_eq_ok h
    exact cases.named (compile sub hm)
  | .lit p, h => by
    rw [Pat.compile] at h
    obtain ⟨q, hq, hreturn⟩ := exists_of_bind_eq_ok h
    obtain rfl := LitPat.checked_eq_ok hq
    cases hreturn
    exact cases.lit place q
  | .range start stop inclusive, h => by
    rw [Pat.compile] at h
    obtain ⟨low, high, hlow, hhigh, rfl⟩ := exists_of_both_eq_ok h
    exact cases.range hlow hhigh
  | .tuple ps, h => cases.tuple (compileAt ps (length_spots ..) h)
  | .slice ps, h => by
    rw [Pat.compile] at h
    obtain ⟨m, hm, rfl⟩ := exists_of_return_eq_ok h
    exact cases.slice (compileAt ps (length_spots ..) hm)
  | .path segments, h => by
    rw [Pat.compile] at h
    obtain ⟨name, hname, h⟩ := exists_of_bind_eq_ok h
    have hname := Path.getLast?_of_last hname
    repeat' split at h
    all_goals cases h
    · exact cases.path hname (.inl rfl)
    · exact cases.path hname (.inr (.inl rfl))
    · exact cases.path hname (.inr (.inr rfl))
  | .tupleStruct segments ps, h => by
    rw [Pat.compile] at h
    obtain ⟨name, m, hname, hm, rfl⟩ := exists_of_both_eq_ok h
    exact cases.tupleStruct (Path.getLast?_of_last hname) (compileAt ps (length_layout ..) hm)
  | .struct segments fields hasRest, h => by
    rw [Pat.compile] at h
    obtain ⟨m, hm, h⟩ := exists_of_bind_eq_ok h
    have hfields := compileFields fields hm
    split at h
    · next name hvariant hname =>
      cases h
      exact cases.variant hvariant hname hfields
    · next hno =>
      cases h
      exact cases.struct (Path.isVariant_of_no_name hno) hfields
  | .alt ps, h => by
    rw [Pat.compile] at h
    obtain ⟨ms, hms, h⟩ := exists_of_bind_eq_ok h
    exact cases.alt hms (compileEach ps hms) h

theorem compileAt {m : Matcher} : ∀ (ps : List Pat) {places : List Js.Access},
    places.length = ps.length → Pat.compileAt v ps places = .ok m → A places ps m
  | [], [], _, h => by
    cases h
    exact cases.nil
  | p :: ps, place :: places, hlength, h => by
    rw [Pat.compileAt] at h
    obtain ⟨m, n, hm, hn, rfl⟩ := exists_of_both_eq_ok h
    exact cases.cons (compile p hm) (compileAt ps (Nat.succ.inj hlength) hn)

theorem compileEach {place : Js.Access} {ms : List Matcher} : ∀ ps : List Pat,
    Pat.compileEach v place ps = .ok ms → List.Forall₂ (R place) ps ms
  | [], h => by
    cases h
    exact .nil
  | p :: ps, h => by
    rw [Pat.compileEach] at h
    obtain ⟨m, ms, hm, hms, rfl⟩ := exists_of_both_eq_ok h
    exact .cons (compile p hm) (compileEach ps hms)

theorem compileFields {place : Js.Access} {m : Matcher} : ∀ fs : List FieldPat,
    Pat.compileFields v place fs = .ok m → F place fs m
  | [], h => by
    cases h
    exact cases.noFields place
  | ⟨name, p⟩ :: fs, h => by
    rw [Pat.compileFields] at h
    obtain ⟨m, n, hm, hn, rfl⟩ := exists_of_both_eq_ok h
    exact cases.field (compile p hm) (compileFields fs hn)

end

end Cases

end Pat

end RustScript
