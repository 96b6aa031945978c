/-
  What tests come to, and matchers that agree with a meaning.

  A matcher agrees with what a pattern means for a value (`Agrees`) if its tests come to whether the
  pattern matches, and if its bindings then hold the bound parts. `Formed` says what is known of it
  before there is a value.
-/
import RustScript.Proofs.Pattern.Places

namespace RustScript

open Js (eval holds? holds?_eq_some holds?_row rowHolds? rowHolds?_append Access Env Test Val)

/-! ## Single tests -/

def Js.Val.isNullish : Val → Bool
  | null => true
  | undefined => true
  | _ => false

/-- All conditions of the test, in order, come to `b`. -/
def Decides (env : Env) (t : Test) (b : Bool) : Prop := rowHolds? env true t.terms = some b

section Tests

variable {env : Env} {a : Access} {x y : Val} {b : Bool}

theorem rowHolds?_singleton {t : Js.Term} (h : eval env t = some (.bool b)) :
    rowHolds? env true [t] = some b := by
  rw [rowHolds?, holds?_eq_some.mpr h]
  cases b <;> rfl

theorem decides_isNull (h : eval env a.term = some x) : Decides env (.isNull a) x.isNullish := by
  refine rowHolds?_singleton ?_
  cases x <;> simp [eval, h, Js.wordValue, Val.operate?, Val.same?, Val.isNullish]

theorem decides_notNull (h : eval env a.term = some x) : Decides env (.notNull a) !x.isNullish := by
  cases x <;> simp [Decides, Test.terms, rowHolds?, holds?, eval, h, Js.wordValue, Val.operate?,
    Val.same?, Val.isNullish]

theorem rowHolds?_relation {l r : Js.Term} (op : String) (hop : op ≠ "&&" ∧ op ≠ "||")
    (hl : eval env l = some x) (hr : eval env r = some y)
    (hb : x.operate? op y = some (.bool b)) : rowHolds? env true [.binary op l r] = some b := by
  refine rowHolds?_singleton ?_
  rw [eval, if_neg hop.1, if_neg hop.2, hl, hr]
  exact hb

theorem decides_equals {o : Js.Operand} (h : eval env a.term = some x)
    (ho : eval env o.term = some y) (hsame : x.same? y = some b) : Decides env (.equals a o) b :=
  rowHolds?_relation "===" (by decide) h ho (by rw [Val.operate?, hsame, Option.map_some])

theorem decides_length {es : List Val} (henv : env "Array" = none)
    (h : eval env a.term = some (.array es)) (exact : Bool) (count : Nat) :
    Decides env (.length a exact count)
      (if exact then decide (es.length = count) else decide (count ≤ es.length)) := by
  have harray : eval env (.call (.member (.word "Array") "isArray") a.term) =
      some (.bool true) := by
    rw [eval, henv, h]
    rfl
  have hlength : eval env (.member a.term "length") = some (.num es.length) := by
    rw [eval, h]
    rfl
  rw [Decides, Test.terms, rowHolds?, holds?_eq_some.mpr harray, Option.bind_some, if_pos rfl]
  cases exact with
  | true =>
    exact rowHolds?_relation "===" (by decide) hlength rfl
      (congrArg (some ∘ Val.bool) (decide_eq_decide.mpr Int.ofNat_inj))
  | false =>
    exact rowHolds?_relation ">=" (by decide) hlength rfl
      (congrArg (some ∘ Val.bool) (decide_eq_decide.mpr Int.ofNat_le))

theorem decides_hasKey {key : String} {props : List (String × Val)}
    (h : eval env a.term = some (.object props)) (hkey : Val.inherited.contains key = false) :
    Decides env (.hasKey key a) (props.lookup key).isSome := by
  refine rowHolds?_singleton ?_
  simp only [eval, h, Val.operate?]
  rw [hkey]
  simp

end Tests

/-! ## Matchers and meanings -/

/-- The binding gives a bound part to its name. -/
def Holds (env : Env) (b : Bound) (part : Part) : Prop :=
  b.name = part.name ∧ b.isMutable = part.isMutable ∧ Shows env part.value b.place

/-- The tests of the matcher come to whether there is a match, and its bindings hold what is
    bound. -/
structure Agrees (env : Env) (m : Matcher) (r : Option (List Part)) : Prop where
  decides : rowHolds? env true (Test.allTerms m.tests) = some r.isSome
  binds : ∀ parts, r = some parts → List.Forall₂ (Holds env) m.bindings parts

theorem Test.allTerms_append (ts us : List Test) :
    Test.allTerms (ts ++ us) = Test.allTerms ts ++ Test.allTerms us := by
  induction ts with
  | nil => rfl
  | cons t ts ih => rw [List.cons_append, Test.allTerms, ih, Test.allTerms, List.append_assoc]

namespace Agrees

variable {env : Env} {m n : Matcher} {r q : Option (List Part)} {b : Bool}

theorem nil : Agrees env {} (some []) := ⟨rfl, fun _ h => Option.some.inj h ▸ .nil⟩

theorem test {t : Test} (h : Decides env t b) :
    Agrees env (.test t) (if b then some [] else none) := by
  refine ⟨?_, fun parts hparts => ?_⟩
  · have hterms : Test.allTerms (Matcher.test t).tests = t.terms := List.append_nil _
    rw [hterms, show rowHolds? env true t.terms = some b from h]
    cases b <;> rfl
  · cases b with
    | true => exact Option.some.inj hparts ▸ .nil
    | false => simp at hparts

theorem bind {b : Bound} {part : Part} (h : Holds env b part) :
    Agrees env ⟨[], [b]⟩ (some [part]) :=
  ⟨rfl, fun _ hparts => Option.some.inj hparts ▸ .cons h .nil⟩

theorem append (hm : Agrees env m r) (hn : r.isSome → Agrees env n q) :
    Agrees env (m ++ n) (r.bind fun parts => q.map (parts ++ ·)) := by
  have htests : Test.allTerms (m ++ n).tests = Test.allTerms m.tests ++ Test.allTerms n.tests :=
    Test.allTerms_append m.tests n.tests
  cases r with
  | none =>
    refine ⟨?_, fun _ hparts => by simp at hparts⟩
    rw [htests, rowHolds?_append, hm.decides]
    rfl
  | some parts =>
    have hn := hn rfl
    refine ⟨?_, fun all hall => ?_⟩
    · rw [htests, rowHolds?_append, hm.decides, Option.bind_some, Option.isSome_some, if_pos rfl,
        hn.decides, Option.bind_some, Option.isSome_map]
    · obtain ⟨more, hmore, rfl⟩ := Option.map_eq_some_iff.mp hall
      exact List.rel_append (hm.binds parts rfl) (hn.binds more hmore)

theorem guard (hm : Agrees env m (if b then some [] else none)) (hn : b = true → Agrees env n q) :
    Agrees env (m ++ n) (if b then q else none) := by
  cases b with
  | true =>
    have hboth := hm.append fun _ => hn rfl
    rw [if_pos rfl, Option.bind_some] at hboth
    simpa using hboth
  | false => exact hm.append (q := none) fun h => absurd h Bool.false_ne_true

theorem guard_bind {α : Type} {x : Option α} {f : α → Option (List Part)}
    (hm : Agrees env m (if x.isSome then some [] else none))
    (hn : ∀ a, x = some a → Agrees env n (f a)) : Agrees env (m ++ n) (x.bind f) := by
  cases x with
  | some a => exact hm.guard fun _ => hn a rfl
  | none => exact hm.guard (q := none) fun h => absurd h Bool.false_ne_true

theorem matched (h : Agrees env m r) (hm : m.isIrrefutable = true) : r.isSome = true := by
  have htests : m.tests = [] := List.isEmpty_iff.mp hm
  have hrow := h.decides
  rw [htests] at hrow
  exact (Option.some.inj hrow).symm

end Agrees

/-- What is known of a matcher by the form of its pattern. -/
structure Formed (m : Matcher) (irrefutable : Bool) (binders : List String) : Prop where
  readable : Test.AllReadable m.tests
  places : ∀ b ∈ m.bindings, b.place.Readable
  untested : m.isIrrefutable = true → irrefutable = true
  unbound : binders = [] → m.bindings = []

theorem Test.allReadable_append {ts us : List Test} (ht : Test.AllReadable ts)
    (hu : Test.AllReadable us) : Test.AllReadable (ts ++ us) := by
  induction ts with
  | nil => exact hu
  | cons t ts ih => exact ⟨ht.1, ih ht.2⟩

namespace Formed

variable {m n : Matcher} {i j : Bool} {bs cs : List String}

theorem nil : Formed {} true bs :=
  ⟨trivial, fun _ h => absurd h List.not_mem_nil, fun _ => rfl, fun _ => rfl⟩

theorem test {t : Test} (h : t.Readable) : Formed (.test t) i bs :=
  ⟨⟨h, trivial⟩, fun _ h => absurd h List.not_mem_nil, fun h => absurd h Bool.false_ne_true,
    fun _ => rfl⟩

theorem bind {b : Bound} (h : b.place.Readable) : Formed ⟨[], [b]⟩ true [b.name] :=
  ⟨trivial, fun c hc => by rwa [List.mem_singleton.mp hc], fun _ => rfl, fun h => by simp at h⟩

theorem append (hm : Formed m i bs) (hn : Formed n j cs) :
    Formed (m ++ n) (i && j) (bs ++ cs) where
  readable := Test.allReadable_append hm.readable hn.readable
  places b hb := (List.mem_append.mp hb).elim (hm.places b) (hn.places b)
  untested h := by
    obtain ⟨hmt, hnt⟩ := List.append_eq_nil_iff.mp (List.isEmpty_iff.mp h)
    rw [hm.untested (List.isEmpty_iff.mpr hmt), hn.untested (List.isEmpty_iff.mpr hnt)]
    rfl
  unbound h := by
    obtain ⟨hbs, hcs⟩ := List.append_eq_nil_iff.mp h
    exact List.append_eq_nil_iff.mpr ⟨hm.unbound hbs, hn.unbound hcs⟩

end Formed

/-! ## Alternatives -/

section Alternatives

variable {env : Env} {m n : Matcher} {ms : List Matcher} {rs : List (Option (List Part))}
  {parts : List Part}

theorem rowHolds?_alternatives (h : List.Forall₂ (Agrees env) ms rs) :
    rowHolds? env false (Test.alternativeTerms (ms.map Matcher.tests)) =
      some (rs.any Option.isSome) := by
  induction h with
  | nil => rfl
  | @cons m r ms rs hm _ ih =>
    rw [List.map_cons, Test.alternativeTerms, rowHolds?, holds?_row, hm.decides, Option.bind_some,
      ih, List.any_cons]
    cases r.isSome <;> rfl

theorem Holds.of_shown {b c : Bound} {part : Part} (hb : b.place.Readable) (hc : c.place.Readable)
    (hshown : (b.name, b.place.text, b.isMutable) = (c.name, c.place.text, c.isMutable))
    (h : Holds env b part) : Holds env c part := by
  simp only [Prod.mk.injEq] at hshown
  obtain ⟨hname, htext, hmut⟩ := hshown
  refine ⟨hname ▸ h.1, hmut ▸ h.2.1, ?_⟩
  rw [Shows, ← Access.term_eq_of_text_eq hb hc htext]
  exact h.2.2

theorem holds_of_shown {bs cs : List Bound} (hb : ∀ b ∈ bs, b.place.Readable)
    (hc : ∀ c ∈ cs, c.place.Readable)
    (hshown : bs.map (fun b => (b.name, b.place.text, b.isMutable)) =
      cs.map fun c => (c.name, c.place.text, c.isMutable))
    (h : List.Forall₂ (Holds env) bs parts) : List.Forall₂ (Holds env) cs parts := by
  induction h generalizing cs with
  | nil =>
    cases cs with
    | nil => exact .nil
    | cons c cs => simp at hshown
  | cons hhead _ ih =>
    cases cs with
    | nil => simp at hshown
    | cons c cs =>
      obtain ⟨hfirst, hrest⟩ := List.cons.inj hshown
      refine .cons (hhead.of_shown (hb _ List.mem_cons_self) (hc _ List.mem_cons_self) hfirst) ?_
      exact ih (fun b h => hb b (List.mem_cons_of_mem _ h))
        (fun c h => hc c (List.mem_cons_of_mem _ h)) hrest

theorem exists_of_findSome? (h : List.Forall₂ (Agrees env) ms rs)
    (hfirst : rs.findSome? id = some parts) : ∃ m ∈ ms, Agrees env m (some parts) := by
  induction h with
  | nil => simp at hfirst
  | @cons m r ms rs hm _ ih =>
    cases r with
    | some found =>
      obtain rfl : found = parts := by simpa using hfirst
      exact ⟨m, List.mem_cons_self, hm⟩
    | none =>
      obtain ⟨n, hn, hagrees⟩ := ih (by simpa using hfirst)
      exact ⟨n, List.mem_cons_of_mem _ hn, hagrees⟩

theorem any_isSome_of_isIrrefutable (h : List.Forall₂ (Agrees env) ms rs)
    (hirr : ms.any Matcher.isIrrefutable = true) : rs.any Option.isSome = true := by
  induction h with
  | nil => simp at hirr
  | cons hm _ ih =>
    rw [List.any_cons, Bool.or_eq_true] at hirr ⊢
    exact hirr.imp hm.matched ih

theorem Matcher.oneOf_eq_ok (h : Matcher.oneOf ms = .ok m) :
    (ms.any isIrrefutable = true ∧ m = {}) ∨
    (ms.any isIrrefutable = false ∧ ∃ first ∈ ms, (∀ n ∈ ms, n.shown = first.shown) ∧
      m = ⟨[.oneOf (ms.map tests)], first.bindings⟩) := by
  unfold Matcher.oneOf at h
  split at h
  · next hany => exact .inl ⟨hany, (Except.ok.inj h).symm⟩
  · next hany =>
    refine .inr ⟨Bool.eq_false_iff.mpr hany, ?_⟩
    cases ms with
    | nil => simp at h
    | cons first others =>
      simp only at h
      split at h
      · next hall =>
        refine ⟨first, List.mem_cons_self, fun n hn => ?_, (Except.ok.inj h).symm⟩
        rcases List.mem_cons.mp hn with rfl | hn
        · rfl
        · simpa using List.all_eq_true.mp hall n hn
      · simp at h

/-- A choice agrees with the first of its alternatives that matches. -/
theorem Agrees.oneOf (h : Matcher.oneOf ms = .ok m)
    (hplaces : ∀ n ∈ ms, ∀ b ∈ n.bindings, b.place.Readable)
    (hunbound : ms.any Matcher.isIrrefutable = true → ∀ n ∈ ms, n.bindings = [])
    (hms : List.Forall₂ (Agrees env) ms rs) : Agrees env m (rs.findSome? id) := by
  have hany : (rs.findSome? id).isSome = rs.any Option.isSome := by
    rw [Bool.eq_iff_iff, List.findSome?_isSome_iff, List.any_eq_true]
    rfl
  obtain ⟨hirr, rfl⟩ | ⟨hirr, first, hfirst, hshown, rfl⟩ := Matcher.oneOf_eq_ok h
  · refine ⟨?_, fun parts hparts => ?_⟩
    · rw [hany, any_isSome_of_isIrrefutable hms hirr]
      rfl
    · obtain ⟨n, hn, hagrees⟩ := exists_of_findSome? hms hparts
      have hforall := hagrees.binds parts rfl
      rwa [hunbound hirr n hn] at hforall
  · refine ⟨?_, fun parts hparts => ?_⟩
    · have hrow := rowHolds?_alternatives hms
      rw [hany]
      change rowHolds? env true [Js.row false (Test.alternativeTerms (ms.map Matcher.tests))] = _
      rw [rowHolds?, holds?_row, hrow]
      cases rs.any Option.isSome <;> rfl
    · obtain ⟨n, hn, hagrees⟩ := exists_of_findSome? hms hparts
      exact holds_of_shown (hplaces n hn) (hplaces first hfirst) (hshown n hn)
        (hagrees.binds parts rfl)

end Alternatives

end RustScript
