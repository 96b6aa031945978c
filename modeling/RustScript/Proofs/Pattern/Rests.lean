/-
  Rest marks among the elements of a pattern.

  In a variant the payload is read by position, so the elements behind the mark are at the end only
  if the mark stands for one part. In a slice `name @ ..` is taken for one more element. Both come
  down to this: the places of a list with a mark are those of the two halves around it.
-/
import RustScript.Proofs.Pattern.Variables
import RustScript.Declaration

namespace RustScript

open Js (Access Env Test Val eval rowHolds?)
open List (replicate range append_nil length_replicate)

/-! ## Matchers one after the other -/

namespace Matcher

theorem append_assoc (k m n : Matcher) : k ++ m ++ n = k ++ (m ++ n) :=
  congrArg₂ Matcher.mk (List.append_assoc ..) (List.append_assoc ..)

theorem append_nothing (m : Matcher) : m ++ {} = m :=
  congrArg₂ Matcher.mk (append_nil _) (append_nil _)

end Matcher

namespace Pat

variable {v : Vocabulary}

variable {ps : List Pat} {places : List Access} {m : Matcher} {a : Access} {qs : List Pat}
  {others : List Access}

theorem compileAt_cons_eq_ok_iff {p : Pat} :
    compileAt v (p :: ps) (a :: places) = .ok m ↔
      ∃ k n, p.compile v a = .ok k ∧ compileAt v ps places = .ok n ∧ m = k ++ n := by
  rw [compileAt]
  constructor
  · intro h
    obtain ⟨k, n, hk, hn, rfl⟩ := exists_of_both_eq_ok h
    exact ⟨k, n, hk, hn, rfl⟩
  · rintro ⟨k, n, hk, hn, rfl⟩
    rw [hk, hn]
    rfl

theorem compileAt_append_eq_ok_iff (hlen : places.length = ps.length) :
    compileAt v (ps ++ qs) (places ++ others) = .ok m ↔
      ∃ k n, compileAt v ps places = .ok k ∧ compileAt v qs others = .ok n ∧ m = k ++ n := by
  induction ps generalizing places m with
  | nil =>
    rw [List.eq_nil_of_length_eq_zero hlen]
    exact ⟨fun h => ⟨{}, m, rfl, h, rfl⟩, by rintro ⟨_, n, ⟨⟩, hn, rfl⟩; exact hn⟩
  | cons p ps ih =>
    obtain ⟨a, places, rfl⟩ := List.exists_cons_of_length_eq_add_one hlen
    rw [List.cons_append, List.cons_append, compileAt_cons_eq_ok_iff]
    constructor
    · rintro ⟨k, _, hk, hrest, rfl⟩
      obtain ⟨l, n, hl, hn, rfl⟩ := (ih (Nat.succ.inj hlen)).mp hrest
      exact ⟨k ++ l, n, compileAt_cons_eq_ok_iff.mpr ⟨k, l, hk, hl, rfl⟩, hn,
        (Matcher.append_assoc k l n).symm⟩
    · rintro ⟨_, n, hfirst, hn, rfl⟩
      obtain ⟨k, l, hk, hl, rfl⟩ := compileAt_cons_eq_ok_iff.mp hfirst
      exact ⟨k, l ++ n, hk, (ih (Nat.succ.inj hlen)).mpr ⟨l, n, hl, hn, rfl⟩,
        Matcher.append_assoc k l n⟩

theorem compileAt_around_rest {head : Matcher} (hlen : places.length = ps.length) :
    (∃ n, compileAt v (ps ++ rest :: qs) (places ++ a :: others) = .ok n ∧ m = head ++ n) ↔
      ∃ k n, compileAt v ps places = .ok k ∧ compileAt v qs others = .ok n ∧
        m = head ++ (k ++ n) := by
  have hrest : ∀ n, compileAt v (rest :: qs) (a :: others) = .ok n ↔
      compileAt v qs others = .ok n := by
    intro n
    rw [compileAt_cons_eq_ok_iff]
    exact ⟨by rintro ⟨_, _, ⟨⟩, hn, rfl⟩; exact hn, fun hn => ⟨{}, n, rfl, hn, rfl⟩⟩
  simp only [compileAt_append_eq_ok_iff hlen, hrest]
  constructor
  · rintro ⟨_, ⟨k, n, hk, hn, rfl⟩, rfl⟩
    exact ⟨k, n, hk, hn, rfl⟩
  · rintro ⟨k, n, hk, hn, rfl⟩
    exact ⟨_, ⟨k, n, hk, hn, rfl⟩, rfl⟩

theorem compileAt_blank (h : ∀ p ∈ ps, p = wild ∨ p = rest) (places : List Access) :
    compileAt v ps places = .ok {} := by
  induction ps generalizing places with
  | nil => rfl
  | cons p ps ih =>
    obtain ⟨hp, hps⟩ := List.forall_mem_cons.mp h
    cases places with
    | nil => rfl
    | cons a places =>
      have hblank : p.compile v a = .ok {} := by rcases hp with rfl | rfl <;> rfl
      exact compileAt_cons_eq_ok_iff.mpr ⟨{}, {}, hblank, ih hps places, rfl⟩

/-- A pattern that takes every value and binds it. -/
def plain (name : String) : Pat := ident name false false none

theorem compileAt_plain {count : Nat} (hlen : places.length = count) :
    compileAt v (replicate count (plain "x")) places =
      .ok ⟨[], places.map fun a => ⟨"x", a, false⟩⟩ := by
  subst hlen
  induction places with
  | nil => rfl
  | cons a places ih =>
    exact compileAt_cons_eq_ok_iff.mpr ⟨⟨[], [⟨"x", a, false⟩]⟩, _, by rfl, ih, rfl⟩

end Pat

/-! ## Variants -/

/-- The properties in which a variant with a payload keeps it, in order. -/
def Variant.slots (variant : Variant) : List String :=
  (range variant.fields.length).map fun i => "value" ++ toString i

theorem Variant.emit_tuple {variant : Variant} (h : variant.shape = .tuple) :
    variant.emit = .ok (factory variant.name variant.slots variant.slots) := by
  rw [Variant.emit, h]
  rfl

/-- Whether a tuple-struct pattern with this path reads a payload by position. -/
def KnownTypes.readsPayload (known : KnownTypes) (path : List String) (name : String) : Bool :=
  !(["Some", "Ok", "Err"].contains name) && (known.arity? path name).isNone

namespace Pat

variable {v : Vocabulary} {place : Access} {path : List String} {name : String}

variable {elems front back : List Pat} {m : Matcher} {a : Access} {variant : Variant}

theorem compile_tupleStruct_eq_ok_iff (hpath : path.getLast? = some name) :
    (tupleStruct path elems).compile v place = .ok m ↔
      ∃ n, compileAt v elems (v.layout place path name elems).2 = .ok n ∧
        m = ⟨(v.layout place path name elems).1, []⟩ ++ n := by
  have hname : Path.last path = .ok name := by rw [Path.last, hpath]
  rcases hlayout : v.layout place path name elems with ⟨tests, places⟩
  have hopen : (tupleStruct path elems).compile v place =
      (do return ⟨tests, []⟩ ++ (← compileAt v elems places)) := by
    simp only [compile, hname, bind, Except.bind, hlayout]
  rw [hopen]
  exact return_eq_ok_iff

theorem payloadSpots_eq_map (index : Nat) (elems : List Pat) :
    payloadSpots place index elems =
      (List.range' index elems.length).map fun i => .prop place ("value" ++ toString i) := by
  induction elems generalizing index with
  | nil => rfl
  | cons p ps ih => rw [payloadSpots, ih, List.length_cons, List.range'_succ, List.map_cons]

theorem payloadSpots_append (index : Nat) (elems others : List Pat) :
    payloadSpots place index (elems ++ others) =
      payloadSpots place index elems ++ payloadSpots place (index + elems.length) others := by
  rw [payloadSpots_eq_map, payloadSpots_eq_map, payloadSpots_eq_map, List.length_append,
    ← List.range'_append_1, List.map_append]

theorem layout_payload (h : v.readsPayload path name = true) (elems : List Pat) :
    v.layout place path name elems =
      ([.equals (.prop place "type") (.word name)], payloadSpots place 0 elems) := by
  obtain ⟨hwrapper, harity⟩ := Bool.and_eq_true_iff.mp h
  have hname : ¬(name == "Some") ∧ ¬(name == "Ok") ∧ ¬(name == "Err") := by simpa using hwrapper
  rw [Vocabulary.layout, if_neg hname.1, if_neg hname.2.1, if_neg hname.2.2,
    Option.isNone_iff_eq_none.mp harity]

theorem prop_ne_self (a : Access) (s : String) : Access.prop a s ≠ a := by
  intro h
  have hsize : 1 + sizeOf a + sizeOf s = sizeOf a := congrArg sizeOf h
  omega

theorem exists_slot_of_cellSpots {afterRest cell : Int}
    (h : a ∈ cellSpots place afterRest cell elems) : ∃ i, a = .slot place i := by
  induction elems generalizing cell with
  | nil => cases h
  | cons p ps ih =>
    cases h with
    | head => exact ⟨cell, rfl⟩
    | tail _ h => exact ih h

theorem readsPayload_of_getElem? {i k : Nat}
    (h : (v.layout place path name elems).2[i]? = some (.prop place ("value" ++ toString k))) :
    v.readsPayload path name = true ∧ i = k := by
  have hpayload : v.readsPayload path name = true := by
    have hmem := List.mem_of_getElem? h
    have hsame : ∀ a, Access.prop place ("value" ++ toString k) ∈ sameSpots a elems →
        Access.prop place ("value" ++ toString k) = a := fun a ha => by
      obtain ⟨_, _, rfl⟩ := List.mem_map.mp ha
      rfl
    unfold Vocabulary.layout at hmem
    split at hmem
    · exact absurd (hsame _ hmem) (prop_ne_self _ _)
    split at hmem
    · exact absurd (Access.prop.inj (hsame _ hmem)).2 (by simp [String.ext_iff])
    split at hmem
    · exact absurd (Access.prop.inj (hsame _ hmem)).2 (by simp [String.ext_iff])
    split at hmem
    · obtain ⟨_, hslot⟩ := exists_slot_of_cellSpots hmem
      cases hslot
    · rename_i hsome hok herr _ harity
      rw [KnownTypes.readsPayload, harity]
      simp_all
  refine ⟨hpayload, ?_⟩
  rw [layout_payload hpayload, payloadSpots_eq_map, List.getElem?_map] at h
  obtain ⟨j, hj, hplace⟩ := Option.map_eq_some_iff.mp h
  obtain ⟨hi, rfl⟩ := List.getElem?_eq_some_iff.mp hj
  rw [List.getElem_range'] at hplace
  by_contra hne
  exact Js.numbered_ne "value" (by omega : 0 + 1 * i ≠ k) (Access.prop.inj hplace).2

theorem compile_around_rest {tests : List Test} {places others : List Access}
    (hpath : path.getLast? = some name)
    (hlayout : v.layout place path name (front ++ rest :: back) = (tests, places ++ a :: others))
    (hlen : places.length = front.length) :
    (tupleStruct path (front ++ rest :: back)).compile v place = .ok m ↔
      ∃ k n, compileAt v front places = .ok k ∧ compileAt v back others = .ok n ∧
        m = ⟨tests, []⟩ ++ (k ++ n) := by
  rw [compile_tupleStruct_eq_ok_iff hpath, hlayout]
  exact compileAt_around_rest hlen

/-- In a payload the elements behind a rest mark go on by position, as if the mark stood for one
    part. -/
theorem compile_payload_around_rest (hpath : path.getLast? = some name)
    (hpayload : v.readsPayload path name = true) :
    (tupleStruct path (front ++ rest :: back)).compile v place = .ok m ↔
      ∃ k n, compileAt v front (payloadSpots place 0 front) = .ok k ∧
        compileAt v back (payloadSpots place (front.length + 1) back) = .ok n ∧
        m = ⟨[.equals (.prop place "type") (.word name)], []⟩ ++ (k ++ n) := by
  refine compile_around_rest (a := .prop place ("value" ++ toString front.length)) hpath ?_
    (length_payloadSpots ..)
  rw [layout_payload hpayload, payloadSpots_append, Nat.zero_add, payloadSpots]

/-- The elements behind the rest mark of a tuple-struct pattern are tested and bound like patterns
    of their own on the last slots of the variant. -/
def ReachesLastSlots (v : Vocabulary) (place : Access) (path : List String) (variant : Variant)
    (front back : List Pat) : Prop :=
  ∀ m, (tupleStruct path (front ++ rest :: back)).compile v place = .ok m →
    ∃ head tail, (tupleStruct path (front ++ [rest])).compile v place = .ok head ∧
      compileAt v back
        ((variant.slots.drop (variant.fields.length - back.length)).map (.prop place)) = .ok tail ∧
      m = head ++ tail

theorem map_drop_slots (variant : Variant) (h : back.length ≤ variant.fields.length) :
    (variant.slots.drop (variant.fields.length - back.length)).map (.prop place) =
      payloadSpots place (variant.fields.length - back.length) back := by
  rw [payloadSpots_eq_map, Variant.slots, ← List.map_drop, List.range_eq_range', List.drop_range',
    Nat.sub_sub_self h, List.map_map, Nat.zero_add, Nat.mul_one]
  rfl

theorem reachesLastSlots_of_one (hpath : path.getLast? = some variant.name)
    (hpayload : v.readsPayload path variant.name = true)
    (hone : front.length + 1 + back.length = variant.fields.length) :
    ReachesLastSlots v place path variant front back := by
  intro m hm
  obtain ⟨k, n, hk, hn, rfl⟩ := (compile_payload_around_rest hpath hpayload).mp hm
  refine ⟨_, n, (compile_payload_around_rest hpath hpayload).mpr ⟨k, {}, hk, rfl, rfl⟩, ?_, ?_⟩
  · rwa [map_drop_slots variant (by omega),
      (by omega : variant.fields.length - back.length = front.length + 1)]
  · rw [Matcher.append_nothing, Matcher.append_assoc]

/-- If variables behind the mark reach the last slots, the pattern reads a payload and the mark
    stands for one part of it. -/
theorem one_of_reachesLastSlots {before behind : Nat} (hpath : path.getLast? = some variant.name)
    (hfits : before + behind ≤ variant.fields.length) (hsome : behind ≠ 0)
    (h : ReachesLastSlots v place path variant (replicate before wild)
      (replicate behind (plain "x"))) :
    v.readsPayload path variant.name = true ∧ before + 1 + behind = variant.fields.length := by
  obtain ⟨behind, rfl⟩ := Nat.exists_eq_succ_of_ne_zero hsome
  let elems := replicate before wild ++ rest :: replicate (behind + 1) (plain "x")
  have hcount : elems.length = before + (behind + 2) := by simp [elems]
  obtain ⟨places, a, others, hsplit, hbefore, hbehind⟩ : ∃ places a others,
      (v.layout place path variant.name elems).2 = places ++ a :: others ∧
        places.length = before ∧ others.length = behind + 1 := by
    have hlen := (length_layout (v := v) place path variant.name elems).trans hcount
    refine ⟨_, _, _, (List.take_append_drop before _).symm.trans
      (congrArg _ (List.getElem_cons_drop (by omega)).symm), ?_, ?_⟩
    · rw [List.length_take]
      omega
    · rw [List.length_drop]
      omega
  -- the bindings of the variables tell where the elements behind the mark are read
  have hwilds : ∀ p ∈ replicate before wild, p = wild ∨ p = rest :=
    fun p hp => .inl (List.eq_of_mem_replicate hp)
  obtain ⟨head, tail, hhead, htail, heq⟩ := h _ ((compile_around_rest hpath (Prod.ext rfl hsplit)
    (by rw [hbefore, length_replicate])).mpr
      ⟨{}, _, compileAt_blank hwilds _, compileAt_plain hbehind, rfl⟩)
  have hnone : head.bindings = [] := by
    obtain ⟨n, hn, rfl⟩ := (compile_tupleStruct_eq_ok_iff hpath).mp hhead
    rw [compileAt_blank fun p hp => (List.mem_append.mp hp).elim (hwilds p)
      fun hrest => .inr (List.mem_singleton.mp hrest)] at hn
    cases hn
    rfl
  rw [map_drop_slots variant (by rw [length_replicate]; omega),
    compileAt_plain (by rw [length_payloadSpots, length_replicate])] at htail
  cases htail
  have hbindings : others.map _ = head.bindings ++ _ := congrArg Matcher.bindings heq
  rw [hnone, List.nil_append] at hbindings
  have hothers := List.map_injective_iff.mpr (fun a b hab => congrArg Bound.place hab) hbindings
  rw [length_replicate, List.replicate_succ, payloadSpots] at hothers
  obtain ⟨hpayload, hindex⟩ := readsPayload_of_getElem? (i := before + 1)
    (k := variant.fields.length - (behind + 1)) (by rw [hsplit, hothers, ← hbefore]; simp)
  exact ⟨hpayload, by omega⟩

end Pat

/-- The elements behind the rest mark of a variant pattern get the last slots that the variant's
    factory fills, whatever the elements are, exactly if there are none or the pattern reads a
    payload and the mark stands for one slot of it. -/
theorem rest_of_variant_reaches_last_slots_iff {v : Vocabulary} {place : Access}
    {path : List String} {variant : Variant} (hshape : variant.shape = .tuple)
    (hpath : path.getLast? = some variant.name) {before behind : Nat}
    (hfits : before + behind ≤ variant.fields.length) :
    variant.emit = .ok (Variant.factory variant.name variant.slots variant.slots) ∧
      ((∀ front back : List Pat, front.length = before → back.length = behind →
          (front ++ back).any Pat.isRest = false →
          Pat.ReachesLastSlots v place path variant front back) ↔
        behind = 0 ∨ v.readsPayload path variant.name = true ∧
          before + 1 + behind = variant.fields.length) := by
  refine ⟨Variant.emit_tuple hshape, ?_, ?_⟩
  · intro h
    by_cases hbehind : behind = 0
    · exact .inl hbehind
    · refine .inr (Pat.one_of_reachesLastSlots hpath hfits hbehind (h _ _ ?_ ?_ ?_))
      · exact length_replicate
      · exact length_replicate
      · simp [Pat.isRest, Pat.plain]
  · rintro (rfl | ⟨hpayload, hone⟩) front back rfl hback -
    · rw [List.eq_nil_of_length_eq_zero hback]
      exact fun m hm => ⟨m, {}, hm, rfl, (Matcher.append_nothing m).symm⟩
    · exact Pat.reachesLastSlots_of_one hpath hpayload (by omega)

def variantOf (count : Nat) : Variant := ⟨"V", .tuple, replicate count ""⟩

/-- In `E::V(a, .., b)` the variable `b` gets the last of three slots. -/
theorem rest_of_three_slots_reaches_last :
    Pat.ReachesLastSlots ⟨⟨none, []⟩, {}⟩ (.root "s") ["E", "V"] (variantOf 3) [.plain "a"]
      [.plain "b"] :=
  (rest_of_variant_reaches_last_slots_iff rfl rfl (by decide)).2.mpr (.inr ⟨rfl, rfl⟩) _ _ rfl rfl
    rfl

/-- Of four slots it gets the third. -/
theorem rest_of_four_slots_misses_last :
    (Pat.tupleStruct ["E", "V"] [.plain "a", .rest, .plain "b"]).compile ⟨⟨none, []⟩, {}⟩
        (.root "s") =
      .ok ⟨[.equals (.prop (.root "s") "type") (.word "V")],
        [⟨"a", .prop (.root "s") "value0", false⟩, ⟨"b", .prop (.root "s") "value2", false⟩]⟩ ∧
      (variantOf 4).slots.getLast? = some "value3" :=
  ⟨rfl, rfl⟩

/-! ## Slices -/

/-- A rest of a slice: `..`, or `name @ ..` with the name that it is captured under and whether it
    is declared `mut`. -/
def Pat.sliceRest? : Pat → Option (Option (String × Bool))
  | .rest => some none
  | .ident name isMutable _ (some .rest) => some (some (name, isMutable))
  | _ => none

theorem Pat.isRest_of_sliceRest? {p : Pat} (h : p.sliceRest? = none) : p.isRest = false := by
  cases p with
  | rest => cases h
  | _ => rfl

theorem Pat.eq_of_sliceRest? {q : Pat} {captured : Option (String × Bool)}
    (h : q.sliceRest? = some captured) :
    q = .rest ∧ captured = none ∨ ∃ name isMutable byRef,
      q = .ident name isMutable byRef (some .rest) ∧ captured = some (name, isMutable) := by
  unfold Pat.sliceRest? at h
  split at h
  · cases h
    exact .inl ⟨rfl, rfl⟩
  · cases h
    exact .inr ⟨_, _, _, rfl, rfl⟩
  · cases h

/-- The first elements. -/
def frontSpots (place : Access) (count : Nat) : List Access :=
  (range count).map fun (i : Nat) => .slot place i

/-- The last elements. -/
def backSpots (place : Access) (count : Nat) : List Access :=
  (range count).map fun i => .fromEnd place (count - i)

/-- The place holds an array and its parts are where a slice pattern looks for them: the first
    elements, the last elements, and in the names of the rest what is between. -/
structure TakesApart (env : Env) (place : Access) (es : List Val) (before behind : Nat)
    (rest : List Bound) : Prop where
  front : ∀ i < before, eval env (Access.slot place i).term = es[i]?
  back : ∀ i < behind,
    eval env (Access.fromEnd place (behind - i)).term = es[es.length - (behind - i)]?
  rest : ∀ b ∈ rest, eval env b.place.term =
    some (.array ((es.drop before).take (es.length - (before + behind))))

/-- The matcher is one of a slice pattern with `front` and `back` around a rest. It takes an array
    if it is long enough for `front` and `back` and its first and last elements are taken by them,
    and it binds what they bind and the rest. -/
def SplitsSlice (v : Vocabulary) (place : Access) (front back : List Pat)
    (captured : Option (String × Bool)) (m : Matcher) : Prop :=
  ∃ first last rest,
    Pat.compileAt v front (frontSpots place front.length) = .ok first ∧
    Pat.compileAt v back (backSpots place back.length) = .ok last ∧
    m.bindings = first.bindings ++ rest ++ last.bindings ∧
    rest.map (fun b => (b.name, b.isMutable)) = captured.toList ∧
    ∀ env es, env "Array" = none → eval env place.term = some (.array es) →
      (es.length < front.length + back.length →
        rowHolds? env true (Test.allTerms m.tests) = some false) ∧
      (front.length + back.length ≤ es.length → rowHolds? env true (Test.allTerms m.tests) =
            rowHolds? env true (Test.allTerms (first.tests ++ last.tests)) ∧
          TakesApart env place es front.length back.length rest)

/-- The place can hold any array. -/
def HoldsArrays (place : Access) : Prop :=
  ∀ es, ∃ env : Env, env "Array" = none ∧ eval env place.term = some (.array es)

theorem holdsArrays_root {subject : String} (hname : Name.isBindable subject)
    (hne : subject ≠ "Array") : HoldsArrays (.root subject) := by
  intro es
  refine ⟨fun w => if w = subject then some (.array es) else none, if_neg hne.symm, ?_⟩
  exact (wordValue_of_isBindable hname).trans (if_pos rfl)

section Slices

variable {v : Vocabulary} {place : Access}

theorem spots_append (front back : Nat → Access) (index : Nat) {ps : List Pat}
    (h : ps.any Pat.isRest = false) (qs : List Pat) :
    spots front back index false (ps ++ qs) =
      (List.range' index ps.length).map front ++
        spots front back (index + ps.length) false qs := by
  induction ps generalizing index with
  | nil => rfl
  | cons p ps ih =>
    obtain ⟨hp, hps⟩ := Bool.or_eq_false_iff.mp (List.any_cons.symm.trans h)
    rw [List.cons_append, spots, hp, Bool.or_false, ih _ hps, List.length_cons, List.range'_succ,
      List.map_cons, List.cons_append, Nat.add_right_comm, Nat.add_assoc]
    rfl

theorem spots_behind (front back : Nat → Access) (index : Nat) (ps : List Pat) :
    spots front back index true ps =
      (range ps.length).map fun i => back (ps.length - i) := by
  induction ps generalizing index with
  | nil => rfl
  | cons p ps ih =>
    rw [spots, Bool.true_or, ih, List.length_cons, List.range_succ_eq_map, List.map_cons,
      List.map_map, if_pos rfl]
    simp

variable {front elems back : List Pat} {m : Matcher}

theorem elementSpots_around_rest (hfront : front.any Pat.isRest = false) (back : List Pat) :
    elementSpots place (front ++ .rest :: back) =
      frontSpots place front.length ++
        .slot place front.length :: backSpots place back.length := by
  rw [elementSpots, spots_append _ _ _ hfront, spots, Pat.isRest, Bool.or_true, spots_behind,
    Nat.zero_add, ← List.range_eq_range', if_neg Bool.false_ne_true]
  rfl

theorem elementSpots_without_rest (h : elems.any Pat.isRest = false) :
    elementSpots place elems = frontSpots place elems.length := by
  have hspots := spots_append (fun i => .slot place i) (.fromEnd place) 0 h []
  rw [append_nil, spots, append_nil, ← List.range_eq_range'] at hspots
  exact hspots

theorem TakesApart.of_array {env : Env} {es : List Val} {before behind : Nat}
    (h : eval env place.term = some (.array es)) (hle : before + behind ≤ es.length) :
    TakesApart env place es before behind [] where
  front i hi := by
    rw [List.getElem?_eq_getElem (by omega)]
    exact eval_slot_of_array h (List.getElem?_eq_getElem _)
  back i hi := by
    rw [List.getElem?_eq_getElem (by omega)]
    exact eval_fromEnd_of_array h (by omega) (List.getElem?_eq_getElem _)
  rest b hb := absurd hb List.not_mem_nil

theorem compile_slice_eq_ok_iff :
    (Pat.slice elems).compile v place = .ok m ↔
      ∃ n, Pat.compileAt v elems (elementSpots place elems) = .ok n ∧
        m = .test (.length place ((elems.filter fun p => !p.isRest).length == elems.length)
          (elems.filter fun p => !p.isRest).length) ++ n := by
  rw [Pat.compile]
  exact return_eq_ok_iff

theorem filter_not_isRest (h : elems.any Pat.isRest = false) :
    elems.filter (fun p => !p.isRest) = elems := by
  rw [List.filter_eq_self]
  simpa using h

theorem frontSpots_add (place : Access) (count more : Nat) :
    ∃ others, frontSpots place (count + (more + 1)) =
      frontSpots place count ++ .slot place count :: others := by
  rw [frontSpots, frontSpots, List.range_add, List.range_succ_eq_map, List.map_append]
  exact ⟨_, rfl⟩

variable (hfront : front.any Pat.isRest = false) (hback : back.any Pat.isRest = false)
  {name : String} {isMutable byRef : Bool}

include hfront hback

theorem compile_slice_around_rest :
    (Pat.slice (front ++ .rest :: back)).compile v place = .ok m ↔
      ∃ k n, Pat.compileAt v front (frontSpots place front.length) = .ok k ∧
        Pat.compileAt v back (backSpots place back.length) = .ok n ∧
        m = .test (.length place false (front.length + back.length)) ++ (k ++ n) := by
  have hfixed : (front ++ .rest :: back).filter (fun p => !p.isRest) = front ++ back := by
    rw [List.filter_append, List.filter_cons, filter_not_isRest hfront, filter_not_isRest hback]
    rfl
  have hexact : (front.length + back.length == (front ++ Pat.rest :: back).length) = false := by
    simp
  have hlen : (frontSpots place front.length).length = front.length := by simp [frontSpots]
  rw [compile_slice_eq_ok_iff, hfixed, List.length_append, hexact, elementSpots_around_rest hfront]
  exact Pat.compileAt_around_rest hlen

theorem compile_slice_captured
    (h : (Pat.slice (front ++ .ident name isMutable byRef (some .rest) :: back)).compile v place =
      .ok m) :
    ∃ k others, Pat.compileAt v front (frontSpots place front.length) = .ok k ∧
      m.bindings = k.bindings ++ ⟨name, .slot place front.length, isMutable⟩ :: others := by
  have hnone : (front ++ .ident name isMutable byRef (some .rest) :: back).any Pat.isRest =
      false := by
    rw [List.any_append, List.any_cons, hfront, hback]
    rfl
  obtain ⟨others, hothers⟩ := frontSpots_add place front.length back.length
  obtain ⟨n, hn, rfl⟩ := compile_slice_eq_ok_iff.mp h
  rw [elementSpots_without_rest hnone, List.length_append, List.length_cons, hothers,
    Pat.compileAt_append_eq_ok_iff (by simp [frontSpots])] at hn
  obtain ⟨k, l, hk, hl, rfl⟩ := hn
  obtain ⟨one, last, hone, -, rfl⟩ := Pat.compileAt_cons_eq_ok_iff.mp hl
  cases hone
  exact ⟨k, last.bindings, hk, rfl⟩

theorem SplitsSlice.of_plain (h : (Pat.slice (front ++ .rest :: back)).compile v place = .ok m) :
    SplitsSlice v place front back none m := by
  obtain ⟨first, last, hfirst, hlast, rfl⟩ := (compile_slice_around_rest hfront hback).mp h
  have hbindings : first.bindings ++ last.bindings = first.bindings ++ [] ++ last.bindings := by
    rw [append_nil]
  refine ⟨first, last, [], hfirst, hlast, hbindings, rfl, fun env es henv hes => ?_⟩
  have hrow : rowHolds? env true (Test.allTerms
      (Test.length place false (front.length + back.length) :: (first.tests ++ last.tests))) =
        if front.length + back.length ≤ es.length then
          rowHolds? env true (Test.allTerms (first.tests ++ last.tests)) else some false := by
    rw [Test.allTerms, Js.rowHolds?_append,
      decides_length henv hes false (front.length + back.length), Option.bind_some]
    by_cases hle : front.length + back.length ≤ es.length <;> simp [hle]
  exact ⟨fun hlt => hrow.trans (if_neg (Nat.not_le.mpr hlt)),
    fun hle => ⟨hrow.trans (if_pos hle), .of_array hes hle⟩⟩

/-- A captured rest does not: its name gets a single element. -/
theorem not_splitsSlice_of_captured (hplace : HoldsArrays place)
    (h : (Pat.slice (front ++ .ident name isMutable byRef (some .rest) :: back)).compile v place =
      .ok m) : ¬SplitsSlice v place front back (some (name, isMutable)) m := by
  rintro ⟨first, last, rest, hfirst, -, hbindings, hnames, hall⟩
  obtain ⟨k, others, hk, hbound⟩ := compile_slice_captured hfront hback h
  cases hfirst.symm.trans hk
  obtain ⟨b, rfl⟩ : ∃ b, rest = [b] := List.length_eq_one_iff.mp (by
    simpa using congrArg List.length hnames)
  rw [hbound, List.append_assoc] at hbindings
  obtain ⟨rfl, -⟩ := List.cons.inj (List.append_cancel_left hbindings)
  -- in an array of numbers that is one longer than needed, the name gets a number
  let es := replicate (front.length + back.length + 1) (Val.num 0)
  obtain ⟨env, henv, hes⟩ := hplace es
  have hpart := ((hall env es henv hes).2 (by simp [es])).2.rest _ List.mem_cons_self
  rw [eval_slot_of_array hes (List.getElem?_replicate_of_lt (by omega))] at hpart
  cases hpart

end Slices

/-- A slice pattern takes every array apart around its rest exactly if the rest is not captured. -/
theorem slice_splits_around_rest_iff {v : Vocabulary} {place : Access} {front back : List Pat}
    {q : Pat} {captured : Option (String × Bool)} {m : Matcher} (hplace : HoldsArrays place)
    (hrest : q.sliceRest? = some captured) (hothers : ∀ p ∈ front ++ back, p.sliceRest? = none)
    (h : (Pat.slice (front ++ q :: back)).compile v place = .ok m) :
    SplitsSlice v place front back captured m ↔ captured = none := by
  have hplain : ∀ ps : List Pat, (∀ p ∈ ps, p ∈ front ++ back) → ps.any Pat.isRest = false :=
    fun ps hps => List.any_eq_false.mpr fun p hp =>
      ne_true_of_eq_false (Pat.isRest_of_sliceRest? (hothers p (hps p hp)))
  have hfront := hplain front fun p => List.mem_append_left back
  have hback := hplain back fun p => List.mem_append_right front
  obtain ⟨rfl, rfl⟩ | ⟨name, isMutable, byRef, rfl, rfl⟩ := Pat.eq_of_sliceRest? hrest
  · exact iff_of_true (.of_plain hfront hback h) rfl
  · exact iff_of_false (not_splitsSlice_of_captured hfront hback hplace h) nofun

/-- The slice `[a, .., b]` takes every array of two or more elements apart. -/
theorem slice_around_plain_rest_splits :
    SplitsSlice ⟨⟨none, []⟩, {}⟩ (.root "s") [.plain "a"] [.plain "b"] none
      ⟨[.length (.root "s") false 2],
        [⟨"a", .slot (.root "s") 0, false⟩, ⟨"b", .fromEnd (.root "s") 1, false⟩]⟩ :=
  (slice_splits_around_rest_iff (q := .rest) (holdsArrays_root (by decide) (by decide)) rfl
    (by decide) rfl).mpr rfl

/-- The slice `[a, rest @ ..]` takes arrays of two elements only, and `rest` is the second. -/
theorem captured_rest_is_one_element :
    (Pat.slice [.plain "a", .ident "rest" false false (some .rest)]).compile ⟨⟨none, []⟩, {}⟩
        (.root "s") =
      .ok ⟨[.length (.root "s") true 2],
        [⟨"a", .slot (.root "s") 0, false⟩, ⟨"rest", .slot (.root "s") 1, false⟩]⟩ :=
  rfl

end RustScript
