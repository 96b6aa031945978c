/-
  Compiled patterns do what patterns mean.

  For every value of a type the tests come to whether the pattern matches, without ever reading a
  property of `null` or `undefined`, and the bindings hold the bound parts (`Adequate`). The
  induction over patterns follows the recursion of `Pat.compile`.
-/
import RustScript.Proofs.Pattern.Compile
import RustScript.Proofs.Pattern.Tests

namespace RustScript

open Js (eval Access Env Test Val)

/-- The matcher does what the pattern means for every value of the type. -/
structure Adequate (decls : Declarations) (voc : Vocabulary) (p : Pat) (t : Ty) (place : Access)
    (m : Matcher) : Prop where
  formed : Formed m (p.isIrrefutable voc.toKnownTypes) p.binders
  agrees : ∀ (env : Env) (v : Value), env "Array" = none → v.HasType decls t →
    Shows env v place → Agrees env m (p.match? v)

/-- The matcher does what the patterns mean, each for values of its own type at its own place. -/
structure AdequateAt (decls : Declarations) (voc : Vocabulary) (ps : List Pat) (ts : List Ty)
    (places : List Access) (m : Matcher) : Prop where
  formed : Formed m (Pat.allIrrefutable voc.toKnownTypes ps) (Pat.allBinders ps)
  agrees : ∀ (env : Env) (vs : List Value), env "Array" = none →
    Along (Value.HasType decls) ps vs ts → Along (Shows env) ps vs places →
    Agrees env m (Pat.matchAt ps vs)

/-- The fields are there, have their types, and lie in the properties of their names. -/
def FieldsAt (decls : Declarations) (env : Env) (place : Access) (decl : List (String × Ty))
    (fs : List (String × Value)) : Prop :=
  ∀ name t, decl.lookup name = some t →
    ∃ v, fs.lookup name = some v ∧ v.HasType decls t ∧ Shows env v (.prop place name)

/-- The matcher does what the patterns of fields mean. -/
structure AdequateFields (decls : Declarations) (voc : Vocabulary) (ps : List FieldPat)
    (decl : List (String × Ty)) (place : Access) (m : Matcher) : Prop where
  formed : Formed m (Pat.fieldsIrrefutable voc.toKnownTypes ps) (Pat.fieldBinders ps)
  agrees : ∀ (env : Env) (fs : List (String × Value)), env "Array" = none →
    FieldsAt decls env place decl fs → Agrees env m (Pat.matchFields ps fs)

section Forms

variable {decls : Declarations} {voc : Vocabulary} {t : Ty} {place : Access} {m : Matcher}
  {isMutable byRef : Bool}

/-! ## Names and literals -/

theorem Adequate.ident_at {name : String} {sub : Pat} (hplace : place.Readable)
    (h : Adequate decls voc sub t place m) :
    Adequate decls voc (.ident name isMutable byRef (some sub)) t place
      (m ++ ⟨[], [⟨name, place, isMutable⟩]⟩) where
  formed := by
    have hbound := h.formed.append (Formed.bind (b := ⟨name, place, isMutable⟩) hplace)
    rwa [Bool.and_true] at hbound
  agrees env v henv hv hshow := by
    have hpart : Holds env ⟨name, place, isMutable⟩ ⟨name, isMutable, v⟩ := ⟨rfl, rfl, hshow⟩
    have hboth := (h.agrees env v henv hv hshow).append fun _ => .bind hpart
    rw [Pat.match?]
    cases hsub : sub.match? v <;> rw [hsub] at hboth <;> exact hboth

variable {v : Value} {env : Env} {test : LitPat → Test}

theorem isNullish_of_isNullable (hv : v.HasType decls t) (h : t.isNullable = false) :
    v.encode.isNullish = false := by
  cases hv with
  | tuple hvs =>
    cases hvs with
    | nil => simp [Ty.isNullable] at h
    | cons _ _ => rfl
  | absent => simp [Ty.isNullable] at h
  | present _ _ => simp [Ty.isNullable] at h
  | _ => rfl

theorem isNullish_option (hv : v.HasType decls (.option t)) : v.encode.isNullish = v.isAbsent := by
  cases hv with
  | absent => rfl
  | present hv hnull =>
    rw [Value.encode, isNullish_of_isNullable hv hnull]
    rfl

theorem agrees_absent (hv : v.HasType decls (.option t)) (hshow : Shows env v place) :
    Agrees env (.test (.isNull place)) (if v.isAbsent then some [] else none) := by
  rw [← isNullish_option hv]
  exact .test (decides_isNull hshow)

theorem Adequate.ident {name : String} (hplace : place.Readable)
    (hfits : (Pat.ident name isMutable byRef none).Fits decls voc.toKnownTypes t)
    (h : (Pat.ident name isMutable byRef none).compile voc place = .ok m) :
    Adequate decls voc (.ident name isMutable byRef none) t place m := by
  rw [Pat.Fits] at hfits
  rw [Pat.compile] at h
  by_cases hnone : name = "None"
  · subst hnone
    obtain ⟨u, rfl⟩ := hfits
    cases h
    refine ⟨.test hplace, fun env v _ hv hshow => ?_⟩
    exact agrees_absent hv hshow
  · rw [if_neg hnone] at hfits
    rw [if_neg (by simpa using hnone), hfits, if_neg (by decide)] at h
    cases h
    refine ⟨?_, fun env v _ hv hshow => ?_⟩
    · rw [Pat.isIrrefutable, Pat.binders, if_neg hnone, bne_iff_ne.mpr hnone]
      exact .bind hplace
    · rw [Pat.match?, if_neg hnone]
      exact .bind ⟨rfl, rfl, hshow⟩

theorem LitPat.Fits.readable {p : LitPat} (h : p.Fits t) : p.Readable := by
  cases t with
  | int =>
    obtain ⟨n, hn, hle⟩ := h
    rw [LitPat.Readable, hn]
    exact ⟨Int.natCast_nonneg n, Int.ofNat_le.mpr hle⟩
  | bool =>
    obtain ⟨b, rfl⟩ := h
    exact rfl
  | str =>
    obtain ⟨s, rfl⟩ := h
    exact rfl
  | _ => exact absurd h id

theorem LitPat.Fits.eval_int {p : LitPat} (h : p.Fits .int) (env : Env) :
    ∃ k, p.int? = some k ∧ eval env p.term = some (.num k) := by
  obtain ⟨n, hn, -⟩ := h
  obtain ⟨value, negative⟩ := p
  obtain rfl : value = .int n := hn
  cases negative <;> exact ⟨_, rfl, rfl⟩

theorem LitPat.Fits.eval {p : LitPat} (h : p.Fits t) (hv : v.HasType decls t) (env : Env) :
    ∃ y, Js.eval env p.term = some y ∧ v.encode.same? y = some (p.isMatch v) := by
  cases hv with
  | int n _ =>
    obtain ⟨k, hk, heval⟩ := h.eval_int env
    refine ⟨_, heval, ?_⟩
    obtain ⟨i, hi, -⟩ := h
    simp [LitPat.isMatch, hi, hk, Value.encode, Val.same?, eq_comm]
  | bool b =>
    obtain ⟨c, rfl⟩ := h
    cases b <;> cases c <;> exact ⟨_, rfl, rfl⟩
  | str s =>
    obtain ⟨u, rfl⟩ := h
    refine ⟨_, rfl, ?_⟩
    simp [LitPat.isMatch, Value.encode, Val.same?, eq_comm]
  | _ => exact absurd h id

theorem Adequate.lit {p : LitPat} (hplace : place.Readable) (hfits : p.Fits t)
    (h : (Pat.lit p).compile voc place = .ok m) : Adequate decls voc (.lit p) t place m := by
  obtain ⟨q, hq, hm⟩ := exists_of_bind_eq_ok h
  obtain rfl := LitPat.checked_eq_ok hq
  cases hm
  refine ⟨.test ⟨hplace, hfits.readable⟩, fun env v _ hv hshow => ?_⟩
  obtain ⟨y, hy, hsame⟩ := hfits.eval hv env
  exact .test (decides_equals hshow hy hsame)

/-! ## Ranges -/

theorem Formed.bound {bound : Option LitPat} {bs : List String}
    (h : Matcher.bound test bound = .ok m) (htest : ∀ p ∈ bound, (test p).Readable) :
    Formed m bound.isNone bs := by
  cases bound with
  | none =>
    cases h
    exact .nil
  | some p =>
    obtain ⟨q, hq, hm⟩ := exists_of_bind_eq_ok h
    obtain rfl := LitPat.checked_eq_ok hq
    cases hm
    exact .test (htest q rfl)

theorem Agrees.bound {bound : Option LitPat} (holds : Int → Bool)
    (h : Matcher.bound test bound = .ok m) (hfits : ∀ p ∈ bound, p.Fits .int)
    (htest : ∀ p k, eval env p.term = some (.num k) → Decides env (test p) (holds k)) :
    Agrees env m (if bound.all fun p => p.int?.any holds then some [] else none) := by
  cases bound with
  | none =>
    cases h
    exact .nil
  | some p =>
    obtain ⟨q, hq, hm⟩ := exists_of_bind_eq_ok h
    obtain rfl := LitPat.checked_eq_ok hq
    cases hm
    obtain ⟨k, hk, heval⟩ := (hfits q rfl).eval_int env
    rw [Option.all_some, hk, Option.any_some]
    exact .test (htest q k heval)

theorem Adequate.range {start stop : Option LitPat} {inclusive : Bool} (hplace : place.Readable)
    (hfits : (Pat.range start stop inclusive).Fits decls voc.toKnownTypes t)
    (h : (Pat.range start stop inclusive).compile voc place = .ok m) :
    Adequate decls voc (.range start stop inclusive) t place m := by
  obtain ⟨rfl, hstart, hstop⟩ := hfits
  obtain ⟨low, high, hlow, hhigh, rfl⟩ := exists_of_both_eq_ok h
  refine ⟨?_, fun env v _ hv hshow => ?_⟩
  · have hlow : Formed low start.isNone [] :=
      .bound hlow fun p hp => ⟨hplace, (hstart p hp).readable⟩
    have hhigh : Formed high stop.isNone [] :=
      .bound hhigh fun p hp => by cases inclusive <;> exact ⟨hplace, (hstop p hp).readable⟩
    have hboth := hlow.append hhigh
    cases start <;> cases stop <;> exact hboth
  · cases hv with
    | int n _ =>
      have hlow := Agrees.bound (fun k => decide (k ≤ n)) hlow hstart fun p k hk =>
        rowHolds?_relation ">=" (by decide) hshow hk rfl
      have hhigh := Agrees.bound (fun k => if inclusive then decide (n ≤ k) else decide (n < k))
        hhigh hstop fun p k hk => by
          cases inclusive with
          | true => exact rowHolds?_relation "<=" (by decide) hshow hk rfl
          | false => exact rowHolds?_relation "<" (by decide) hshow hk rfl
      have hboth := hlow.guard fun _ => hhigh
      have hand (b c : Bool) : (if b && c then some ([] : List Part) else none) =
          if b then if c then some [] else none else none := by
        cases b <;> rfl
      rw [Pat.match?, inRange, hand]
      exact hboth

/-! ## Tuples and slices -/

variable {ps : List Pat} {ts us : List Ty} {vs : List Value}

theorem AdequateAt.agrees_spread {places : List Access} (h : AdequateAt decls voc ps us places m)
    (henv : env "Array" = none) (hts : spread (.tuple []) ps ts = some us)
    (hvs : List.Forall₂ (Value.HasType decls) vs ts)
    (hshow : ∀ ws, spread (.tuple []) ps vs = some ws → Along (Shows env) ps ws places) :
    Agrees env m ((spread (.tuple []) ps vs).bind (Pat.matchAt ps)) := by
  obtain ⟨ws, hws, htypes⟩ := Along.of_spread (.tuple []) hvs hts
  rw [hws, Option.bind_some]
  exact h.agrees env ws henv htypes (hshow ws hws)

theorem Adequate.tuple (hts : spread (.tuple []) ps ts = some us)
    (h : AdequateAt decls voc ps us (elementSpots place ps) m) :
    Adequate decls voc (.tuple ps) (.tuple ts) place m := by
  refine ⟨h.formed, fun env v henv hv hshow => ?_⟩
  cases hv with
  | @tuple vs _ hvs =>
    refine h.agrees_spread henv hts hvs fun ws hws => along_elementSpots (fun hne => ?_) hws
    obtain ⟨w, vs, rfl⟩ := List.exists_cons_of_ne_nil hne
    rw [← Value.encodeAll_eq_map]
    exact hshow

theorem Adequate.slice {u : Ty} (hplace : place.Readable) (helems : ElemPats ps)
    (h : AdequateAt decls voc ps (ps.map fun _ => u) (elementSpots place ps) m) :
    Adequate decls voc (.slice ps) (.slice u) place
      (.test (.length place ((ps.filter fun p => !p.isRest).length == ps.length)
        (ps.filter fun p => !p.isRest).length) ++ m) := by
  have hcount : (ps.filter fun p => !p.isRest).length ≤ Js.exactLimit :=
    Nat.le_trans (List.length_filter_le _ _) (Nat.le_trans helems.2 (by decide))
  have htest (exact : Bool) : Formed (.test (.length place exact _)) false [] :=
    .test ⟨hplace, hcount⟩
  refine ⟨(htest _).append h.formed, fun env v henv hv hshow => ?_⟩
  cases hv with
  | @slice vs _ hvs =>
    have harray : eval env place.term = some (.array (vs.map Value.encode)) := by
      rw [← Value.encodeAll_eq_map]
      exact hshow
    have hlength := decides_length henv harray
      ((ps.filter fun p => !p.isRest).length == ps.length) (ps.filter fun p => !p.isRest).length
    rw [List.length_map, ← isSome_spread (Value.tuple []) helems.1] at hlength
    refine (Agrees.test hlength).guard_bind fun ws hws => ?_
    exact h.agrees env ws henv (.of_forall hvs hws) (along_elementSpots (fun _ => harray) hws)

/-! ## Enums -/

theorem mem_of_lookup {α : Type} {key : String} {x : α} {xs : List (String × α)}
    (h : xs.lookup key = some x) : (key, x) ∈ xs := by
  obtain ⟨before, behind, rfl, -⟩ := List.lookup_eq_some_iff.mp h
  exact List.mem_append_right _ List.mem_cons_self

section Variants

variable {enum name : String} {variants others : List (String × VariantShape)}
  {shape other : VariantShape}

theorem isName_of_variant (henum : decls.enums.lookup enum = some variants)
    (hname : variants.lookup name = some shape) :
    Js.isName name ∧ ∀ field ∈ shape.fieldNames, Js.isName field ∧ field ≠ "type" :=
  decls.variantNames _ (mem_of_lookup henum) _ (mem_of_lookup hname)

theorem shape_unique (henum : decls.enums.lookup enum = some variants)
    (hname : variants.lookup name = some shape) (henum' : decls.enums.lookup enum = some others)
    (hname' : others.lookup name = some other) : shape = other := by
  obtain rfl := Option.some.inj (henum.symm.trans henum')
  exact Option.some.inj (hname.symm.trans hname')

def Value.tag? : Value → Option String
  | payload variant _ => some variant
  | fields variant _ => some variant
  | _ => none

theorem decides_tag (hv : v.HasType decls (.enum enum)) (hshow : Shows env v place)
    (name : String) :
    Decides env (.equals (.prop place "type") (.word name)) (v.tag? == some name) := by
  have hsame (variant : String) :
      (Val.str variant).same? (.str name) = some (some variant == some name) := rfl
  cases hv with
  | unit _ _ =>
    have htype : eval env (Access.prop place "type").term = some .undefined := by
      rw [Access.term, eval, show eval env place.term = _ from hshow]
      rfl
    exact decides_equals htype rfl rfl
  | payload _ _ _ => exact decides_equals (eval_prop_of_object hshow rfl) rfl (hsame _)
  | fields _ _ _ _ => exact decides_equals (eval_prop_of_object hshow rfl) rfl (hsame _)

theorem variant_cases (henum : decls.enums.lookup enum = some variants)
    (hname : variants.lookup name = some shape) (hv : v.HasType decls (.enum enum)) :
    ((v.tag? == some name) = false ∧ v.elems? (some name) = none ∧ v.fields? (some name) = none) ∨
    (∃ ts vs, shape = .payload ts ∧ v = .payload name vs ∧
      List.Forall₂ (Value.HasType decls) vs ts) ∨
    ∃ decl fs, shape = .fields decl ∧ v = .fields name fs ∧
      fs.map Prod.fst = decl.map Prod.fst ∧
      List.Forall₂ (Value.HasType decls) (fs.map Prod.snd) (decl.map Prod.snd) := by
  cases hv with
  | unit _ _ => exact .inl ⟨rfl, rfl, rfl⟩
  | @payload _ variant _ vs ts henum' hname' hvs =>
    by_cases heq : name = variant
    · subst heq
      exact .inr (.inl ⟨ts, vs, shape_unique henum hname henum' hname', rfl, hvs⟩)
    · have htag : (some variant == some name) = false :=
        beq_false_of_ne fun h => heq (Option.some.inj h).symm
      exact .inl ⟨htag, if_neg fun h => heq (Option.some.inj h), rfl⟩
  | @fields _ variant _ fs decl henum' hname' hnames hvs =>
    by_cases heq : name = variant
    · subst heq
      exact .inr (.inr ⟨decl, fs, shape_unique henum hname henum' hname', rfl, hnames, hvs⟩)
    · have htag : (some variant == some name) = false :=
        beq_false_of_ne fun h => heq (Option.some.inj h).symm
      exact .inl ⟨htag, rfl, if_neg fun h => heq (Option.some.inj h)⟩

end Variants

theorem Adequate.path {segments : List String} (hplace : place.Readable)
    (hhead : PathHead decls segments t) (h : (Pat.path segments).compile voc place = .ok m) :
    Adequate decls voc (.path segments) t place m := by
  obtain ⟨name, hlast, h⟩ := exists_of_bind_eq_ok h
  cases hhead with
  | absent hnone =>
    rw [Path.last, hnone] at hlast
    cases hlast
    cases h
    refine ⟨.test hplace, fun env v _ hv hshow => ?_⟩
    rw [Pat.match?, if_pos hnone]
    exact agrees_absent hv hshow
  | @unit variant enum variants hname hwrap hconst henum hunit =>
    rw [Path.last, hname] at hlast
    obtain rfl := Except.ok.inj hlast
    have hne : variant ≠ "None" := fun heq => hwrap (by rw [heq]; decide)
    rw [if_neg (by simpa using hne), hconst, if_neg (by decide)] at h
    cases h
    refine ⟨.test ⟨hplace, (isName_of_variant henum hunit).1⟩, fun env v _ hv hshow => ?_⟩
    rw [Pat.match?, hname, if_neg (by simpa using hne)]
    refine .test (decides_equals hshow rfl ?_)
    cases hv with
    | @unit _ other _ _ _ => exact congrArg some (Bool.beq_comm)
    | payload _ _ _ => rfl
    | fields _ _ _ _ => rfl

/-! ## Tuple structs and variants with a payload -/

variable {segments : List String} {name : String} {decl : List (String × Ty)}
  {fields : List FieldPat}

theorem layout_struct {arity : Nat} (hwrap : name ∉ wrappers)
    (harity : voc.arity? segments name = some arity) :
    voc.layout place segments name ps =
      ([], cellSpots place (slotAfterRest arity ps) 0 ps) := by
  simp only [wrappers, List.mem_cons, not_or] at hwrap
  simp [Vocabulary.layout, hwrap, harity]

theorem layout_variant (hwrap : name ∉ wrappers) (harity : voc.arity? segments name = none) :
    voc.layout place segments name ps =
      ([.equals (.prop place "type") (.word name)], payloadSpots place 0 ps) := by
  simp only [wrappers, List.mem_cons, not_or] at hwrap
  simp [Vocabulary.layout, hwrap, harity]

/-- The tests of a layout ask whether the value has elements for the head of the pattern, and the
    elements lie at the places of the layout. -/
structure LaidOut (decls : Declarations) (env : Env) (ps : List Pat) (ts : List Ty) (name : String)
    (v : Value) (layout : List Test × List Access) : Prop where
  tests : Agrees env ⟨layout.1, []⟩ (if (v.elems? (some name)).isSome then some [] else none)
  types : ∀ vs, v.elems? (some name) = some vs → List.Forall₂ (Value.HasType decls) vs ts
  places : ∀ vs ws, v.elems? (some name) = some vs → spread (.tuple []) ps vs = some ws →
    Along (Shows env) ps ws layout.2

theorem LaidOut.missing {test : Test} {places : List Access} (h : v.elems? (some name) = none)
    (htest : Decides env test false) :
    LaidOut decls env ps ts name v ([test], places) where
  tests := by
    rw [h]
    exact .test htest
  types vs hvs := by simp [h] at hvs
  places vs ws hvs := by simp [h] at hvs

theorem LaidOut.there {layout : List Test × List Access} (h : v.elems? (some name) = some vs)
    (htests : Agrees env ⟨layout.1, []⟩ (some []))
    (htypes : List.Forall₂ (Value.HasType decls) vs ts)
    (hplaces : ∀ ws, spread (.tuple []) ps vs = some ws → Along (Shows env) ps ws layout.2) :
    LaidOut decls env ps ts name v layout where
  tests := by
    rw [h]
    exact htests
  types us hus := by
    obtain rfl : vs = us := Option.some.inj (h.symm.trans hus)
    exact htypes
  places us ws hus hws := by
    obtain rfl : vs = us := Option.some.inj (h.symm.trans hus)
    exact hplaces ws hws

theorem ElemsHead.laidOut (hname : segments.getLast? = some name)
    (hhead : ElemsHead decls voc.toKnownTypes segments ps t ts) (hone : OneRest ps)
    (hv : v.HasType decls t) (hshow : Shows env v place) :
    LaidOut decls env ps ts name v (voc.layout place segments name ps) := by
  cases hhead with
  | present hsome =>
    obtain rfl : name = "Some" := Option.some.inj (hname.symm.trans hsome)
    have hnull := decides_notNull hshow
    rw [isNullish_option hv] at hnull
    cases hv with
    | absent => exact .missing rfl hnull
    | present hw _ =>
      exact .there rfl (.test hnull) (.cons hw .nil) fun _ => along_sameSpots (shows_present hshow)
  | success hok =>
    obtain rfl : name = "Ok" := Option.some.inj (hname.symm.trans hok)
    cases hv with
    | success hw =>
      exact .there rfl (.test (decides_hasKey hshow (by decide))) (.cons hw .nil)
        fun _ => along_sameSpots (shows_success hshow)
    | failure hw => exact .missing rfl (decides_hasKey hshow (by decide))
  | failure herr =>
    obtain rfl : name = "Err" := Option.some.inj (hname.symm.trans herr)
    cases hv with
    | success hw => exact .missing rfl (decides_hasKey hshow (by decide))
    | failure hw =>
      exact .there rfl (.test (decides_hasKey hshow (by decide))) (.cons hw .nil)
        fun _ => along_sameSpots (shows_failure hshow)
  | @slots struct _ _ hlast hwrap harity hdecl =>
    obtain rfl : name = struct := Option.some.inj (hname.symm.trans hlast)
    cases hv with
    | slots hdecl' hvs =>
      obtain rfl := Option.some.inj (hdecl.symm.trans hdecl')
      rw [layout_struct hwrap harity, ← hvs.length_eq]
      exact .there rfl .nil hvs fun _ => along_cellSpots hshow hone
  | @variant variant _ _ _ hlast hwrap harity henum hvariant hnone =>
    obtain rfl : name = variant := Option.some.inj (hname.symm.trans hlast)
    rw [layout_variant hwrap harity]
    have htag := decides_tag hv hshow name
    obtain ⟨hmiss, helems, -⟩ | ⟨_, vs, hshape, rfl, hvs⟩ | ⟨_, _, hshape, -⟩ :=
      variant_cases henum hvariant hv
    · rw [hmiss] at htag
      exact .missing helems htag
    · cases hshape
      rw [Value.tag?, beq_self_eq_true] at htag
      exact .there (if_pos rfl) (.test htag) hvs fun _ => along_payloadSpots hshow hnone
    · cases hshape

theorem ElemsHead.formed (hplace : place.Readable) (hname : segments.getLast? = some name)
    (hps : ps.length ≤ Js.maxLength) (hts : ts.length ≤ Js.maxLength)
    (hhead : ElemsHead decls voc.toKnownTypes segments ps t ts) :
    Formed ⟨(voc.layout place segments name ps).1, []⟩ (voc.knows segments) [] ∧
      EachReadable ps (voc.layout place segments name ps).2 := by
  cases hhead with
  | present hsome =>
    obtain rfl : name = "Some" := Option.some.inj (hname.symm.trans hsome)
    exact ⟨.test hplace, readable_sameSpots hplace⟩
  | success hok =>
    obtain rfl : name = "Ok" := Option.some.inj (hname.symm.trans hok)
    exact ⟨.test ⟨by decide, hplace⟩, readable_sameSpots ⟨hplace, by decide⟩⟩
  | failure herr =>
    obtain rfl : name = "Err" := Option.some.inj (hname.symm.trans herr)
    exact ⟨.test ⟨by decide, hplace⟩, readable_sameSpots ⟨hplace, by decide⟩⟩
  | @slots struct _ _ hlast hwrap harity _ =>
    obtain rfl : name = struct := Option.some.inj (hname.symm.trans hlast)
    have hknows : voc.knows segments = true := by simp [KnownTypes.knows, hname, hwrap, harity]
    have hbehind : (ps.dropWhile fun p => !p.isRest).length ≤ ps.length :=
      (List.dropWhile_sublist _).length_le
    have hlimit : 2 * Js.maxLength + 1 ≤ Js.exactLimit := by decide
    rw [layout_struct hwrap harity, hknows]
    refine ⟨.nil, readable_cellSpots hplace ?_ ?_⟩
    · rw [slotAfterRest]
      omega
    · rw [Int.natAbs_zero]
      omega
  | @variant variant _ _ _ hlast hwrap harity henum hvariant _ =>
    obtain rfl : name = variant := Option.some.inj (hname.symm.trans hlast)
    rw [layout_variant hwrap harity]
    exact ⟨.test ⟨⟨hplace, by decide⟩, (isName_of_variant henum hvariant).1⟩,
      readable_payloadSpots hplace 0⟩

theorem Adequate.tupleStruct (hname : segments.getLast? = some name)
    (hhead : ElemsHead decls voc.toKnownTypes segments ps t ts) (hone : OneRest ps)
    (hformed : Formed ⟨(voc.layout place segments name ps).1, []⟩ (voc.knows segments) [])
    (hts : spread (.tuple []) ps ts = some us)
    (h : AdequateAt decls voc ps us (voc.layout place segments name ps).2 m) :
    Adequate decls voc (.tupleStruct segments ps) t place
      (⟨(voc.layout place segments name ps).1, []⟩ ++ m) := by
  refine ⟨hformed.append h.formed, fun env v henv hv hshow => ?_⟩
  have hlaid := hhead.laidOut hname hone hv hshow
  rw [Pat.match?, hname]
  exact hlaid.tests.guard_bind fun vs hvs =>
    h.agrees_spread henv hts (hlaid.types vs hvs) fun ws hws => hlaid.places vs ws hvs hws

/-! ## Structs and variants with fields -/

theorem lookup_of_types {fs : List (String × Value)} (hnames : fs.map Prod.fst = decl.map Prod.fst)
    (hvs : List.Forall₂ (Value.HasType decls) (fs.map Prod.snd) (decl.map Prod.snd))
    (h : decl.lookup name = some t) : ∃ v, fs.lookup name = some v ∧ v.HasType decls t := by
  induction decl generalizing fs with
  | nil => simp at h
  | cons d decl ih =>
    obtain ⟨key, u⟩ := d
    cases fs with
    | nil => simp at hnames
    | cons f fs =>
      obtain ⟨key', v⟩ := f
      obtain ⟨rfl, hrest⟩ := List.cons.inj hnames
      obtain ⟨hv, hmore⟩ := List.forall₂_cons.mp hvs
      rw [List.lookup_cons] at h ⊢
      cases hkey : name == key' with
      | true =>
        rw [hkey] at h
        cases h
        exact ⟨v, rfl, hv⟩
      | false =>
        rw [hkey] at h
        exact ih hrest hmore h

theorem Adequate.struct {rest : Bool} (hplace : place.Readable)
    (hhead : FieldsHead decls segments t decl) {n : Matcher}
    (hfields : AdequateFields decls voc fields decl place n)
    (hcompile : Pat.compileFields voc place fields = .ok n)
    (h : (Pat.struct segments fields rest).compile voc place = .ok m) :
    Adequate decls voc (.struct segments fields rest) t place m := by
  obtain ⟨n', hn', hm⟩ := exists_of_bind_eq_ok h
  obtain rfl : n = n' := Except.ok.inj (hcompile.symm.trans hn')
  cases hhead with
  | record hvariant hdecl =>
    rw [hvariant] at hm
    cases hm
    refine ⟨?_, fun env v henv hv hshow => ?_⟩
    · rw [Pat.isIrrefutable, hvariant]
      exact hfields.formed
    · cases hv with
      | record hdecl' hnames hvs =>
        obtain rfl := Option.some.inj (hdecl.symm.trans hdecl')
        refine hfields.agrees env _ henv fun name t ht => ?_
        obtain ⟨w, hw, hwt⟩ := lookup_of_types hnames hvs ht
        exact ⟨w, hw, hwt, shows_record_field hshow hw⟩
  | @variant name _ _ _ hvariant hlast henum hshape =>
    have hwords := isName_of_variant henum hshape
    rw [hvariant, hlast] at hm
    cases hm
    refine ⟨?_, fun env v henv hv hshow => ?_⟩
    · have htest : Formed (.test (.equals (.prop place "type") (.word name))) false [] :=
        .test ⟨⟨hplace, by decide⟩, hwords.1⟩
      rw [Pat.isIrrefutable, hvariant]
      exact htest.append hfields.formed
    · have htag := decides_tag hv hshow name
      rw [Pat.match?, hlast]
      obtain ⟨hmiss, -, hnone⟩ | ⟨_, _, hshape', -⟩ | ⟨_, fs, hshape', rfl, hnames, hvs⟩ :=
        variant_cases henum hshape hv
      · rw [hmiss] at htag
        rw [hnone]
        exact (Agrees.test htag).guard_bind fun _ h => by cases h
      · cases hshape'
      · cases hshape'
        rw [Value.tag?, beq_self_eq_true] at htag
        rw [Value.fields?, if_pos rfl]
        refine (Agrees.test htag).guard_bind fun fs' hfs => ?_
        cases hfs
        refine hfields.agrees env fs henv fun field t ht => ?_
        obtain ⟨w, hw, hwt⟩ := lookup_of_types hnames hvs ht
        have hfield : field ∈ VariantShape.fieldNames (.fields _) :=
          List.mem_map_of_mem (mem_of_lookup ht)
        exact ⟨w, hw, hwt, shows_variant_field hshow (hwords.2 field hfield).2 hw⟩

theorem FieldsHead.isName (h : FieldsHead decls segments t decl) : ∀ f ∈ decl, Js.isName f.1 := by
  intro f hf
  cases h with
  | record _ hdecl => exact decls.recordNames _ (mem_of_lookup hdecl) f hf
  | variant _ _ henum hshape =>
    exact ((isName_of_variant henum hshape).2 f.1 (List.mem_map_of_mem hf)).1

/-! ## Alternatives -/

variable {ms : List Matcher}

theorem matchFirst_eq_findSome? (ps : List Pat) (v : Value) :
    Pat.matchFirst ps v = (ps.map fun p => p.match? v).findSome? id := by
  induction ps with
  | nil => rfl
  | cons p ps ih =>
    rw [Pat.matchFirst, List.map_cons, List.findSome?_cons, ih]
    cases p.match? v <;> rfl

theorem readable_alternatives (h : ∀ n ∈ ms, n.isIrrefutable = false ∧ Test.AllReadable n.tests) :
    Test.AlternativesReadable (ms.map Matcher.tests) := by
  induction ms with
  | nil => trivial
  | cons n ms ih =>
    obtain ⟨⟨hirr, hread⟩, hrest⟩ := List.forall_mem_cons.mp h
    exact ⟨List.isEmpty_eq_false_iff.mp hirr, hread, ih hrest⟩

section

variable (h : List.Forall₂ (fun p n => Adequate decls voc p t place n) ps ms)

include h

theorem anyIrrefutable_of_matchers (hany : ms.any Matcher.isIrrefutable = true) :
    Pat.anyIrrefutable voc.toKnownTypes ps = true := by
  induction h with
  | nil => simp at hany
  | cons hp _ ih =>
    rw [List.any_cons, Bool.or_eq_true] at hany
    rw [Pat.anyIrrefutable, Bool.or_eq_true]
    exact hany.imp hp.formed.untested ih

theorem bindings_of_allBinders (hbind : Pat.allBinders ps = []) : ∀ n ∈ ms, n.bindings = [] := by
  induction h with
  | nil => simp
  | cons hp _ ih =>
    obtain ⟨hfirst, hrest⟩ := List.append_eq_nil_iff.mp hbind
    exact List.forall_mem_cons.mpr ⟨hp.formed.unbound hfirst, ih hrest⟩

theorem exists_pattern : ∀ n ∈ ms, ∃ p, Adequate decls voc p t place n := by
  induction h with
  | nil => simp
  | cons hp _ ih => exact List.forall_mem_cons.mpr ⟨⟨_, hp⟩, ih⟩

theorem agrees_each (henv : env "Array" = none) (hv : v.HasType decls t) (hshow : Shows env v place) :
    List.Forall₂ (Agrees env) ms (ps.map fun p => p.match? v) := by
  induction h with
  | nil => exact .nil
  | cons hp _ ih => exact .cons (hp.agrees env v henv hv hshow) ih

theorem Formed.oneOf (hm : Matcher.oneOf ms = .ok m) :
    Formed m (Pat.anyIrrefutable voc.toKnownTypes ps) (Pat.allBinders ps) := by
  obtain ⟨hirr, rfl⟩ | ⟨hirr, first, hfirst, hshown, rfl⟩ := Matcher.oneOf_eq_ok hm
  · rw [anyIrrefutable_of_matchers h hirr]
    exact .nil
  · have hread : ∀ n ∈ ms, n.isIrrefutable = false ∧ Test.AllReadable n.tests := by
      intro n hn
      obtain ⟨p, hp⟩ := exists_pattern h n hn
      exact ⟨by simpa using List.any_eq_false.mp hirr n hn, hp.formed.readable⟩
    obtain ⟨p, hp⟩ := exists_pattern h first hfirst
    have hne : ms.map Matcher.tests ≠ [] := List.ne_nil_of_mem (List.mem_map_of_mem hfirst)
    exact ⟨⟨⟨hne, readable_alternatives hread⟩, trivial⟩, hp.formed.places,
      fun htests => absurd htests Bool.false_ne_true,
      fun hbind => bindings_of_allBinders h hbind first hfirst⟩

theorem Adequate.alt
    (hbind : Pat.anyIrrefutable voc.toKnownTypes ps = true → Pat.allBinders ps = [])
    (hm : Matcher.oneOf ms = .ok m) : Adequate decls voc (.alt ps) t place m := by
  refine ⟨.oneOf h hm, fun env v henv hv hshow => ?_⟩
  rw [Pat.match?, matchFirst_eq_findSome?]
  refine .oneOf hm (fun n hn => ?_) (fun hirr => ?_) (agrees_each h henv hv hshow)
  · obtain ⟨p, hp⟩ := exists_pattern h n hn
    exact hp.formed.places
  · exact bindings_of_allBinders h (hbind (anyIrrefutable_of_matchers h hirr))

end

/-! ## Several patterns -/

variable {p : Pat} {n : Matcher} {b : Access} {places : List Access}

theorem Pat.eq_rest (h : p.isRest = true) : p = .rest := by
  cases p with
  | rest => rfl
  | _ => simp [Pat.isRest] at h

theorem AdequateAt.rest (h : AdequateAt decls voc ps ts places m) :
    AdequateAt decls voc (.rest :: ps) (t :: ts) (b :: places) ({} ++ m) := by
  have hnil : Formed {} true [] := .nil
  refine ⟨hnil.append h.formed, fun env vs henv htypes hshows => ?_⟩
  cases htypes with
  | cons _ htypes =>
    cases hshows with
    | cons _ hshows => exact Agrees.nil.append fun _ => h.agrees env _ henv htypes hshows

theorem AdequateAt.cons (hrest : p.isRest = false) (hp : Adequate decls voc p t b m)
    (h : AdequateAt decls voc ps ts places n) :
    AdequateAt decls voc (p :: ps) (t :: ts) (b :: places) (m ++ n) := by
  refine ⟨hp.formed.append h.formed, fun env vs henv htypes hshows => ?_⟩
  cases htypes with
  | cons hv htypes =>
    cases hshows with
    | cons hshow hshows =>
      exact (hp.agrees env _ henv (hv hrest) (hshow hrest)).append fun _ =>
        h.agrees env _ henv htypes hshows

theorem AdequateFields.cons (hname : decl.lookup name = some t)
    (hp : Adequate decls voc p t (.prop place name) m)
    (h : AdequateFields decls voc fields decl place n) :
    AdequateFields decls voc (⟨name, p⟩ :: fields) decl place (m ++ n) := by
  refine ⟨hp.formed.append h.formed, fun env fs henv hfs => ?_⟩
  obtain ⟨v, hlookup, hv, hshow⟩ := hfs name t hname
  rw [Pat.matchFields, hlookup, Option.bind_some]
  exact (hp.agrees env v henv hv hshow).append fun _ => h.agrees env fs henv hfs

end Forms

/-! ## The induction -/

section Induction

variable {decls : Declarations} {voc : Vocabulary}

mutual

/-- A compiled pattern does what the pattern means. -/
theorem Pat.adequate {t : Ty} {place : Access} {m : Matcher} : ∀ p : Pat, place.Readable →
    p.Fits decls voc.toKnownTypes t → p.compile voc place = .ok m → Adequate decls voc p t place m
  | .wild, _, _, h => by
    cases h
    exact ⟨.nil, fun _ _ _ _ _ => .nil⟩
  | .rest, _, hfits, _ => absurd hfits id
  | .bare, _, hfits, _ => absurd hfits id
  | .ref p, hplace, hfits, h => by
    have hp := p.adequate hplace hfits h
    exact ⟨hp.formed, hp.agrees⟩
  | .ident name isMutable byRef (some sub), hplace, hfits, h => by
    obtain ⟨m, hsub, rfl⟩ := exists_of_return_eq_ok h
    exact (sub.adequate hplace hfits hsub).ident_at hplace
  | .ident name isMutable byRef none, hplace, hfits, h => .ident hplace hfits h
  | .lit p, hplace, hfits, h => .lit hplace hfits h
  | .range start stop inclusive, hplace, hfits, h => .range hplace hfits h
  | .tuple ps, hplace, hfits, h => by
    obtain ⟨helems, ts, us, rfl, hts, hps⟩ := hfits
    exact .tuple hts (Pat.adequateAt ps (readable_elementSpots hplace helems.2) hps h)
  | .slice ps, hplace, hfits, h => by
    obtain ⟨helems, u, rfl, hps⟩ := hfits
    obtain ⟨m, hps', rfl⟩ := exists_of_return_eq_ok h
    exact .slice hplace helems
      (Pat.adequateAt ps (readable_elementSpots hplace helems.2) hps hps')
  | .path segments, hplace, hfits, h => .path hplace hfits h
  | .tupleStruct segments ps, hplace, hfits, h => by
    obtain ⟨helems, ts, us, hmost, hhead, hts, hps⟩ := hfits
    obtain ⟨name, n, hlast, hn, rfl⟩ := exists_of_both_eq_ok h
    have hname : segments.getLast? = some name := Path.getLast?_of_last hlast
    obtain ⟨hformed, hread⟩ := hhead.formed hplace hname helems.2 hmost
    exact .tupleStruct hname hhead helems.1 hformed hts (Pat.adequateAt ps hread hps hn)
  | .struct segments fields isOpen, hplace, hfits, h => by
    obtain ⟨decl, hhead, hfields⟩ := hfits
    have hcompile := h
    obtain ⟨n, hn, -⟩ := exists_of_bind_eq_ok hcompile
    exact .struct hplace hhead (Pat.adequateFields fields hplace hhead.isName hfields hn) hn h
  | .alt ps, hplace, hfits, h => by
    obtain ⟨ms, hms, hm⟩ := exists_of_bind_eq_ok h
    exact .alt (Pat.adequateEach ps hplace hfits.1 hms) hfits.2 hm

theorem Pat.adequateAt {m : Matcher} : ∀ (ps : List Pat) {ts : List Ty} {places : List Access},
    EachReadable ps places → Pat.FitsAt decls voc.toKnownTypes ps ts →
    Pat.compileAt voc ps places = .ok m → AdequateAt decls voc ps ts places m
  | [], [], _, .nil, _, h => by
    cases h
    exact ⟨.nil, fun _ _ _ _ _ => .nil⟩
  | p :: ps, t :: ts, _, .cons hplace hplaces, hfits, h => by
    obtain ⟨m, n, hm, hn, rfl⟩ := exists_of_both_eq_ok h
    have hps := Pat.adequateAt ps hplaces hfits.2 hn
    cases hp : p.isRest with
    | true =>
      obtain rfl := Pat.eq_rest hp
      cases hm
      exact hps.rest
    | false => exact .cons hp (p.adequate hplace (hfits.1.resolve_left (by simp [hp])) hm) hps

theorem Pat.adequateEach {t : Ty} {place : Access} {ms : List Matcher} : ∀ ps : List Pat,
    place.Readable → Pat.FitsAll decls voc.toKnownTypes ps t →
    Pat.compileEach voc place ps = .ok ms →
    List.Forall₂ (fun p n => Adequate decls voc p t place n) ps ms
  | [], _, _, h => by
    cases h
    exact .nil
  | p :: ps, hplace, hfits, h => by
    obtain ⟨m, ms, hm, hms, rfl⟩ := exists_of_both_eq_ok h
    exact .cons (p.adequate hplace hfits.1 hm) (Pat.adequateEach ps hplace hfits.2 hms)

theorem Pat.adequateFields : ∀ (fields : List FieldPat) {decl : List (String × Ty)} {place : Access}
    {m : Matcher}, place.Readable → (∀ f ∈ decl, Js.isName f.1) →
    Pat.FitsFields decls voc.toKnownTypes fields decl → Pat.compileFields voc place fields = .ok m →
    AdequateFields decls voc fields decl place m
  | [], _, _, _, _, _, _, h => by
    cases h
    exact ⟨.nil, fun _ _ _ _ => .nil⟩
  | ⟨name, p⟩ :: fields, decl, _, _, hplace, hnames, hfits, h => by
    obtain ⟨⟨t, hname, hp⟩, hfits⟩ := hfits
    obtain ⟨m, n, hm, hn, rfl⟩ := exists_of_both_eq_ok h
    have hread : Js.isName name := hnames _ (mem_of_lookup hname)
    exact .cons hname (p.adequate ⟨hplace, hread⟩ hp hm)
      (Pat.adequateFields fields hplace hnames hfits hn)

end

end Induction

/-! ## Adequacy -/

theorem wordValue_of_isBindable {env : Env} {w : String} (h : Name.isBindable w) :
    Js.wordValue env w = env w := by
  have hfree : w ∉ Name.reserved := by simpa using (Bool.and_eq_true_iff.mp h).2
  have hne (word : String) (hword : word ∈ Name.reserved) : w ≠ word := fun heq =>
    hfree (heq ▸ hword)
  rw [Js.wordValue, if_neg (hne "true" (by decide)), if_neg (hne "false" (by decide)),
    if_neg (hne "null" (by decide)), if_neg (hne "undefined" (by decide))]

section Adequacy

variable {decls : Declarations} {voc : Vocabulary} {p : Pat} {t : Ty} {v : Value}
  {subject : String} {m : Matcher} {env : Env}

theorem Adequate.yields (h : Adequate decls voc p t (.root subject) m)
    (hsubject : Name.isBindable subject) (hv : v.HasType decls t)
    (henv : env subject = some v.encode) (harray : env "Array" = none) :
    Js.Yields env (Test.condition m.tests) (.bool (p.match? v).isSome) := by
  have hshow : Shows env v (.root subject) := (wordValue_of_isBindable hsubject).trans henv
  refine (Test.written_condition h.formed.readable).yields ?_
  rw [Js.rounded_row (Test.rounded_allTerms _ h.formed.readable), ← Js.holds?_eq_some,
    Js.holds?_row]
  exact (h.agrees env v harray hv hshow).decides

/-- The condition of a compiled pattern is true exactly if the value matches, and then the places of
    the bindings hold the parts that the pattern binds. In particular nothing throws: no property of
    `null` or `undefined` is read. The integers of the value and of the pattern have to be in the
    range in which numbers are not rounded. -/
theorem compiled_pattern_decides_match (hsubject : Name.isBindable subject)
    (hfits : p.Fits decls voc.toKnownTypes t) (hcompile : p.compile voc (.root subject) = .ok m)
    (hv : v.HasType decls t) (henv : env subject = some v.encode) (harray : env "Array" = none) :
    Js.Yields env (Test.condition m.tests) (.bool (p.match? v).isSome) ∧
      ∀ parts, p.match? v = some parts →
        List.Forall₂ (fun b part => b.name = part.name ∧ b.isMutable = part.isMutable ∧
          Js.Yields env b.place.text part.value.encode) m.bindings parts := by
  have hplace : (Access.root subject).Readable := Name.isOperand_of_isBindable hsubject
  have hadequate := p.adequate hplace hfits hcompile
  refine ⟨hadequate.yields hsubject hv henv harray, fun parts hparts => ?_⟩
  have hshow : Shows env v (.root subject) := (wordValue_of_isBindable hsubject).trans henv
  have hbinds := (hadequate.agrees env v harray hv hshow).binds parts hparts
  refine ((List.forall₂_and_left _ _).mpr ⟨hadequate.formed.places, hbinds⟩).imp fun b part h => ?_
  obtain ⟨hread, hname, hmut, hshow⟩ := h
  exact ⟨hname, hmut, (Access.written hread).yields (by rwa [Access.rounded_term hread])⟩

end Adequacy

/-- `Some((1..=5, [first, .., mut last]))` -/
def boundedPair : Pat :=
  .tupleStruct ["Some"]
    [.tuple [.range (some ⟨.int 1, false⟩) (some ⟨.int 5, false⟩) true,
      .slice [.ident "first" false false none, .rest, .ident "last" true false none]]]

/-- The subject is `Some((3, [7, 8, 9]))`. -/
def boundedPairEnv : Env := fun w =>
  if w = "x" then some (.array [.num 3, .array [.num 7, .num 8, .num 9]]) else none

theorem boundedPair_decides_match :
    Js.Yields boundedPairEnv
        ("x !== null && x !== undefined && x[0] >= 1 && x[0] <= 5 && " ++
          "Array.isArray(x[1]) && x[1].length >= 2") (.bool true) ∧
      Js.Yields boundedPairEnv "x[1][0]" (.num 7) ∧
      Js.Yields boundedPairEnv "x[1][x[1].length - 1]" (.num 9) := by
  have hrange : (Pat.range (some ⟨.int 1, false⟩) (some ⟨.int 5, false⟩) true).Fits {}
      ⟨none, []⟩ .int :=
    ⟨rfl, by rintro _ ⟨⟩; exact ⟨1, rfl, by decide⟩, by rintro _ ⟨⟩; exact ⟨5, rfl, by decide⟩⟩
  have hslice : (Pat.slice [.ident "first" false false none, .rest,
      .ident "last" true false none]).Fits {} ⟨none, []⟩ (.slice .int) :=
    ⟨⟨Nat.le_refl 1, by decide⟩, _, rfl, .inr (by decide : Name.isConstant "first" = false), .inl rfl,
      .inr (by decide : Name.isConstant "last" = false), trivial⟩
  have hfits : boundedPair.Fits {} ⟨none, []⟩ (.option (.tuple [.int, .slice .int])) :=
    ⟨⟨Nat.zero_le 1, by decide⟩, [_], _, by decide, .present rfl, rfl,
      .inr ⟨⟨Nat.zero_le 1, by decide⟩, _, _, rfl, rfl, .inr hrange, .inr hslice, trivial⟩, trivial⟩
  have hints : ∀ v ∈ [Value.int 7, .int 8, .int 9], v.HasType {} .int := by
    intro v hv
    simp only [List.mem_cons, List.not_mem_nil, or_false] at hv
    rcases hv with rfl | rfl | rfl <;> exact .int _ (by decide)
  have hv : (Value.present (.tuple [.int 3, .slice [.int 7, .int 8, .int 9]])).HasType {}
      (.option (.tuple [.int, .slice .int])) :=
    .present (.tuple (.cons (.int 3 (by decide)) (.cons (.slice hints) .nil))) rfl
  obtain ⟨hcond, hbind⟩ := @compiled_pattern_decides_match _ ⟨⟨none, []⟩, {}⟩ boundedPair _ _ "x" _
    boundedPairEnv (by decide) hfits rfl hv rfl rfl
  refine ⟨hcond, ?_⟩
  cases hbind _ rfl with
  | cons hfirst hrest =>
    cases hrest with
    | cons hlast _ => exact ⟨hfirst.2.2, hlast.2.2⟩

/-- The first integer that 53 bits do not hold is read as the one before it, which does not match. -/
theorem rounded_literal_takes_another_value :
    let p : Pat := .lit ⟨.int 9007199254740993, false⟩
    let v : Value := .int 9007199254740992
    let env : Env := fun w => if w = "x" then some v.encode else none
    ∃ m, p.compile ⟨⟨none, []⟩, {}⟩ (.root "x") = .ok m ∧ (p.match? v).isSome = false ∧
      Test.condition m.tests = "x === 9007199254740993" ∧
      Js.Yields env "x === 9007199254740993" (.bool true) := by
  intro p v env
  have hplace : (Access.root "x").Readable := (by decide : Js.isOperand "x")
  have hwritten : Js.Written 2 ("x" ++ " === " ++ toString 9007199254740993) _ :=
    Test.written_relation hplace "===" (by decide) rfl (.number 9007199254740993)
  exact ⟨_, rfl, by decide, by decide, hwritten.yields rfl⟩

end RustScript
