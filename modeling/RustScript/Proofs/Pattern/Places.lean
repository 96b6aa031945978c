/-
  Places inside the JavaScript value that stands for a value.

  Where a place holds a value (`Shows`), the places of the parts hold the parts, for the patterns of
  a list up to the rest marks (`Along`). All layouts of elements come down to `spots`.
-/
import RustScript.Proofs.Pattern.Meaning
import RustScript.Proofs.Scope.Targets

namespace RustScript

open Js (eval Access Env Val)

/-- The place evaluates to what stands for the value. -/
def Shows (env : Env) (v : Value) (a : Access) : Prop := eval env a.term = some v.encode

/-! ## Reading places -/

section Reading

variable {env : Env} {a : Access}

theorem eval_intTerm (i : Int) : eval env (Js.intTerm i) = some (.num i) := by cases i <;> rfl

variable {x : Val} {es : List Val} {i : Nat} {props : List (String × Val)}

theorem eval_slot_of_array (h : eval env a.term = some (.array es)) (hx : es[i]? = some x) :
    eval env (Access.slot a i).term = some x := by
  simp [Access.term, eval, h, eval_intTerm, Val.index?, hx]

theorem eval_fromEnd_of_array {d : Nat} (h : eval env a.term = some (.array es))
    (hd : d ≤ es.length) (hx : es[es.length - d]? = some x) :
    eval env (Access.fromEnd a d).term = some x := by
  have hindex : eval env (.binary "-" (.member a.term "length") (.number d)) =
      some (.num (es.length - d : Nat)) := by
    rw [Int.ofNat_sub hd]
    simp [eval, h, Val.member?, Val.operate?]
  rw [Access.term, eval, h, Option.bind_some, hindex, Option.bind_some]
  simp [Val.index?, hx]

theorem eval_slot_of_object (h : eval env a.term = some (.object props))
    (hx : props.lookup (toString i) = some x) : eval env (Access.slot a i).term = some x := by
  have hx : props.lookup (toString (i : Int)) = some x := hx
  rw [Access.term, eval, h, Option.bind_some, eval_intTerm, Option.bind_some, Val.index?, hx,
    Option.getD_some]

theorem eval_prop_of_object {name : String} (h : eval env a.term = some (.object props))
    (hx : props.lookup name = some x) : eval env (Access.prop a name).term = some x := by
  simp [Access.term, eval, h, Val.member?, hx]

end Reading

/-! ## Parts of values -/

namespace Value

theorem encodeAll_eq_map (vs : List Value) : encodeAll vs = vs.map encode := by
  induction vs with
  | nil => rfl
  | cons v vs ih => rw [encodeAll, ih, List.map_cons]

theorem lookup_encodeFields (name : String) (fs : List (String × Value)) :
    (encodeFields fs).lookup name = (fs.lookup name).map encode := by
  induction fs with
  | nil => rfl
  | cons f fs ih =>
    obtain ⟨key, v⟩ := f
    rw [encodeFields, List.lookup_cons, List.lookup_cons, ih]
    cases name == key <;> rfl

theorem lookup_encodeNumbered (stem : String) {vs : List Value} {k : Nat} {v : Value}
    (h : vs[k]? = some v) (i : Nat) :
    (encodeNumbered stem i vs).lookup (stem ++ toString (i + k)) = some v.encode := by
  induction vs generalizing i k with
  | nil => simp at h
  | cons w vs ih =>
    rw [encodeNumbered, List.lookup_cons]
    cases k with
    | zero =>
      obtain rfl : w = v := by simpa using h
      rw [Nat.add_zero, beq_self_eq_true]
    | succ k =>
      have hne : (stem ++ toString (i + (k + 1)) == stem ++ toString i) = false :=
        beq_false_of_ne (Js.numbered_ne stem (by omega))
      have htail : vs[k]? = some v := by simpa using h
      rw [hne, show i + (k + 1) = i + 1 + k by omega]
      exact ih htail (i + 1)

end Value

section Parts

variable {env : Env} {a : Access} {vs : List Value}

variable {i : Nat} {v : Value} {fs : List (String × Value)}

theorem shows_element (h : eval env a.term = some (.array (vs.map Value.encode)))
    (hv : vs[i]? = some v) : Shows env v (.slot a i) :=
  eval_slot_of_array h (by rw [List.getElem?_map, hv, Option.map_some])

theorem shows_fromEnd {d : Nat} (h : eval env a.term = some (.array (vs.map Value.encode)))
    (hd : d ≤ vs.length) (hv : vs[vs.length - d]? = some v) : Shows env v (.fromEnd a d) := by
  refine eval_fromEnd_of_array h (by simpa using hd) ?_
  rw [List.length_map, List.getElem?_map, hv, Option.map_some]

theorem shows_slot (h : Shows env (.slots vs) a) (hv : vs[i]? = some v) :
    Shows env v (.slot a i) := by
  have hlook := Value.lookup_encodeNumbered "" hv 0
  rw [Nat.zero_add, String.empty_append] at hlook
  exact eval_slot_of_object h hlook

theorem shows_payload {variant : String} (h : Shows env (.payload variant vs) a)
    (hv : vs[i]? = some v) : Shows env v (.prop a ("value" ++ toString i)) := by
  have hlook := Value.lookup_encodeNumbered "value" hv 0
  have hne : ("value" ++ toString i == "type") = false := by
    refine beq_false_of_ne fun heq => ?_
    have := congrArg (fun s => s.toList.head?) heq
    simp at this
  rw [Nat.zero_add] at hlook
  refine eval_prop_of_object h ?_
  rw [List.lookup_cons, hne]
  exact hlook

theorem shows_record_field {name : String} (h : Shows env (.record fs) a)
    (hv : fs.lookup name = some v) : Shows env v (.prop a name) :=
  eval_prop_of_object h (by rw [Value.lookup_encodeFields, hv, Option.map_some])

theorem shows_variant_field {variant name : String} (h : Shows env (.fields variant fs) a)
    (hname : name ≠ "type") (hv : fs.lookup name = some v) : Shows env v (.prop a name) := by
  refine eval_prop_of_object h ?_
  rw [List.lookup_cons, beq_false_of_ne hname]
  exact (Value.lookup_encodeFields name fs).trans (by rw [hv, Option.map_some])

theorem shows_present (h : Shows env (.present v) a) : Shows env v a := by
  rwa [Shows, Value.encode] at h

theorem shows_success (h : Shows env (.success v) a) : Shows env v (.prop a "ok") :=
  eval_prop_of_object h rfl

theorem shows_failure (h : Shows env (.failure v) a) : Shows env v (.prop a "error") :=
  eval_prop_of_object h rfl

end Parts

/-! ## Patterns and what they are given -/

/-- Whatever patterns other than rest marks are given is related. -/
inductive Along {α β : Type} (R : α → β → Prop) : List Pat → List α → List β → Prop where
  | nil : Along R [] [] []
  | cons {p : Pat} {ps : List Pat} {x : α} {xs : List α} {y : β} {ys : List β} :
      (p.isRest = false → R x y) → Along R ps xs ys → Along R (p :: ps) (x :: xs) (y :: ys)

section Spread

variable {α β : Type} {filler : α} {p : Pat} {ps : List Pat} {xs ws : List α}

theorem spread_rest (h : p.isRest = true) :
    spread filler (p :: ps) xs =
      if ps.length ≤ xs.length then some (filler :: xs.drop (xs.length - ps.length)) else none := by
  rw [spread.eq_def]
  simp [h]

theorem spread_nil (h : p.isRest = false) : spread filler (p :: ps) [] = none := by
  rw [spread.eq_def]
  simp [h]

theorem spread_cons (h : p.isRest = false) (x : α) :
    spread filler (p :: ps) (x :: xs) = (spread filler ps xs).map (x :: ·) := by
  rw [spread.eq_def]
  simp [h]

/-- How many elements there have to be depends on the patterns other than rest marks, and on whether
    there is a rest mark. -/
theorem isSome_spread (filler : α) (hone : OneRest ps) :
    (spread filler ps xs).isSome =
      if (ps.filter fun p => !p.isRest).length == ps.length
      then decide (xs.length = (ps.filter fun p => !p.isRest).length)
      else decide ((ps.filter fun p => !p.isRest).length ≤ xs.length) := by
  induction ps generalizing xs with
  | nil => cases xs <;> simp [spread]
  | cons p ps ih =>
    cases hp : p.isRest with
    | true =>
      have hnone : ps.filter (fun p => !p.isRest) = ps := by
        have hrests : (ps.filter Pat.isRest).length = 0 := by simpa [OneRest, hp] using hone
        simpa [List.filter_eq_self] using hrests
      rw [spread_rest hp, List.filter_cons_of_neg (by simp [hp]), hnone]
      by_cases hle : ps.length ≤ xs.length <;> simp [hle]
    | false =>
      have hone : OneRest ps := by simpa [OneRest, hp] using hone
      rw [List.filter_cons_of_pos (by simp [hp])]
      cases xs with
      | nil => simp [spread_nil hp]
      | cons x xs =>
        rw [spread_cons hp, Option.isSome_map, ih hone]
        simp

variable {R : α → β → Prop}

theorem Along.of_forall₂ {ys : List β} (h : List.Forall₂ R xs ys) (hlen : ps.length = xs.length) :
    Along R ps xs ys := by
  induction h generalizing ps with
  | nil =>
    obtain rfl := List.eq_nil_of_length_eq_zero hlen
    exact .nil
  | cons hr _ ih =>
    cases ps with
    | nil => simp at hlen
    | cons p ps => exact .cons (fun _ => hr) (ih (by simpa using hlen))

theorem Along.of_spread {ys zs : List β} {other : β} (filler : α) (h : List.Forall₂ R xs ys)
    (hs : spread other ps ys = some zs) :
    ∃ ws, spread filler ps xs = some ws ∧ Along R ps ws zs := by
  induction ps generalizing xs ys zs with
  | nil =>
    cases h with
    | nil =>
      obtain rfl : [] = zs := by simpa [spread] using hs
      exact ⟨[], rfl, .nil⟩
    | cons _ _ => simp [spread] at hs
  | cons p ps ih =>
    cases hp : p.isRest with
    | true =>
      rw [spread_rest hp] at hs
      split at hs
      · next hle =>
        cases hs
        refine ⟨_, by rw [spread_rest hp, h.length_eq, if_pos hle], .cons (by simp [hp]) ?_⟩
        exact .of_forall₂ (List.forall₂_drop _ h) (by rw [List.length_drop, h.length_eq]; omega)
      · simp at hs
    | false =>
      cases h with
      | nil => simp [spread_nil hp] at hs
      | cons hr h =>
        rw [spread_cons hp] at hs
        obtain ⟨us, hus, rfl⟩ := Option.map_eq_some_iff.mp hs
        obtain ⟨ws, hws, halong⟩ := ih h hus
        exact ⟨_, by rw [spread_cons hp, hws, Option.map_some], .cons (fun _ => hr) halong⟩

theorem Along.constant {γ : Type} {y : β} {us : List γ}
    (h : Along (fun x (_ : γ) => R x y) ps ws us) : Along R ps ws (ps.map fun _ => y) := by
  induction h with
  | nil => exact .nil
  | cons hr _ ih => exact .cons hr ih

theorem Along.of_forall {y : β} (h : ∀ x ∈ xs, R x y) (hs : spread filler ps xs = some ws) :
    Along R ps ws (ps.map fun _ => y) := by
  have hself : List.Forall₂ (fun x (_ : α) => R x y) xs xs := List.forall₂_same.mpr h
  obtain ⟨zs, hzs, halong⟩ := Along.of_spread filler hself hs
  obtain rfl : zs = ws := Option.some.inj (hzs.symm.trans hs)
  exact halong.constant

end Spread

/-! ## Layouts -/

section Layouts

variable {env : Env} {filler : Value} {ps : List Pat} {vs ws : List Value}
  {front back : Nat → Access}

theorem Along.spots_back
    (hback : ∀ d v, d ≤ vs.length → vs[vs.length - d]? = some v → Shows env v (back d))
    (hle : ps.length ≤ vs.length) (i : Nat) :
    Along (Shows env) ps (vs.drop (vs.length - ps.length)) (spots front back i true ps) := by
  induction ps generalizing i with
  | nil =>
    rw [List.length_nil, Nat.sub_zero, List.drop_length]
    exact .nil
  | cons p ps ih =>
    rw [List.length_cons] at hle ⊢
    have hlt : vs.length - (ps.length + 1) < vs.length := by omega
    rw [List.drop_eq_getElem_cons hlt,
      show vs.length - (ps.length + 1) + 1 = vs.length - ps.length by omega]
    have hhead := hback (ps.length + 1) _ hle (List.getElem?_eq_getElem hlt)
    exact .cons (fun _ => hhead) (ih (by omega) (i + 1))

theorem Along.spots_front (hfront : ∀ i v, vs[i]? = some v → Shows env v (front i))
    (hback : ∀ d v, d ≤ vs.length → vs[vs.length - d]? = some v → Shows env v (back d))
    {i : Nat} (hi : i ≤ vs.length) (hs : spread filler ps (vs.drop i) = some ws) :
    Along (Shows env) ps ws (spots front back i false ps) := by
  induction ps generalizing i ws with
  | nil =>
    cases hdrop : vs.drop i with
    | nil =>
      obtain rfl : [] = ws := by simpa [hdrop, spread] using hs
      exact .nil
    | cons _ _ => simp [hdrop, spread] at hs
  | cons p ps ih =>
    rw [spots]
    cases hp : p.isRest with
    | true =>
      rw [spread_rest hp, List.length_drop] at hs
      split at hs
      · next hle =>
        rw [List.drop_drop,
          show i + (vs.length - i - ps.length) = vs.length - ps.length by omega] at hs
        cases hs
        exact .cons (by simp [hp]) (Along.spots_back hback (by omega) (i + 1))
      · simp at hs
    | false =>
      rcases Nat.lt_or_eq_of_le hi with hlt | rfl
      · rw [List.drop_eq_getElem_cons hlt, spread_cons hp] at hs
        obtain ⟨us, hus, rfl⟩ := Option.map_eq_some_iff.mp hs
        exact .cons (fun _ => hfront i _ (List.getElem?_eq_getElem hlt)) (ih hlt hus)
      · simp [spread_nil hp] at hs

/-- The elements lie where they are looked for. -/
theorem Along.spots (hfront : ∀ i v, vs[i]? = some v → Shows env v (front i))
    (hback : ∀ d v, d ≤ vs.length → vs[vs.length - d]? = some v → Shows env v (back d))
    (hs : spread filler ps vs = some ws) :
    Along (Shows env) ps ws (RustScript.spots front back 0 false ps) :=
  Along.spots_front hfront hback (Nat.zero_le _) (by rwa [List.drop_zero])

variable {a : Access}

theorem along_elementSpots (h : vs ≠ [] → eval env a.term = some (.array (vs.map Value.encode)))
    (hs : spread filler ps vs = some ws) : Along (Shows env) ps ws (elementSpots a ps) := by
  have hne {i : Nat} {v : Value} (hv : vs[i]? = some v) : vs ≠ [] := by
    rintro rfl
    simp at hv
  exact .spots (fun _ _ hv => shows_element (h (hne hv)) hv)
    (fun _ _ hd hv => shows_fromEnd (h (hne hv)) hd hv) hs

theorem cellSpots_behind (arity : Nat) (i : Nat) (after : Int)
    (hnone : ∀ p ∈ ps, p.isRest = false) :
    cellSpots a after ((arity : Int) - ps.length) ps =
      spots (fun i => .slot a i) (fun d => .slot a ((arity : Int) - d)) i true ps := by
  induction ps generalizing i with
  | nil => rfl
  | cons p ps ih =>
    have hp : p.isRest = false := hnone p List.mem_cons_self
    have hcell : (arity : Int) - ((p :: ps).length : Nat) + 1 = (arity : Int) - ps.length := by
      rw [List.length_cons]; omega
    rw [cellSpots, spots, hp, if_neg (by decide), hcell,
      ih (i + 1) fun q hq => hnone q (List.mem_cons_of_mem _ hq)]
    rfl

theorem cellSpots_eq_spots (arity : Nat) (hone : OneRest ps) (i : Nat) :
    cellSpots a (slotAfterRest arity ps) i ps =
      spots (fun i => .slot a i) (fun d => .slot a ((arity : Int) - d)) i false ps := by
  induction ps generalizing i with
  | nil => rfl
  | cons p ps ih =>
    rw [cellSpots, spots]
    cases hp : p.isRest with
    | true =>
      have hnone : ∀ q ∈ ps, q.isRest = false := by
        have hrests : (ps.filter Pat.isRest).length = 0 := by simpa [OneRest, hp] using hone
        simpa using hrests
      have hafter : slotAfterRest arity (p :: ps) = (arity : Int) - ps.length := by
        simp [slotAfterRest, hp]
      rw [if_pos rfl, hafter, cellSpots_behind arity (i + 1) _ hnone]
      rfl
    | false =>
      have hone : OneRest ps := by simpa [OneRest, hp] using hone
      have hafter : slotAfterRest arity (p :: ps) = slotAfterRest arity ps := by
        simp [slotAfterRest, hp]
      rw [hafter, if_neg (by decide)]
      exact congrArg _ (ih hone (i + 1))

theorem along_cellSpots (h : Shows env (.slots vs) a) (hone : OneRest ps)
    (hs : spread filler ps vs = some ws) :
    Along (Shows env) ps ws (cellSpots a (slotAfterRest vs.length ps) 0 ps) := by
  have heq := cellSpots_eq_spots (a := a) vs.length hone 0
  rw [show ((0 : Nat) : Int) = 0 from rfl] at heq
  rw [heq]
  refine .spots (fun _ _ hv => shows_slot h hv) (fun d v hd hv => ?_) hs
  rw [← Int.ofNat_sub hd]
  exact shows_slot h hv

theorem payloadSpots_eq_spots (back : Nat → Access) (hnone : ∀ p ∈ ps, p.isRest = false)
    (i : Nat) : payloadSpots a i ps =
      spots (fun i => .prop a ("value" ++ toString i)) back i false ps := by
  induction ps generalizing i with
  | nil => rfl
  | cons p ps ih =>
    have hp : p.isRest = false := hnone p List.mem_cons_self
    rw [payloadSpots, spots, hp, ih fun q hq => hnone q (List.mem_cons_of_mem _ hq)]
    rfl

theorem along_payloadSpots {variant : String} (h : Shows env (.payload variant vs) a)
    (hnone : ∀ p ∈ ps, p.isRest = false) (hs : spread filler ps vs = some ws) :
    Along (Shows env) ps ws (payloadSpots a 0 ps) := by
  -- nothing is counted from the end, so any places there will do
  rw [payloadSpots_eq_spots (fun d => .prop a ("value" ++ toString (vs.length - d))) hnone]
  exact .spots (fun _ _ hv => shows_payload h hv) (fun _ _ _ hv => shows_payload h hv) hs

theorem along_sameSpots {v : Value} (h : Shows env v a) (hs : spread filler ps [v] = some ws) :
    Along (Shows env) ps ws (sameSpots a ps) :=
  .of_forall (fun w hw => by rwa [List.mem_singleton.mp hw]) hs

/-! ## Readable places -/

def EachReadable (ps : List Pat) (places : List Access) : Prop :=
  List.Forall₂ (fun _ b => b.Readable) ps places

theorem readable_spots {most : Nat} (hfront : ∀ i ≤ most, (front i).Readable)
    (hback : ∀ d ≤ most, (back d).Readable) {i : Nat} (hi : i + ps.length ≤ most) (past : Bool) :
    EachReadable ps (spots front back i past ps) := by
  induction ps generalizing i past with
  | nil => exact .nil
  | cons p ps ih =>
    rw [List.length_cons] at hi
    refine .cons ?_ (ih (by omega) (past || p.isRest))
    cases past
    · exact hfront i (by omega)
    · exact hback _ (by omega)

theorem readable_elementSpots (h : a.Readable) (hps : ps.length ≤ Js.maxLength) :
    EachReadable ps (elementSpots a ps) := by
  have hmost : ps.length ≤ Js.exactLimit := Nat.le_trans hps (by decide)
  refine readable_spots (fun i hi => ?_) (fun d hd => ?_) (Nat.zero_add ps.length).le false
  · exact ⟨h, Nat.le_trans hi hmost⟩
  · exact ⟨h, Nat.le_trans hd hmost⟩

theorem readable_cellSpots (h : a.Readable) {after cell : Int}
    (hafter : after.natAbs + ps.length ≤ Js.exactLimit)
    (hcell : cell.natAbs + ps.length ≤ Js.exactLimit) :
    EachReadable ps (cellSpots a after cell ps) := by
  induction ps generalizing cell with
  | nil => exact .nil
  | cons p ps ih =>
    rw [List.length_cons] at hafter hcell
    refine .cons ⟨h, by omega⟩ (ih (by omega) ?_)
    split <;> omega

theorem readable_sameSpots (h : a.Readable) : EachReadable ps (sameSpots a ps) := by
  induction ps with
  | nil => exact .nil
  | cons p ps ih => exact .cons h ih

theorem readable_payloadSpots (h : a.Readable) (i : Nat) :
    EachReadable ps (payloadSpots a i ps) := by
  induction ps generalizing i with
  | nil => exact .nil
  | cons p ps ih =>
    exact .cons ⟨h, Name.isName_append (by decide) (List.all_eq_true.mpr (Js.toString_chars i).2)⟩
      (ih (i + 1))

end Layouts

end RustScript
