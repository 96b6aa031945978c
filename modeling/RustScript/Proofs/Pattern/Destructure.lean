/-
  What destructuring binds.

  Destructuring declares the names of a pattern in order and reads each from the place that its
  position gives (`Emit.destructure_declares`). It differs from testing in the slots that it gives
  to the elements of a tuple struct.
-/
import RustScript.Proofs.Pattern.Arms
import RustScript.Proofs.Scope.Fresh

namespace RustScript

open Js (Access Binding)

/-! ## What a binding reads -/

namespace Js.Binding

mutual

/-- The names that a binding declares for the value at a place, each with the place that it reads. -/
def reads (a : Access) : Binding → List (String × Access)
  | .hole => []
  | .name target => [(target, a)]
  | .array elems => readsElements a 0 elems
  | .object fields => readsFields a fields
  | .slots fields => readsSlots a fields

def readsElements (a : Access) (index : Nat) : List Binding → List (String × Access)
  | [] => []
  | b :: bs => b.reads (.slot a index) ++ readsElements a (index + 1) bs

def readsFields (a : Access) : List (String × Binding) → List (String × Access)
  | [] => []
  | (key, b) :: fs => b.reads (.prop a key) ++ readsFields a fs

def readsSlots (a : Access) : List (Nat × Binding) → List (String × Access)
  | [] => []
  | (i, b) :: fs => b.reads (.slot a i) ++ readsSlots a fs

end

theorem reads_of_isEmpty {b : Binding} (h : b.text.isEmpty = true) (a : Access)
    (hnames : ∀ x ∈ b.reads a, x.1 ≠ "") : b.reads a = [] := by
  have hempty : b.text.toList = [] := by simpa using h
  cases b with
  | hole => rfl
  | name target =>
    exact absurd (by simpa [text] using hempty) (hnames (target, a) List.mem_cons_self)
  | array elems => simp [text] at hempty
  | object fields => simp [text] at hempty
  | slots fields => simp [text] at hempty

end Js.Binding

open Js.Binding (reads readsSlots readsFields readsElements)

/-! ## The variables of a pattern -/

/-- Slots in a row, one for each pattern. -/
def slotRun (a : Access) (slot : Int) : List Pat → List Access
  | [] => []
  | _ :: ps => .slot a slot :: slotRun a (slot + 1) ps

namespace Pat

section

variable (cells : List String → List Pat → Access → List Access)

mutual

/-- The variables of a pattern in order, with their places in the value at `a`; `cells` gives the
    places of a tuple struct's elements. -/
def boundAs (a : Access) : Pat → List (String × Access)
  | ident name _ _ _ => [(name, a)]
  | ref p => p.boundAs a
  | tuple elems => boundEach elems (slotRun a 0 elems)
  | tupleStruct segments elems => boundEach elems (cells segments elems a)
  | struct _ fields _ => boundFields a fields
  | _ => []

/-- The variables of the patterns, each at its place. -/
def boundEach : List Pat → List Access → List (String × Access)
  | p :: ps, a :: places => p.boundAs a ++ boundEach ps places
  | _, _ => []

def boundFields (a : Access) : List FieldPat → List (String × Access)
  | [] => []
  | ⟨name, p⟩ :: fs => p.boundAs (.prop a name) ++ boundFields a fs

end

end

/-- Elements have the slots that their positions give. -/
def byPosition (_ : List String) (elems : List Pat) (a : Access) : List Access := slotRun a 0 elems

/-- Slots of a struct with a known number of slots, in which a rest mark moves on. -/
def byArity (known : KnownTypes) (path : List String) (elems : List Pat) (a : Access) :
    List Access :=
  cellSpots a (slotAfterRest ((known.arity? path (path.getLastD "")).getD 0) elems) 0 elems

/-- Whether a pattern with the name binds a variable. -/
def isVariable (name : String) : Bool :=
  Name.isIdentifier name && name != "None" && !Name.isConstant name

mutual

/-- A pattern that always matches: built from variables, wildcards, references, tuples, structs and
    tuple structs that are known, with at most one rest mark in a row of elements. -/
def isPlain (known : KnownTypes) : Pat → Bool
  | wild => true
  | rest => true
  | ident name _ _ none => isVariable name
  | ref p => p.isPlain known
  | tuple elems => elems.countP isRest ≤ 1 && allPlain known elems
  | tupleStruct segments elems =>
    (known.arity? segments (segments.getLastD "")).isSome && elems.countP isRest ≤ 1 &&
      allPlain known elems
  | struct _ fields _ => fieldsPlain known fields
  | _ => false

def allPlain (known : KnownTypes) : List Pat → Bool
  | [] => true
  | p :: ps => p.isPlain known && allPlain known ps

def fieldsPlain (known : KnownTypes) : List FieldPat → Bool
  | [] => true
  | ⟨_, p⟩ :: fs => p.isPlain known && fieldsPlain known fs

end

end Pat

/-! ## Declaring the variables -/

/-- Declares names in order, each for its place. -/
def Scopes.assign (s : Scopes) : List (String × Access) → List (String × Access) × Scopes
  | [] => ([], s)
  | (name, a) :: xs =>
    let rest := (s.declare name).2.assign xs
    (((s.declare name).1, a) :: rest.1, rest.2)

namespace Scopes

theorem assign_append (s : Scopes) (xs ys : List (String × Access)) :
    s.assign (xs ++ ys) =
      ((s.assign xs).1 ++ ((s.assign xs).2.assign ys).1, ((s.assign xs).2.assign ys).2) := by
  induction xs generalizing s with
  | nil => rfl
  | cons x xs ih =>
    rw [List.cons_append, assign, assign, ih]
    rfl

/-- The names get what they would get without their places. -/
theorem assign_eq_seed (s : Scopes) (xs : List (String × Access)) :
    s.assign xs =
      ((s.seed (xs.map Prod.fst)).1.zip (xs.map Prod.snd), (s.seed (xs.map Prod.fst)).2) := by
  induction xs generalizing s with
  | nil => rfl
  | cons x xs ih =>
    rw [assign, ih]
    rfl

theorem length_seed (s : Scopes) (names : List String) : (s.seed names).1.length = names.length := by
  induction names generalizing s with
  | nil => rfl
  | cons name names ih => exact congrArg (· + 1) (ih (s.declare name).2)

theorem ne_empty_of_mem_assign {s : Scopes} {xs : List (String × Access)}
    (h : ∀ x ∈ xs, Pat.isVariable x.1 = true) : ∀ y ∈ (s.assign xs).1, y.1 ≠ "" := by
  induction xs generalizing s with
  | nil => simp [assign]
  | cons x xs ih =>
    obtain ⟨hx, hxs⟩ := List.forall_mem_cons.mp h
    refine List.forall_mem_cons.mpr ⟨fun hempty => ?_, ih hxs⟩
    simp only [Pat.isVariable, Bool.and_eq_true] at hx
    have hbindable : Name.isBindable (s.fresh x.1) := isBindable_fresh s hx.1.1
    have hfresh : s.fresh x.1 = "" := hempty
    rw [hfresh] at hbindable
    exact absurd hbindable (by decide)

end Scopes

namespace Pat

variable {cells : List String → List Pat → Access → List Access} {known : KnownTypes}
  {ps : List Pat}

mutual

theorem isVariable_of_mem_boundAs {a : Access} : ∀ p : Pat, p.isPlain known = true →
    ∀ x ∈ p.boundAs cells a, isVariable x.1 = true
  | ident name _ _ none, h => by
    rw [isPlain] at h
    simpa [boundAs] using h
  | ident _ _ _ (some _), h => by simp [isPlain] at h
  | ref p, h => by
    rw [isPlain] at h
    rw [boundAs]
    exact isVariable_of_mem_boundAs p h
  | tuple elems, h => by
    simp only [isPlain, Bool.and_eq_true] at h
    rw [boundAs]
    exact isVariable_of_mem_boundEach elems _ h.2
  | tupleStruct segments elems, h => by
    simp only [isPlain, Bool.and_eq_true] at h
    rw [boundAs]
    exact isVariable_of_mem_boundEach elems _ h.2
  | struct _ fields _, h => by
    rw [isPlain] at h
    rw [boundAs]
    exact isVariable_of_mem_boundFields fields h
  | wild, _ | rest, _ | lit _, _ | path _, _ | alt _, _ | range .., _ | slice _, _
  | bare, _ => by simp [boundAs]

theorem isVariable_of_mem_boundEach : ∀ (ps : List Pat) (places : List Access),
    allPlain known ps = true → ∀ x ∈ boundEach cells ps places, isVariable x.1 = true
  | [], _, _ => by simp [boundEach]
  | _ :: _, [], _ => by simp [boundEach]
  | p :: ps, a :: places, h => by
    simp only [allPlain, Bool.and_eq_true] at h
    rw [boundEach, List.forall_mem_append]
    exact ⟨isVariable_of_mem_boundAs p h.1, isVariable_of_mem_boundEach ps places h.2⟩

theorem isVariable_of_mem_boundFields {a : Access} : ∀ fs : List FieldPat,
    fieldsPlain known fs = true → ∀ x ∈ boundFields cells a fs, isVariable x.1 = true
  | [], _ => by simp [boundFields]
  | ⟨name, p⟩ :: fs, h => by
    simp only [fieldsPlain, Bool.and_eq_true] at h
    rw [boundFields, List.forall_mem_append]
    exact ⟨isVariable_of_mem_boundAs p h.1, isVariable_of_mem_boundFields fs h.2⟩

end

theorem boundEach_rests (h : ∀ p ∈ ps, p.isRest = true) (places : List Access) :
    boundEach cells ps places = [] := by
  induction ps generalizing places with
  | nil => simp [boundEach]
  | cons p ps ih =>
    obtain ⟨hp, hps⟩ := List.forall_mem_cons.mp h
    cases places with
    | nil => simp [boundEach]
    | cons a places =>
      rw [boundEach, ih hps]
      cases p <;> simp_all [isRest, boundAs]

theorem exists_final_rests (elems : List Pat) :
    ∃ rests, elems = withoutFinalRests elems ++ rests ∧ ∀ p ∈ rests, p.isRest = true := by
  refine ⟨(elems.reverse.takeWhile isRest).reverse, ?_, fun p hp => ?_⟩
  · rw [withoutFinalRests, ← List.reverse_append, List.takeWhile_append_dropWhile,
      List.reverse_reverse]
  · rw [List.mem_reverse] at hp
    exact List.all_eq_true.mp List.all_takeWhile p hp

theorem isRest_of_mem_drop (elems : List Pat) :
    ∀ p ∈ elems.drop (withoutFinalRests elems).length, p.isRest = true := by
  obtain ⟨rests, helems, hrests⟩ := exists_final_rests elems
  have hdrop : elems.drop (withoutFinalRests elems).length = rests :=
    (congrArg (List.drop (withoutFinalRests elems).length) helems).trans List.drop_left
  rw [hdrop]
  exact hrests

mutual

/-- A pattern of a form that can be destructured. -/
def isOpen : Pat → Bool
  | ref p => p.isOpen
  | tuple elems => !(withoutFinalRests elems).any isRest && allOpen elems
  | tupleStruct segments elems =>
    !Path.isVariant segments &&
      (segments.getLast?.any fun name => !(["Some", "Ok", "Err"].contains name)) && allOpen elems
  | struct segments fields _ => !Path.isVariant segments && fieldsOpen fields
  | _ => true

def allOpen : List Pat → Bool
  | [] => true
  | p :: ps => p.isOpen && allOpen ps

def fieldsOpen : List FieldPat → Bool
  | [] => true
  | ⟨_, p⟩ :: fs => p.isOpen && fieldsOpen fs

end

theorem allOpen_of_rests (h : ∀ p ∈ ps, p.isRest = true) : allOpen ps = true := by
  induction ps with
  | nil => rfl
  | cons p ps ih =>
    obtain ⟨hp, hps⟩ := List.forall_mem_cons.mp h
    rw [allOpen, ih hps]
    cases p <;> simp_all [isRest, isOpen]

end Pat

/-! ## Destructuring -/

/-- The step from `s` to `t` declares the bound names in order, and reads each from its place. -/
structure Declares (s t : State) (reads bound : Access → List (String × Access)) : Prop where
  reads_eq : ∀ a, reads a = (s.scopes.assign (bound a)).1
  state_eq : ∀ a, t = { s with scopes := (s.scopes.assign (bound a)).2 }

namespace Declares

variable {s t u : State} {reads more bound others : Access → List (String × Access)}

theorem nothing (s : State) : Declares s s (fun _ => []) fun _ => [] := ⟨fun _ => rfl, fun _ => rfl⟩

theorem append (h : Declares s u reads bound) (hmore : Declares u t more others) :
    Declares s t (fun a => reads a ++ more a) fun a => bound a ++ others a := by
  refine ⟨fun a => ?_, fun a => ?_⟩
  · rw [Scopes.assign_append, h.reads_eq a, hmore.reads_eq a, h.state_eq a]
  · rw [Scopes.assign_append, hmore.state_eq a, h.state_eq a]

theorem inside (h : Declares s t reads bound) (f : Access → Access) :
    Declares s t (fun a => reads (f a)) fun a => bound (f a) :=
  ⟨fun a => h.reads_eq (f a), fun a => h.state_eq (f a)⟩

theorem ne_empty (h : Declares s t reads bound) (a : Access)
    (hbound : ∀ x ∈ bound a, Pat.isVariable x.1 = true) : ∀ x ∈ reads a, x.1 ≠ "" := by
  rw [h.reads_eq a]
  exact Scopes.ne_empty_of_mem_assign hbound

end Declares

namespace Emit

open Pat (isPlain allPlain fieldsPlain isOpen allOpen fieldsOpen boundAs boundEach boundFields
  byPosition isVariable_of_mem_boundAs isRest_of_mem_drop)

variable {known : KnownTypes} {place : Place}

mutual

theorem destructure_declares {s t : State} {b : Binding} : ∀ p : Pat,
    p.isPlain known = true → destructure p place s = (.ok b, t) →
      p.isOpen = true ∧ Declares s t (fun a => b.reads a) fun a => p.boundAs byPosition a
  | .ident name _ _ none, _, h => by
    rw [destructure] at h
    obtain ⟨target, u, htarget, h⟩ := exists_of_bind h
    cases htarget
    cases h
    refine ⟨rfl, fun a => ?_, fun a => ?_⟩
    · rw [reads, boundAs]
      rfl
    · rw [boundAs]
      rfl
  | .ident _ _ _ (some _), hplain, _ => by simp [isPlain] at hplain
  | .wild, _, h | .rest, _, h => by
    rw [destructure] at h
    cases h
    refine ⟨rfl, ?_⟩
    simpa only [reads, boundAs] using Declares.nothing s
  | .ref p, hplain, h => by
    rw [isPlain] at hplain
    rw [destructure] at h
    simpa only [isOpen, boundAs] using destructure_declares p hplain h
  | .tuple elems, hplain, h => by
    simp only [isPlain, Bool.and_eq_true] at hplain
    rw [destructure] at h
    split at h
    · cases h
    · next hrests =>
      obtain ⟨bs, hbs, rfl⟩ := exists_of_return h
      obtain ⟨hopen, hdeclares⟩ :=
        destructureUpTo_declares _ elems 0 hplain.2 (isRest_of_mem_drop elems) hbs
      refine ⟨by simp [isOpen, hopen, hrests], ?_⟩
      simp only [reads, boundAs]
      exact hdeclares
  | .tupleStruct segments elems, hplain, h => by
    simp only [isPlain, Bool.and_eq_true] at hplain
    rw [destructure] at h
    split at h
    · cases h
    · next hvariant =>
      obtain ⟨name, u, hname, h⟩ := exists_of_bind h
      split at h
      · cases h
      · next hwrapper =>
        obtain ⟨fs, hfs, rfl⟩ := exists_of_return h
        have hlast : segments.getLast? = some name ∧ u = s := by
          unfold Path.last at hname
          split at hname
          · next hsome =>
            cases hname
            exact ⟨hsome, rfl⟩
          · cases hname
        rw [hlast.2] at hfs
        obtain ⟨hopen, hdeclares⟩ := destructureSlots_declares 0 elems hplain.2 hfs
        refine ⟨?_, ?_⟩
        · simp only [isOpen, hopen, hlast.1, hvariant, hwrapper, Option.any_some, Bool.not_false,
            Bool.and_self]
        · simp only [reads, boundAs]
          exact hdeclares
  | .struct segments fields rest, hplain, h => by
    rw [isPlain] at hplain
    rw [destructure] at h
    split at h
    · cases h
    · next hvariant =>
      obtain ⟨fs, hfs, rfl⟩ := exists_of_return h
      obtain ⟨hopen, hdeclares⟩ := destructureFields_declares fields hplain hfs
      refine ⟨by simp [isOpen, hopen, hvariant], ?_⟩
      simpa only [reads, boundAs] using hdeclares
  | .lit _, hplain, _ | .path _, hplain, _ | .alt _, hplain, _ | .range .., hplain, _
  | .slice _, hplain, _ | .bare, hplain, _ => by simp [isPlain] at hplain

theorem destructureUpTo_declares {s t : State} {bs : List Binding} :
    ∀ (count : Nat) (ps : List Pat) (index : Nat), allPlain known ps = true →
      (∀ p ∈ ps.drop count, p.isRest = true) → destructureUpTo count ps place s = (.ok bs, t) →
        allOpen ps = true ∧ Declares s t (fun a => readsElements a index bs)
          fun a => boundEach byPosition ps (slotRun a index ps)
  | 0, ps, index, _, hrests, h => by
    rw [destructureUpTo] at h
    cases h
    have hrests : ∀ p ∈ ps, p.isRest = true := hrests
    refine ⟨Pat.allOpen_of_rests hrests, ?_⟩
    simpa only [readsElements, Pat.boundEach_rests hrests] using Declares.nothing s
  | _ + 1, [], index, _, _, h => by
    rw [destructureUpTo] at h
    · cases h
      refine ⟨rfl, ?_⟩
      simpa only [readsElements, boundEach] using Declares.nothing s
    · exact Nat.succ_ne_zero _
  | count + 1, p :: ps, index, hplain, hrests, h => by
    simp only [allPlain, Bool.and_eq_true] at hplain
    rw [destructureUpTo] at h
    obtain ⟨b, bs, u, hb, hbs, rfl⟩ := exists_of_both h
    obtain ⟨hopen, hfirst⟩ := destructure_declares p hplain.1 hb
    obtain ⟨hopens, hmore⟩ := destructureUpTo_declares count ps (index + 1) hplain.2 hrests hbs
    refine ⟨by rw [allOpen, hopen, hopens, Bool.and_self], ?_⟩
    simp only [readsElements, slotRun, boundEach]
    exact (hfirst.inside fun a => .slot a index).append hmore

theorem destructureSlots_declares {s t : State} {fs : List (Nat × Binding)} :
    ∀ (index : Nat) (ps : List Pat), allPlain known ps = true →
      destructureSlots index ps place s = (.ok fs, t) →
        allOpen ps = true ∧ Declares s t (fun a => readsSlots a fs)
          fun a => boundEach byPosition ps (slotRun a index ps)
  | index, [], _, h => by
    rw [destructureSlots] at h
    cases h
    refine ⟨rfl, ?_⟩
    simpa only [readsSlots, boundEach] using Declares.nothing s
  | index, p :: ps, hplain, h => by
    simp only [allPlain, Bool.and_eq_true] at hplain
    rw [destructureSlots] at h
    obtain ⟨b, bs, u, hb, hbs, rfl⟩ := exists_of_both h
    obtain ⟨hopen, hfirst⟩ := destructure_declares p hplain.1 hb
    obtain ⟨hopens, hmore⟩ := destructureSlots_declares (index + 1) ps hplain.2 hbs
    have hskip : ∀ a, readsSlots a (if b.text.isEmpty then bs else (index, b) :: bs) =
        b.reads (.slot a index) ++ readsSlots a bs := by
      intro a
      split
      · next hempty =>
        rw [Binding.reads_of_isEmpty hempty _
          (hfirst.ne_empty _ (isVariable_of_mem_boundAs p hplain.1)), List.nil_append]
      · rw [readsSlots]
    refine ⟨by rw [allOpen, hopen, hopens, Bool.and_self], ?_⟩
    simp only [hskip, slotRun, boundEach]
    exact (hfirst.inside fun a => .slot a index).append hmore

theorem destructureFields_declares {s t : State} {fs : List (String × Binding)} :
    ∀ fields : List FieldPat, fieldsPlain known fields = true →
      destructureFields fields place s = (.ok fs, t) →
        fieldsOpen fields = true ∧ Declares s t (fun a => readsFields a fs)
          fun a => boundFields byPosition a fields
  | [], _, h => by
    rw [destructureFields] at h
    cases h
    refine ⟨rfl, ?_⟩
    simpa only [readsFields, boundFields] using Declares.nothing s
  | ⟨name, p⟩ :: fields, hplain, h => by
    simp only [fieldsPlain, Bool.and_eq_true] at hplain
    rw [destructureFields] at h
    obtain ⟨b, bs, u, hb, hbs, rfl⟩ := exists_of_both h
    obtain ⟨hopen, hfirst⟩ := destructure_declares p hplain.1 hb
    obtain ⟨hopens, hmore⟩ := destructureFields_declares fields hplain.2 hbs
    have hskip : ∀ a, readsFields a (if b.text.isEmpty then bs else (name, b) :: bs) =
        b.reads (.prop a name) ++ readsFields a bs := by
      intro a
      split
      · next hempty =>
        rw [Binding.reads_of_isEmpty hempty _
          (hfirst.ne_empty _ (isVariable_of_mem_boundAs p hplain.1)), List.nil_append]
      · rw [readsFields]
    refine ⟨by rw [fieldsOpen, hopen, hopens, Bool.and_self], ?_⟩
    simpa only [hskip, boundFields] using (hfirst.inside fun a => .prop a name).append hmore

end

end Emit

end RustScript
