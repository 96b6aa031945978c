/-
  Destructuring and testing read the same places, as long as no element of a tuple struct stands
  behind a rest mark that skips slots: a test counts such an element from the last slot, while
  destructuring takes its position in the pattern for its slot.
-/
import RustScript.Proofs.Emit.GivesControl
import RustScript.Proofs.Pattern.Destructure

namespace RustScript

open Js (Access Binding)

/-! ## What testing binds -/

/-- The matcher asks for nothing and binds the names, each to its place. -/
structure Matcher.Takes (m : Matcher) (xs : List (String × Access)) : Prop where
  tests_eq : m.tests = []
  bindings_eq : m.bindings.map (fun b => (b.name, b.place)) = xs

namespace Matcher.Takes

variable {m n : Matcher} {xs ys : List (String × Access)}

theorem nothing : Takes {} [] := ⟨rfl, rfl⟩

theorem append (hm : m.Takes xs) (hn : n.Takes ys) : (m ++ n).Takes (xs ++ ys) := by
  refine ⟨?_, ?_⟩
  · change m.tests ++ n.tests = []
    rw [hm.tests_eq, hn.tests_eq, List.append_nil]
  · change (m.bindings ++ n.bindings).map _ = _
    rw [List.map_append, hm.bindings_eq, hn.bindings_eq]

end Matcher.Takes

namespace Pat

theorem boundEach_spots (cells : List String → List Pat → Access → List Access) (a : Access)
    (back : Nat → Access) {ps rests : List Pat} (hps : ∀ p ∈ ps, p.isRest = false)
    (hrests : ∀ p ∈ rests, p.isRest = true) (index : Nat) :
    boundEach cells (ps ++ rests) (spots (fun i => .slot a i) back index false (ps ++ rests)) =
      boundEach cells (ps ++ rests) (slotRun a index (ps ++ rests)) := by
  induction ps generalizing index with
  | nil => rw [List.nil_append, boundEach_rests hrests, boundEach_rests hrests]
  | cons p ps ih =>
    obtain ⟨hp, hps⟩ := List.forall_mem_cons.mp hps
    rw [List.cons_append, spots, slotRun, boundEach, boundEach, hp, Bool.or_false, ih hps]
    rfl

variable {v : Vocabulary} {ps : List Pat}

mutual

theorem exists_compile (a : Access) : ∀ p : Pat, p.isPlain v.toKnownTypes = true → p.isOpen = true →
      ∃ m, p.compile v a = .ok m ∧ m.Takes (p.boundAs (byArity v.toKnownTypes) a)
  | ident name isMutable _ none, hplain, _ => by
    simp only [isPlain, isVariable, Bool.and_eq_true, bne_iff_ne, Bool.not_eq_true'] at hplain
    refine ⟨⟨[], [⟨name, a, isMutable⟩]⟩, ?_, rfl, by rw [boundAs]; rfl⟩
    rw [compile, if_neg (by simpa using hplain.1.2), if_neg (by simp [hplain.2])]
  | ident _ _ _ (some _), hplain, _ => by simp [isPlain] at hplain
  | wild, _, _ | rest, _, _ => by rw [compile, boundAs] <;> simp [Matcher.Takes.nothing]
  | ref p, hplain, hopen => exists_compile a p hplain hopen
  | tuple elems, hplain, hopen => by
    simp only [isPlain, Bool.and_eq_true] at hplain
    simp only [isOpen, Bool.and_eq_true, Bool.not_eq_true'] at hopen
    obtain ⟨rests, helems, hrests⟩ := exists_final_rests elems
    have hspots := boundEach_spots (byArity v.toKnownTypes) a (.fromEnd a)
      (fun p hp => Bool.not_eq_true _ ▸ List.any_eq_false.mp hopen.1 p hp) hrests 0
    rw [← helems] at hspots
    rw [compile, boundAs]
    obtain ⟨m, hm, htakes⟩ := exists_compileAt elems (elementSpots a elems) hplain.2 hopen.2
    exact ⟨m, hm, hspots ▸ htakes⟩
  | tupleStruct segments elems, hplain, hopen => by
    simp only [isPlain, Bool.and_eq_true] at hplain
    simp only [isOpen, Bool.and_eq_true, Bool.not_eq_true', Option.any_eq_true] at hopen
    obtain ⟨⟨_, name, hname, hwrapper⟩, hopens⟩ := hopen
    obtain ⟨arity, harity⟩ := Option.isSome_iff_exists.mp hplain.1.1
    have hgetLast : segments.getLastD "" = name := by rw [List.getLastD_eq_getLast?, hname]; rfl
    have hlast : Path.last segments = .ok name := by rw [Path.last, hname]
    have hlayout : v.layout a segments name elems =
        ([], byArity v.toKnownTypes segments elems a) := by
      simp only [List.contains_cons, List.contains_nil, Bool.or_false,
        Bool.or_eq_false_iff] at hwrapper
      rw [hgetLast] at harity
      simp only [Vocabulary.layout, hwrapper, harity, byArity, hgetLast, Option.getD_some,
        Bool.false_eq_true, if_false]
    obtain ⟨m, hm, htakes⟩ :=
      exists_compileAt elems (byArity v.toKnownTypes segments elems a) hplain.2 hopens
    refine ⟨⟨[], []⟩ ++ m, ?_, ?_⟩
    · simp only [compile, hlast, bind, Except.bind, hlayout, hm]
      rfl
    · exact Matcher.Takes.nothing.append htakes
  | struct segments fields _, hplain, hopen => by
    rw [isPlain] at hplain
    simp only [isOpen, Bool.and_eq_true, Bool.not_eq_true'] at hopen
    obtain ⟨m, hm, htakes⟩ := exists_compileFields a fields hplain hopen.2
    refine ⟨m, ?_, by rw [boundAs]; exact htakes⟩
    simp only [compile, hm, bind, Except.bind, hopen.1]
    rfl
  | lit _, hplain, _ | path _, hplain, _ | alt _, hplain, _ | range .., hplain, _
  | slice _, hplain, _ | bare, hplain, _ => by simp [isPlain] at hplain

theorem exists_compileAt : ∀ (ps : List Pat) (places : List Access),
    allPlain v.toKnownTypes ps = true → allOpen ps = true →
      ∃ m, compileAt v ps places = .ok m ∧
        m.Takes (boundEach (byArity v.toKnownTypes) ps places)
  | [], _, _, _ => ⟨{}, by rw [compileAt]; simp, by rw [boundEach]; exact .nothing; simp⟩
  | _ :: _, [], _, _ => ⟨{}, by rw [compileAt]; simp, by rw [boundEach]; exact .nothing; simp⟩
  | p :: ps, a :: places, hplain, hopen => by
    simp only [allPlain, Bool.and_eq_true] at hplain
    simp only [allOpen, Bool.and_eq_true] at hopen
    obtain ⟨m, hm, hfirst⟩ := exists_compile a p hplain.1 hopen.1
    obtain ⟨n, hn, hmore⟩ := exists_compileAt ps places hplain.2 hopen.2
    refine ⟨m ++ n, ?_, ?_⟩
    · simp only [compileAt, hm, hn, bind, Except.bind]
      rfl
    · exact hfirst.append hmore

theorem exists_compileFields (a : Access) : ∀ fs : List FieldPat,
    fieldsPlain v.toKnownTypes fs = true → fieldsOpen fs = true →
      ∃ m, compileFields v a fs = .ok m ∧
        m.Takes (boundFields (byArity v.toKnownTypes) a fs)
  | [], _, _ => ⟨{}, by rw [compileFields], by rw [boundFields]; exact .nothing⟩
  | ⟨name, p⟩ :: fs, hplain, hopen => by
    simp only [fieldsPlain, Bool.and_eq_true] at hplain
    simp only [fieldsOpen, Bool.and_eq_true] at hopen
    obtain ⟨m, hm, hfirst⟩ := exists_compile (.prop a name) p hplain.1 hopen.1
    obtain ⟨n, hn, hmore⟩ := exists_compileFields a fs hplain.2 hopen.2
    refine ⟨m ++ n, ?_, ?_⟩
    · simp only [compileFields, hm, hn, bind, Except.bind]
      rfl
    · exact hfirst.append hmore

end

/-! ## Where the places agree -/

mutual

/-- The names in a pattern, in the order of the pattern. -/
def varNames : Pat → List String
  | ident name _ _ _ => [name]
  | ref p => p.varNames
  | tuple elems => varNamesEach elems
  | tupleStruct _ elems => varNamesEach elems
  | struct _ fields _ => varNamesFields fields
  | _ => []

def varNamesEach : List Pat → List String
  | [] => []
  | p :: ps => p.varNames ++ varNamesEach ps

def varNamesFields : List FieldPat → List String
  | [] => []
  | ⟨_, p⟩ :: fs => p.varNames ++ varNamesFields fs

end

/-- The patterns behind the first rest mark. -/
def behindRest : List Pat → List Pat
  | [] => []
  | p :: ps => if p.isRest then ps else behindRest ps

mutual

/-- In every tuple struct of the pattern the rest mark stands for exactly one slot, or no variable
    stands behind it. -/
def keepsSlots (known : KnownTypes) : Pat → Bool
  | ref p => p.keepsSlots known
  | tuple elems => allKeepSlots known elems
  | tupleStruct segments elems =>
    allKeepSlots known elems &&
      (known.arity? segments (segments.getLastD "") == some elems.length ||
        (varNamesEach (behindRest elems)).isEmpty)
  | struct _ fields _ => fieldsKeepSlots known fields
  | _ => true

def allKeepSlots (known : KnownTypes) : List Pat → Bool
  | [] => true
  | p :: ps => p.keepsSlots known && allKeepSlots known ps

def fieldsKeepSlots (known : KnownTypes) : List FieldPat → Bool
  | [] => true
  | ⟨_, p⟩ :: fs => p.keepsSlots known && fieldsKeepSlots known fs

end

theorem length_slotRun (a : Access) (slot : Int) (ps : List Pat) :
    (slotRun a slot ps).length = ps.length := by
  induction ps generalizing slot with
  | nil => rfl
  | cons p ps ih => simp [slotRun, ih]

theorem cellSpots_eq_slotRun (a : Access) (afterRest cell : Int) (h : ps.countP isRest = 0) :
    cellSpots a afterRest cell ps = slotRun a cell ps := by
  induction ps generalizing cell with
  | nil => rfl
  | cons p ps ih =>
    obtain ⟨hp, hps⟩ : p.isRest = false ∧ ps.countP isRest = 0 := by
      rw [List.countP_cons] at h
      exact ⟨by grind, by omega⟩
    rw [cellSpots, slotRun, hp, ih _ hps]
    rfl

theorem slotAfterRest_add (arity : Nat) (h : ps.any isRest = true) :
    slotAfterRest arity ps + (behindRest ps).length = arity := by
  induction ps with
  | nil => cases h
  | cons p ps ih =>
    cases hp : p.isRest with
    | true =>
      simp only [slotAfterRest, behindRest, hp, List.dropWhile_cons, Bool.not_true, if_true,
        Bool.false_eq_true, if_false, List.length_cons]
      omega
    | false =>
      have hrest : slotAfterRest arity (p :: ps) = slotAfterRest arity ps := by
        simp [slotAfterRest, hp]
      rw [hrest, behindRest, hp]
      exact ih (by simpa [hp] using h)

theorem behindRest_of_no_rest (h : ps.any isRest = false) : behindRest ps = [] := by
  induction ps with
  | nil => rfl
  | cons p ps ih =>
    rw [List.any_cons, Bool.or_eq_false_iff] at h
    rw [behindRest, h.1, ih h.2]
    rfl

section

variable {cells : List String → List Pat → Access → List Access}
  (hcells : ∀ segments elems a, (cells segments elems a).length = elems.length)

include hcells

-- the lengths are assumed once for the whole recursion over patterns
set_option linter.unusedSectionVars false

mutual

/-- Whatever the places are, the names are the same. -/
theorem map_fst_boundAs {a : Access} : ∀ p : Pat, (p.boundAs cells a).map Prod.fst = p.varNames
  | ident .. => by simp [boundAs, varNames]
  | ref p => by rw [boundAs, varNames, map_fst_boundAs p]
  | tuple elems => by rw [boundAs, varNames, map_fst_boundEach elems _ (length_slotRun a 0 elems)]
  | tupleStruct segments elems => by
    rw [boundAs, varNames, map_fst_boundEach elems _ (hcells segments elems a)]
  | struct _ fields _ => by rw [boundAs, varNames, map_fst_boundFields fields]
  | wild | rest | lit _ | path _ | alt _ | range .. | slice _ | bare => by simp [boundAs, varNames]

theorem map_fst_boundEach : ∀ (ps : List Pat) (places : List Access),
    places.length = ps.length → (boundEach cells ps places).map Prod.fst = varNamesEach ps
  | [], _, _ => by simp [boundEach, varNamesEach]
  | p :: ps, a :: places, h => by
    rw [boundEach, varNamesEach, List.map_append, map_fst_boundAs p,
      map_fst_boundEach ps places (Nat.succ.inj h)]

theorem map_fst_boundFields {a : Access} : ∀ fs : List FieldPat,
    (boundFields cells a fs).map Prod.fst = varNamesFields fs
  | [] => by simp [boundFields, varNamesFields]
  | ⟨name, p⟩ :: fs => by
    rw [boundFields, varNamesFields, List.map_append, map_fst_boundAs p, map_fst_boundFields fs]

end

end

theorem length_byPosition (segments : List String) (elems : List Pat) (a : Access) :
    (byPosition segments elems a).length = elems.length :=
  length_slotRun a 0 elems

theorem length_byArity (known : KnownTypes) (segments : List String) (elems : List Pat)
    (a : Access) : (byArity known segments elems a).length = elems.length :=
  length_cellSpots a _ 0 elems

/-- The variables of a pattern and of what follows agree if both do. -/
theorem append_agree_iff {known : KnownTypes} (p : Pat) (a a' : Access)
    (xs ys : List (String × Access)) :
    p.boundAs byPosition a ++ xs = p.boundAs (byArity known) a' ++ ys ↔
      p.boundAs byPosition a = p.boundAs (byArity known) a' ∧ xs = ys := by
  have hnames : (p.boundAs byPosition a).map Prod.fst =
      (p.boundAs (byArity known) a').map Prod.fst := by
    rw [map_fst_boundAs length_byPosition, map_fst_boundAs (length_byArity known)]
  have hlength := congrArg List.length hnames
  rw [List.length_map, List.length_map] at hlength
  exact ⟨fun h => List.append_inj h hlength, fun h => h.1 ▸ h.2 ▸ rfl⟩

variable {known : KnownTypes}

mutual

theorem boundAs_agree_iff {a a' : Access} : ∀ p : Pat, p.isPlain known = true →
    (p.boundAs byPosition a = p.boundAs (byArity known) a' ↔
      p.keepsSlots known = true ∧ (a = a' ∨ p.varNames = []))
  | ident name _ _ _, _ => by simp [boundAs, keepsSlots, varNames]
  | ref p, hplain => boundAs_agree_iff p hplain
  | tuple elems, hplain => by
    simp only [isPlain, Bool.and_eq_true] at hplain
    rw [boundAs, boundAs, keepsSlots, varNames, boundEach_agree_iff elems hplain.2]
    simp
  | tupleStruct segments elems, hplain => by
    simp only [isPlain, Bool.and_eq_true, decide_eq_true_eq] at hplain
    obtain ⟨arity, harity⟩ := Option.isSome_iff_exists.mp hplain.1.1
    rw [boundAs, boundAs, keepsSlots, varNames, byPosition, byArity, harity, Option.getD_some,
      boundCells_agree_iff elems hplain.2 hplain.1.2]
    have hslots : (slotAfterRest arity elems + (behindRest elems).length = 0 + elems.length ∨
        varNamesEach (behindRest elems) = []) ↔
          (arity = elems.length ∨ varNamesEach (behindRest elems) = []) := by
      cases hrest : elems.any isRest with
      | true =>
        have hcount : (arity : Int) = 0 + elems.length ↔ arity = elems.length := by omega
        rw [slotAfterRest_add arity hrest, hcount]
      | false => simp [behindRest_of_no_rest hrest, varNamesEach]
    grind
  | struct _ fields _, hplain => boundFields_agree_iff fields hplain
  | wild, _ | rest, _ | lit _, _ | path _, _ | alt _, _ | range .., _ | slice _, _ | bare, _ => by
    simp [boundAs, keepsSlots, varNames]

theorem boundEach_agree_iff {i j : Int} {a a' : Access} : ∀ ps : List Pat,
    allPlain known ps = true →
      (boundEach byPosition ps (slotRun a i ps) = boundEach (byArity known) ps (slotRun a' j ps) ↔
        allKeepSlots known ps = true ∧ ((a = a' ∧ i = j) ∨ varNamesEach ps = []))
  | [], _ => by simp [boundEach, allKeepSlots, varNamesEach]
  | p :: ps, hplain => by
    simp only [allPlain, Bool.and_eq_true] at hplain
    rw [slotRun, slotRun, boundEach, boundEach, append_agree_iff,
      boundAs_agree_iff p hplain.1, boundEach_agree_iff ps hplain.2]
    simp only [allKeepSlots, varNamesEach, Bool.and_eq_true, Access.slot.injEq,
      List.append_eq_nil_iff]
    grind

theorem boundCells_agree_iff {i afterRest : Int} {a a' : Access} : ∀ ps : List Pat,
    allPlain known ps = true → ps.countP isRest ≤ 1 →
      (boundEach byPosition ps (slotRun a i ps) =
          boundEach (byArity known) ps (cellSpots a' afterRest i ps) ↔
        allKeepSlots known ps = true ∧ (a = a' ∨ varNamesEach ps = []) ∧
          (afterRest + (behindRest ps).length = i + ps.length ∨ varNamesEach (behindRest ps) = []))
  | [], _, _ => by simp [boundEach, allKeepSlots, varNamesEach, behindRest]
  | p :: ps, hplain, hrests => by
    simp only [allPlain, Bool.and_eq_true] at hplain
    rw [List.countP_cons] at hrests
    rw [slotRun, cellSpots, boundEach, boundEach, append_agree_iff,
      boundAs_agree_iff p hplain.1, behindRest]
    simp only [allKeepSlots, varNamesEach, Bool.and_eq_true, Access.slot.injEq,
      List.append_eq_nil_iff, List.length_cons]
    cases hp : p.isRest with
    | true =>
      -- what follows has no rest mark of its own, so that its cells run on from `afterRest`
      have hnone : ps.countP isRest = 0 := by
        rw [hp, if_pos rfl] at hrests
        omega
      have hunbound : p.varNames = [] := by cases p <;> simp_all [isRest, varNames]
      rw [if_pos rfl, if_pos rfl, cellSpots_eq_slotRun a' afterRest afterRest hnone,
        boundEach_agree_iff ps hplain.2]
      have hnext : i + 1 = afterRest ↔
          afterRest + (ps.length : Int) = i + ((ps.length + 1 : Nat) : Int) := by omega
      grind
    | false =>
      have hfew : ps.countP isRest ≤ 1 := by omega
      rw [if_neg Bool.false_ne_true, if_neg Bool.false_ne_true,
        boundCells_agree_iff ps hplain.2 hfew]
      have hnext : (afterRest + ((behindRest ps).length : Int) = i + 1 + (ps.length : Int)) ↔
          afterRest + ((behindRest ps).length : Int) = i + ((ps.length + 1 : Nat) : Int) := by omega
      grind

theorem boundFields_agree_iff {a a' : Access} : ∀ fs : List FieldPat, fieldsPlain known fs = true →
      (boundFields byPosition a fs = boundFields (byArity known) a' fs ↔
        fieldsKeepSlots known fs = true ∧ (a = a' ∨ varNamesFields fs = []))
  | [], _ => by simp [boundFields, fieldsKeepSlots, varNamesFields]
  | ⟨name, p⟩ :: fs, hplain => by
    simp only [fieldsPlain, Bool.and_eq_true] at hplain
    rw [boundFields, boundFields, append_agree_iff, boundAs_agree_iff p hplain.1,
      boundFields_agree_iff fs hplain.2]
    simp only [fieldsKeepSlots, varNamesFields, Bool.and_eq_true, Access.prop.injEq,
      List.append_eq_nil_iff]
    grind

end

end Pat

/-- A plain pattern that can be destructured can be tested too: the test asks for nothing, and the
    binding declares the names that it binds, in the same order. Each gets its value from the same
    place exactly if no variable of a tuple struct stands behind a rest mark that skips slots. -/
theorem destructuring_agrees_with_testing_iff {p : Pat} {place : Place} {s t : State} {b : Binding}
    (hplain : p.isPlain place.known = true) (h : Emit.destructure p place s = (.ok b, t))
    (scopes : Scopes) (subject : Access) :
    ∃ m, p.compile ⟨place.known, scopes⟩ subject = .ok m ∧ m.isIrrefutable = true ∧
      (b.reads subject).map Prod.fst = (s.scopes.seed (m.bindings.map Bound.name)).1 ∧
      ((b.reads subject).map Prod.snd = m.bindings.map Bound.place ↔
        p.keepsSlots place.known = true) := by
  obtain ⟨hopen, hdeclares⟩ := Emit.destructure_declares p hplain h
  obtain ⟨m, hm, htakes⟩ := Pat.exists_compile (v := ⟨place.known, scopes⟩) subject p hplain hopen
  have hnames : m.bindings.map Bound.name = p.varNames := by
    rw [← Pat.map_fst_boundAs (Pat.length_byArity place.known) p, ← htakes.bindings_eq,
      List.map_map]
    rfl
  have hplaces : m.bindings.map Bound.place =
      (p.boundAs (Pat.byArity place.known) subject).map Prod.snd := by
    rw [← htakes.bindings_eq, List.map_map]
    rfl
  have hposition := Pat.map_fst_boundAs Pat.length_byPosition (a := subject) p
  have harity := Pat.map_fst_boundAs (Pat.length_byArity place.known) (a := subject) p
  have hreads : b.reads subject =
      (s.scopes.seed p.varNames).1.zip ((p.boundAs Pat.byPosition subject).map Prod.snd) := by
    rw [hdeclares.reads_eq subject, Scopes.assign_eq_seed, hposition]
  have hlength : (s.scopes.seed p.varNames).1.length =
      ((p.boundAs Pat.byPosition subject).map Prod.snd).length := by
    rw [Scopes.length_seed, ← hposition, List.length_map, List.length_map]
  refine ⟨m, hm, List.isEmpty_iff.mpr htakes.tests_eq, ?_, ?_⟩
  · rw [hreads, hnames, List.map_fst_zip (Nat.le_of_eq hlength)]
  · rw [hreads, hplaces, List.map_snd_zip (Nat.le_of_eq hlength.symm)]
    have hsame := @Pat.boundAs_agree_iff _ subject subject p hplain
    simp only [true_or, and_true] at hsame
    rw [← hsame]
    have hpairs : ∀ xs : List (String × Access), (xs.map Prod.fst).zip (xs.map Prod.snd) = xs := by
      intro xs
      rw [← List.unzip_fst, ← List.unzip_snd, List.zip_unzip]
    refine ⟨fun heq => ?_, congrArg (List.map Prod.snd)⟩
    rw [← hpairs (p.boundAs Pat.byPosition subject), hposition, heq, ← harity, hpairs]

/-- A place where `P` has four slots. -/
def fourSlots : Place := { structs := [("P", ["0", "1", "2", "3"])] }

/-- The pattern `P(a, .., last)`. -/
def firstAndLast (last : Pat) : Pat := .tupleStruct ["P"] [.ident "a" false false none, .rest, last]

/-- `P(a, .., _)` reads the slot of `a` both ways, since nothing is bound behind the rest mark. -/
theorem wildcard_behind_rest_agrees :
    ∃ m, (firstAndLast .wild).compile ⟨fourSlots.known, {}⟩ (.root "v") = .ok m ∧
      m.isIrrefutable = true ∧
      ((Binding.slots [(0, .name "a")]).reads (.root "v")).map Prod.snd =
        m.bindings.map Bound.place := by
  have hplain : (firstAndLast .wild).isPlain fourSlots.known = true := by decide
  have hdestructure : Emit.destructure (firstAndLast .wild) fourSlots {} =
      (.ok (.slots [(0, .name "a")]), (Emit.destructure (firstAndLast .wild) fourSlots {}).2) := rfl
  obtain ⟨m, hm, hirrefutable, _, hplaces⟩ :=
    destructuring_agrees_with_testing_iff hplain hdestructure {} (.root "v")
  exact ⟨m, hm, hirrefutable, hplaces.mpr (by decide)⟩

/-- `P(a, .., b)` on four slots: destructuring reads `b` from the third slot, testing from the
    last. -/
theorem variable_behind_rest_differs :
    (Emit.destructure (firstAndLast (.ident "b" false false none)) fourSlots {}).1 =
        .ok (.slots [(0, .name "a"), (2, .name "b")]) ∧
      (firstAndLast (.ident "b" false false none)).compile ⟨fourSlots.known, {}⟩ (.root "v") =
        .ok ⟨[], [⟨"a", .slot (.root "v") 0, false⟩, ⟨"b", .slot (.root "v") 3, false⟩]⟩ :=
  ⟨rfl, rfl⟩

end RustScript
