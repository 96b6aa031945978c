/-
  Which variables of a pattern are bound.

  A choice with an alternative that always fits counts as a wildcard and binds nothing at all.
  `Pat.lost` lists what is missed that way, and `Accounts` says that every variable is either bound
  or lost.
-/
import RustScript.Proofs.Emit.Law
import RustScript.Proofs.Scope.Renaming

namespace RustScript

/-- The names that a matcher binds, in order. -/
def Matcher.names (m : Matcher) : List String := m.bindings.map Bound.name

namespace Pat

/-- The names that are in all lists. -/
def inAll (lists : List (List String)) (names : List String) : List String :=
  names.filter fun x => lists.all (·.contains x)

mutual

/-- The variables of a pattern. -/
def vars : Pat → List String
  | ident name _ _ none => if name == "None" || Name.isConstant name then [] else [name]
  | ident name _ _ (some sub) => sub.vars ++ [name]
  | ref p => p.vars
  | tuple ps => (varsEach ps).flatten
  | slice ps => (varsEach ps).flatten
  | tupleStruct _ ps => (varsEach ps).flatten
  | struct _ fields _ => fieldVars fields
  | alt ps => inAll (varsEach ps) ((varsEach ps).headD [])
  | _ => []

def varsEach : List Pat → List (List String)
  | [] => []
  | p :: ps => p.vars :: varsEach ps

def fieldVars : List FieldPat → List String
  | [] => []
  | ⟨_, p⟩ :: fs => p.vars ++ fieldVars fs

end

mutual

/-- The variables that are not bound. A choice with an alternative that always fits loses all of its
    variables; any other loses what its first alternative loses. -/
def lost (known : KnownTypes) : Pat → List String
  | ident _ _ _ (some sub) => sub.lost known
  | ref p => p.lost known
  | tuple ps => (lostEach known ps).flatten
  | slice ps => (lostEach known ps).flatten
  | tupleStruct _ ps => (lostEach known ps).flatten
  | struct _ fields _ => fieldsLost known fields
  | alt ps =>
    inAll (varsEach ps)
      (if anyFits known ps then (varsEach ps).headD [] else (lostEach known ps).headD [])
  | _ => []

def lostEach (known : KnownTypes) : List Pat → List (List String)
  | [] => []
  | p :: ps => p.lost known :: lostEach known ps

def fieldsLost (known : KnownTypes) : List FieldPat → List String
  | [] => []
  | ⟨_, p⟩ :: fs => p.lost known ++ fieldsLost known fs

end

end Pat

/-! ## Accounts -/

/-- Of the variables, the matcher binds those that are not lost, in order. -/
structure Accounts (m : Matcher) (vars lost : List String) : Prop where
  inOrder : m.names.Sublist vars
  perm : vars.Perm (m.names ++ lost)

namespace Accounts

variable {m n : Matcher} {xs ys ls ks : List String}

theorem unbound (tests : List Js.Test) : Accounts ⟨tests, []⟩ [] [] := ⟨.slnil, .nil⟩

theorem bind (b : Bound) : Accounts ⟨[], [b]⟩ [b.name] [] := ⟨.refl _, .refl _⟩

theorem append (hm : Accounts m xs ls) (hn : Accounts n ys ks) :
    Accounts (m ++ n) (xs ++ ys) (ls ++ ks) := by
  have hnames : (m ++ n).names = m.names ++ n.names := List.map_append
  have hswap : (m.names ++ ls ++ (n.names ++ ks)).Perm (m.names ++ n.names ++ (ls ++ ks)) := by
    simp only [List.append_assoc]
    refine List.Perm.append_left _ ?_
    simp only [← List.append_assoc]
    exact List.perm_append_comm.append_right ks
  exact ⟨hnames ▸ hm.inOrder.append hn.inOrder, hnames ▸ (hm.perm.append hn.perm).trans hswap⟩

theorem names_eq_iff (h : Accounts m xs ls) : m.names = xs ↔ ls = [] := by
  have hlength := h.perm.length_eq
  rw [List.length_append] at hlength
  constructor
  · rintro rfl
    exact List.eq_nil_of_length_eq_zero (by omega)
  · rintro rfl
    exact h.inOrder.eq_of_length (by simpa using hlength.symm)

end Accounts

/-! ## Choices -/

theorem Matcher.names_eq_map_shown (m : Matcher) : m.names = m.shown.map Prod.fst := by
  rw [Matcher.names, Matcher.shown, List.map_map]
  rfl

/-- Every variable of the pattern is bound by the matcher or lost. -/
def Pat.Accounted (known : KnownTypes) (p : Pat) (m : Matcher) : Prop :=
  Accounts m p.vars (p.lost known)

section Choices

variable {known : KnownTypes} {ps : List Pat} {ms : List Matcher} {m : Matcher}

theorem all_contains_varsEach (h : List.Forall₂ (Pat.Accounted known) ps ms) {names : List String}
    (hnames : ∀ n ∈ ms, n.names = names) {x : String} (hx : x ∈ names) :
    (Pat.varsEach ps).all (·.contains x) = true := by
  induction h with
  | nil => rfl
  | cons hp _ ih =>
    obtain ⟨hfirst, hothers⟩ := List.forall_mem_cons.mp hnames
    rw [Pat.varsEach, List.all_cons, ih hothers, Bool.and_true, List.contains_iff_mem]
    exact hp.inOrder.subset (hfirst ▸ hx)

theorem Pat.Accounted.alt (hms : List.Forall₂ (Pat.Accounted known) ps ms)
    (hany : ms.any Matcher.isIrrefutable = Pat.anyFits known ps) (h : Matcher.oneOf ms = .ok m) :
    (Pat.alt ps).Accounted known m := by
  rw [Pat.Accounted, Pat.vars, Pat.lost, ← hany]
  obtain ⟨hirr, rfl⟩ | ⟨hirr, first, -, hshown, rfl⟩ := Matcher.oneOf_eq_ok h
  · rw [hirr, if_pos rfl]
    exact ⟨List.nil_sublist _, .refl _⟩
  · rw [hirr, if_neg Bool.false_ne_true]
    cases hms with
    | nil => cases h
    | @cons p n ps ms hp hps =>
      have hnames : ∀ k ∈ n :: ms, k.names = first.names := fun k hk => by
        rw [k.names_eq_map_shown, hshown k hk, first.names_eq_map_shown]
      have hfirst : n.names = first.names := hnames n List.mem_cons_self
      -- all alternatives bind the same names, so that these are variables of each of them
      have hkept : Pat.inAll (Pat.varsEach (p :: ps)) first.names = first.names :=
        List.filter_eq_self.mpr fun x hx => all_contains_varsEach (.cons hp hps) hnames hx
      refine ⟨?_, ?_⟩
      · change first.names.Sublist _
        rw [← hkept, ← hfirst]
        exact hp.inOrder.filter _
      · have hperm : (Pat.inAll (Pat.varsEach (p :: ps)) p.vars).Perm
            (Pat.inAll (Pat.varsEach (p :: ps)) (n.names ++ p.lost known)) := hp.perm.filter _
        rw [Pat.inAll, Pat.inAll, List.filter_append, hfirst] at hperm
        change (Pat.inAll (Pat.varsEach (p :: ps)) p.vars).Perm (first.names ++ _)
        rw [← hkept]
        exact hperm

end Choices

/-! ## The induction -/

theorem Matcher.accounts_bound {test : LitPat → Js.Test} {bound : Option LitPat} {m : Matcher}
    (h : Matcher.bound test bound = .ok m) : Accounts m [] [] := by
  cases bound with
  | none =>
    cases h
    exact .unbound _
  | some p =>
    obtain ⟨q, -, rfl⟩ := exists_of_return_eq_ok h
    exact .unbound _

namespace Pat

variable {v : Vocabulary}

theorem accounted_cases : Cases v (fun _ => Accounted v.toKnownTypes)
    (fun _ ps m => Accounts m (varsEach ps).flatten (lostEach v.toKnownTypes ps).flatten)
    (fun _ fs m => Accounts m (fieldVars fs) (fieldsLost v.toKnownTypes fs)) where
  wild _ := .unbound _
  rest _ := .unbound _
  ref h := by
    rw [Accounted, vars, lost]
    exact h
  named {place name isMutable _ _ _} h := by
    have hboth := Accounts.append h (.bind ⟨name, place, isMutable⟩)
    rw [List.append_nil] at hboth
    rw [Accounted, vars, lost]
    exact hboth
  absent _ _ _ := .unbound _
  constant _ _ _ _ hconst := by
    rw [Accounted, vars, lost, hconst, Bool.or_true, if_pos rfl]
    · exact .unbound _
    all_goals simp
  fresh _ _ _ hname hconst := by
    rw [Accounted, vars, lost, hconst, beq_false_of_ne hname]
    · exact .bind _
    all_goals simp
  lit _ _ := .unbound _
  range hlow hhigh := (Matcher.accounts_bound hlow).append (Matcher.accounts_bound hhigh)
  tuple h := by
    rw [Accounted, vars, lost]
    exact h
  slice h := by
    rw [Accounted, vars, lost]
    exact (Accounts.unbound _).append h
  path _ _ := .unbound _
  tupleStruct _ h := by
    rw [Accounted, vars, lost]
    exact (Accounts.unbound _).append h
  variant _ _ h := by
    rw [Accounted, vars, lost]
    exact (Accounts.unbound _).append h
  struct _ h := by
    rw [Accounted, vars, lost]
    exact h
  alt hall hms h := .alt hms (any_isIrrefutable (isEmpty_cases.compileEach _ hall)) h
  nil := .unbound _
  cons hp hps := by
    rw [varsEach, lostEach, List.flatten_cons, List.flatten_cons]
    exact Accounts.append hp hps
  noFields _ := .unbound _
  field hp hfs := by
    rw [fieldVars, fieldsLost]
    exact Accounts.append hp hfs

/-- A compiled pattern binds its variables, less the lost ones. -/
theorem accounted (p : Pat) {place : Js.Access} {m : Matcher} (h : p.compile v place = .ok m) :
    p.Accounted v.toKnownTypes m :=
  accounted_cases.compile p h

end Pat

/-! ## The scope of an arm -/

theorem Scopes.map_fst_seed (s : Scopes) (names : List String) :
    (s.seed names).2.inner.bindings.map Prod.fst =
      names.reverse ++ s.inner.bindings.map Prod.fst := by
  induction names generalizing s with
  | nil => rfl
  | cons name names ih =>
    refine (ih (s.declare name).2).trans ?_
    rw [List.reverse_cons, List.append_assoc]
    rfl

theorem Emit.exists_bindMatched (bs : List Bound) (place : Place) (s : State) :
    ∃ lines, Emit.bindMatched bs place s =
      (.ok lines, { s with scopes := (s.scopes.seed (bs.map Bound.name)).2 }) := by
  induction bs generalizing s with
  | nil => exact ⟨[], rfl⟩
  | cons b bs ih =>
    obtain ⟨lines, hlines⟩ := ih { s with scopes := (s.scopes.declare b.name).2 }
    have hfirst : Emit.declare b.name place s =
        (.ok (s.scopes.declare b.name).1, { s with scopes := (s.scopes.declare b.name).2 }) := rfl
    rw [Emit.bindMatched]
    exact ⟨_, (Emit.bind_of_ok hfirst _).trans (Emit.bind_of_ok hlines _)⟩

theorem Scopes.exists_binds_iff (s : Scopes) (x : String) :
    (∃ target, s.Binds 0 x target) ↔ x ∈ s.inner.bindings.map Prod.fst := by
  have hlookup : (∃ target, s.Binds 0 x target) ↔ (s.inner.bindings.lookup x).isSome := by
    simp [Scopes.Binds, Scopes.layers, Option.isSome_iff_exists]
  rw [hlookup, List.lookup_isSome_iff, List.mem_map]
  exact exists_congr fun b => and_congr_right fun _ => beq_iff_eq.trans eq_comm

/-- In the scope of an arm the names are bound, and no others. -/
theorem Matcher.binds_iff (m : Matcher) (place : Place) (s : State) (x : String) :
    (∃ target, (Emit.bindMatched m.bindings place
      { s with scopes := s.scopes.push }).2.scopes.Binds 0 x target) ↔ x ∈ m.names := by
  obtain ⟨lines, hlines⟩ :=
    Emit.exists_bindMatched m.bindings place { s with scopes := s.scopes.push }
  have hnames := Scopes.map_fst_seed s.scopes.push m.names
  rw [show s.scopes.push.inner.bindings.map Prod.fst = [] from rfl, List.append_nil] at hnames
  rw [hlines, Scopes.exists_binds_iff]
  change x ∈ (s.scopes.push.seed m.names).2.inner.bindings.map Prod.fst ↔ _
  rw [hnames, List.mem_reverse]

/-- A compiled pattern binds its variables, each once and in order, less those that are lost to
    choices with an alternative that always fits. The names that it binds are the ones that the
    scope of an arm knows, so that none is missing there exactly if none is lost. -/
theorem pattern_variables_are_bound_iff {p : Pat} {v : Vocabulary} {subject : Js.Access}
    {m : Matcher} (h : p.compile v subject = .ok m) :
    (m.bindings.map Bound.name = p.vars ↔ p.lost v.toKnownTypes = []) ∧
      p.vars.Perm (m.bindings.map Bound.name ++ p.lost v.toKnownTypes) ∧
      ∀ (place : Place) (s : State) (x : String),
        (∃ target, (Emit.bindMatched m.bindings place
          { s with scopes := s.scopes.push }).2.scopes.Binds 0 x target) ↔
            x ∈ m.bindings.map Bound.name := by
  have haccounts := p.accounted h
  exact ⟨haccounts.names_eq_iff, haccounts.perm, m.binds_iff⟩

/-- The pattern `(x, 1) | (x, last)`. -/
def oneOrLast (last : Pat) : Pat :=
  .alt [.tuple [.ident "x" false false none, .lit ⟨.int 1, false⟩],
    .tuple [.ident "x" false false none, last]]

/-- `(x, 1) | (x, 2)` binds `x`. -/
theorem tested_choice_binds_its_variable :
    ∃ m, (oneOrLast (.lit ⟨.int 2, false⟩)).compile ⟨⟨none, []⟩, {}⟩ (.root "s") = .ok m ∧
      m.bindings.map Bound.name = ["x"] :=
  ⟨_, rfl, (@pattern_variables_are_bound_iff (oneOrLast (.lit ⟨.int 2, false⟩))
    ⟨⟨none, []⟩, {}⟩ (.root "s") _ rfl).1.mpr rfl⟩

/-- `(x, 1) | (x, _)` binds nothing, though both alternatives have the variable `x`. -/
theorem choice_with_wildcard_loses_its_variable :
    (oneOrLast .wild).compile ⟨⟨none, []⟩, {}⟩ (.root "s") = .ok {} ∧
      (oneOrLast .wild).vars = ["x"] :=
  ⟨rfl, rfl⟩

end RustScript
