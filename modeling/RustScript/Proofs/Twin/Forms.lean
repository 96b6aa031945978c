/-
  The forms of expressions, statements and macros, run side by side.

  If the parts of a form are twins, the form is; forms that declare names in the current scope are
  loose twins. What a form checks by itself is assumed to be sound, unless faults are allowed.
-/
import RustScript.Proofs.Emit.GivesForms
import RustScript.Proofs.Twin.Runs

namespace RustScript

open Emit

variable {T : Tie} {p q : Js.Tail}

/-! ## Code that differs in where values go -/

namespace Js

/-- Statements that are the same, except for where values go: `p` on the one side and `q` on the
    other, for the value of a block and for the value of a jump. -/
inductive StmtsAlike (p q : Tail) : List Stmt → List Stmt → Prop where
  | refl (a : List Stmt) : StmtsAlike p q a a
  | append {a b c d : List Stmt} (h : StmtsAlike p q a b) (h' : StmtsAlike p q c d) :
      StmtsAlike p q (a ++ c) (b ++ d)
  | value (code : Expr) : StmtsAlike p q [.deliver p code] [.deliver q code]
  | jump (code : Expr) (label : Option String) :
      StmtsAlike p q [.exit p code label] [.exit q code label]
  /-- A statement around others, with a first line and last lines of its own. -/
  | within {a b : List Stmt} (h : StmtsAlike p q a b) {f : List Stmt → Stmt} {head : String}
      {foot : List String} (hf : ∀ body, (f body).lines = head :: blockLines body ++ foot) :
      StmtsAlike p q [f a] [f b]
  /-- The same conditions, each with a body on either side. -/
  | arms (bodies : List (Expr × List Stmt × List Stmt)) (last : Option (List Stmt × List Stmt))
      (hbodies : ∀ x ∈ bodies, StmtsAlike p q x.2.1 x.2.2)
      (hlast : ∀ x ∈ last, StmtsAlike p q x.1 x.2) :
      StmtsAlike p q
        [.branch (bodies.map fun x => .mk x.1 x.2.1) (last.map Prod.fst)]
        [.branch (bodies.map fun x => .mk x.1 x.2.2) (last.map Prod.snd)]

theorem blockLines_append (a b : List Stmt) :
    blockLines (a ++ b) = blockLines a ++ blockLines b := by
  induction a with
  | nil => rfl
  | cons s a ih => rw [List.cons_append, blockLines, blockLines, ih, List.append_assoc]

/-- The same line, or one that sends the same code to `p` and to `q`. -/
def LineAlike (p q : Tail) (a b : String) : Prop :=
  a = b ∨ ∃ code, a = p.lead ++ code ++ ";" ∧ b = q.lead ++ code ++ ";"

theorem forall₂_lineAlike_same (ls : List String) : List.Forall₂ (LineAlike p q) ls ls :=
  List.forall₂_same.mpr fun _ _ => .inl rfl

theorem branchLines_alike {bodies : List (Expr × List Stmt × List Stmt)}
    (h : ∀ x ∈ bodies, List.Forall₂ (LineAlike p q) (blockLines x.2.1) (blockLines x.2.2)) :
    List.Forall₂ (LineAlike p q) (branchLines (bodies.map fun x => .mk x.1 x.2.1))
      (branchLines (bodies.map fun x => .mk x.1 x.2.2)) := by
  induction bodies with
  | nil => exact .nil
  | cons x bodies ih =>
    obtain ⟨hx, hbodies⟩ := List.forall_mem_cons.mp h
    exact .cons (.inl rfl) (List.rel_append hx (ih hbodies))

namespace StmtsAlike

variable {a b : List Stmt}

theorem cons (s : Stmt) (h : StmtsAlike p q a b) : StmtsAlike p q (s :: a) (s :: b) :=
  (refl [s]).append h

theorem deliver {tail tail' : Tail} (h : TailsAlike p q (some tail) (some tail')) (code : Expr) :
    StmtsAlike p q [.deliver tail code] [.deliver tail' code] := by
  cases h with
  | same => exact refl _
  | both => exact value code

theorem exit {tail tail' : Tail} (h : TailsAlike p q (some tail) (some tail')) (code : Expr)
    (label : Option String) : StmtsAlike p q [.exit tail code label] [.exit tail' code label] := by
  cases h with
  | same => exact refl _
  | both => exact jump code label

theorem eq (h : StmtsAlike p q a b) (hpq : p = q) : a = b := by
  induction h with
  | refl => rfl
  | append _ _ ih ih' => rw [ih, ih']
  | value | jump => rw [hpq]
  | within _ _ ih => rw [ih]
  | arms bodies last _ _ ih ihlast =>
    have hbodies : (bodies.map fun x => Branch.mk x.1 x.2.1) =
        bodies.map fun x => .mk x.1 x.2.2 :=
      List.map_congr_left fun x hx => by rw [ih x hx]
    have hlast : last.map Prod.fst = last.map Prod.snd := Option.map_congr ihlast
    rw [hbodies, hlast]

/-- Without a return the lines are alike one by one. -/
theorem lines (h : StmtsAlike p q a b) (hp : p.returns = false) (hq : q.returns = false) :
    List.Forall₂ (LineAlike p q) (blockLines a) (blockLines b) := by
  induction h with
  | refl a => exact forall₂_lineAlike_same _
  | append _ _ ih ih' =>
    rw [blockLines_append, blockLines_append]
    exact List.rel_append ih ih'
  | value code => exact .cons (.inr ⟨code.text, rfl, rfl⟩) .nil
  | jump code label =>
    simp only [blockLines, Stmt.lines, hp, hq]
    exact .cons (.inr ⟨code.text, rfl, rfl⟩) (forall₂_lineAlike_same _)
  | within _ hf ih =>
    simp only [blockLines, hf, List.append_nil]
    exact .cons (.inl rfl) (List.rel_append ih (forall₂_lineAlike_same _))
  | arms bodies last _ _ ih ihlast =>
    simp only [blockLines, List.append_nil]
    have hend : List.Forall₂ (LineAlike p q) (otherwiseLines (last.map Prod.fst))
        (otherwiseLines (last.map Prod.snd)) := by
      cases last with
      | none => exact forall₂_lineAlike_same _
      | some x => exact .cons (.inl rfl) (List.rel_append (ihlast x rfl) (forall₂_lineAlike_same _))
    cases bodies with
    | nil => exact hend
    | cons x bodies =>
      obtain ⟨hx, hbodies⟩ := List.forall_mem_cons.mp ih
      exact .cons (.inl rfl)
        (List.rel_append (List.rel_append hx (branchLines_alike hbodies)) hend)

end StmtsAlike

/-- Branches with the same condition and bodies that are alike. -/
inductive BranchAlike (p q : Tail) : Branch → Branch → Prop where
  | mk (cond : Expr) {a b : List Stmt} (body : StmtsAlike p q a b) :
      BranchAlike p q (.mk cond a) (.mk cond b)

theorem StmtsAlike.branch {xs ys : List Branch} {x y : Option (List Stmt)}
    (hbranches : List.Forall₂ (BranchAlike p q) xs ys)
    (hotherwise : Option.Rel (StmtsAlike p q) x y) :
    StmtsAlike p q [.branch xs x] [.branch ys y] := by
  obtain ⟨bodies, rfl, rfl, hbodies⟩ : ∃ bodies : List (Expr × List Stmt × List Stmt),
      (bodies.map fun x => .mk x.1 x.2.1) = xs ∧ (bodies.map fun x => .mk x.1 x.2.2) = ys ∧
        ∀ x ∈ bodies, StmtsAlike p q x.2.1 x.2.2 := by
    induction hbranches with
    | nil => exact ⟨[], rfl, rfl, List.forall_mem_nil _⟩
    | cons hxy _ ih =>
      obtain ⟨bodies, rfl, rfl, hbodies⟩ := ih
      cases hxy with
      | @mk cond a b body =>
        exact ⟨(cond, a, b) :: bodies, rfl, rfl, List.forall_mem_cons.mpr ⟨body, hbodies⟩⟩
  cases hotherwise with
  | none => exact .arms bodies none hbodies (by simp)
  | @some a b body => exact .arms bodies (some (a, b)) hbodies (by simpa using body)

theorem StmtsAlike.branchOne (cond : Expr) {a b : List Stmt} (h : StmtsAlike p q a b) :
    StmtsAlike p q [.branch [.mk cond a] none] [.branch [.mk cond b] none] :=
  .branch (.cons (.mk cond h) .nil) .none

end Js

open Js (StmtsAlike)

/-! ## Patterns -/

/-- What a pattern can tell apart in what is known. -/
structure Vocabulary.Alike (v w : Vocabulary) : Prop where
  arity : ∀ path name, v.arity? path name = w.arity? path name
  resolve : ∀ name, v.scopes.resolve name = w.scopes.resolve name

namespace Pat

variable {v w : Vocabulary}

mutual

theorem compile_congr (h : v.Alike w) {place : Js.Access} : ∀ p : Pat,
    p.compile v place = p.compile w place
  | wild | rest | bare | lit _ | range .. => by simp only [compile]
  | ident _ _ _ none | path _ => by simp only [compile, h.resolve]
  | ident _ _ _ (some sub) => by simp only [compile, compile_congr h sub]
  | ref p => by simp only [compile, compile_congr h p]
  | tuple elems | slice elems => by simp only [compile, compileAt_congr h elems]
  | tupleStruct segments elems => by
    simp only [compile, Vocabulary.layout, h.arity, compileAt_congr h elems]
  | struct segments fields _ => by simp only [compile, compileFields_congr h fields]
  | alt alts => by simp only [compile, compileEach_congr h alts]

theorem compileAt_congr (h : v.Alike w) : ∀ (ps : List Pat) (places : List Js.Access),
    compileAt v ps places = compileAt w ps places
  | [], _ | _ :: _, [] => by simp only [compileAt]
  | p :: ps, place :: places => by
    simp only [compileAt, compile_congr h p, compileAt_congr h ps places]

theorem compileEach_congr (h : v.Alike w) {place : Js.Access} : ∀ ps : List Pat,
    compileEach v place ps = compileEach w place ps
  | [] => by simp only [compileEach]
  | p :: ps => by simp only [compileEach, compile_congr h p, compileEach_congr h ps]

theorem compileFields_congr (h : v.Alike w) {place : Js.Access} : ∀ fs : List FieldPat,
    compileFields v place fs = compileFields w place fs
  | [] => by simp only [compileFields]
  | ⟨_, p⟩ :: fs => by simp only [compileFields, compile_congr h p, compileFields_congr h fs]

end

end Pat

namespace Emit

/-- Twins that give statements, which may differ in where values go. -/
abbrev TwinLines (T : Tie) (p q : Js.Tail) (x y : Emit (List Js.Stmt)) : Prop :=
  Twins T p q (StmtsAlike p q) x y

theorem Twins.eqStmts {x y : Emit (List Js.Stmt)} (h : TwinLines T p p x y) : Twins T p p Eq x y :=
  h.mono fun _ _ hab => hab.eq rfl

theorem twins_matcher {pat : Pat} (h : T.Allows pat.isSound) (subject : String) :
    Twins T p q Eq (matcher pat subject) (matcher pat subject) := by
  refine .result (fun _ _ => Pat.fails_compile pat h) fun a b s t hab hst => ?_
  have halike := T.alike hab
  have hknown : Vocabulary.Alike ⟨⟨a.selfType, a.structs⟩, s.scopes⟩
      ⟨⟨b.selfType, b.structs⟩, t.scopes⟩ :=
    ⟨fun path name => by simp only [KnownTypes.arity?, halike.selfType, halike.lookup],
      T.view.resolve hst.scopes⟩
  exact Pat.compile_congr hknown pat

theorem twins_bindMatched (bs : List Bound) :
    LooseTwins T p q Eq (bindMatched bs) (bindMatched bs) := by
  induction bs with
  | nil => exact .pure rfl
  | cons b bs ih => exact (Twins.declare b.name).bindEq fun _ => ih.andReturnEq _

mutual

theorem twins_destructure : ∀ pat : Pat, T.Allows pat.isSound →
    LooseTwins T p q Eq (destructure pat) (destructure pat)
  | .ident name _ _ none, _ => (Twins.declare name).andReturnEq _
  | .ident name _ _ (some _), _ => .refuse _
  | .wild, _ | .rest, _ => .pure rfl
  | .ref pat, h => twins_destructure pat h
  | .tuple elems, h | .slice elems, h => by
    rw [destructure]
    split
    · exact .refuse _
    · exact (twins_destructureUpTo _ elems h).andReturnEq _
  | .tupleStruct path elems, h => by
    simp only [Pat.isSound, sound_and] at h
    rw [destructure]
    split
    · exact .refuse _
    · refine (Paired.ofExcept (Path.fails_last h.1)).bindEq fun name => ?_
      split
      · exact .refuse _
      · exact (twins_destructureSlots 0 elems h.2).andReturnEq _
  | .struct path fields rest, h => by
    rw [destructure]
    split
    · exact .refuse _
    · exact (twins_destructureFields fields h).andReturnEq _
  | .lit _, _ | .path _, _ | .alt _, _ | .range .., _ | .bare, _ => .refuse _

theorem twins_destructureUpTo : ∀ (count : Nat) (ps : List Pat), T.Allows (Pat.allSound ps) →
      LooseTwins T p q Eq (destructureUpTo count ps) (destructureUpTo count ps)
  | 0, _, _ => by
    rw [destructureUpTo]
    exact .pure rfl
  | _ + 1, [], _ => by
    rw [destructureUpTo]
    · exact .pure rfl
    · exact Nat.succ_ne_zero _
  | count + 1, pat :: ps, h => by
    simp only [Pat.allSound, sound_and] at h
    exact (twins_destructure pat h.1).bindEq fun _ =>
      (twins_destructureUpTo count ps h.2).andReturnEq _

theorem twins_destructureSlots : ∀ (index : Nat) (ps : List Pat), T.Allows (Pat.allSound ps) →
      LooseTwins T p q Eq (destructureSlots index ps) (destructureSlots index ps)
  | _, [], _ => .pure rfl
  | index, pat :: ps, h => by
    simp only [Pat.allSound, sound_and] at h
    exact (twins_destructure pat h.1).bindEq fun _ =>
      (twins_destructureSlots (index + 1) ps h.2).andReturnEq _

theorem twins_destructureFields : ∀ fs : List FieldPat, T.Allows (Pat.allFieldsSound fs) →
      LooseTwins T p q Eq (destructureFields fs) (destructureFields fs)
  | [], _ => .pure rfl
  | ⟨_, pat⟩ :: fs, h => by
    simp only [Pat.allFieldsSound, sound_and] at h
    exact (twins_destructure pat h.1).bindEq fun _ => (twins_destructureFields fs h.2).andReturnEq _

end

theorem twins_bindParams (index : Nat) {ps : List Param}
    (h : T.Allows (ps.all fun p => p.pat.isSound)) (targets : List String) :
    LooseTwins T p q Eq (bindParams index ps targets) (bindParams index ps targets) := by
  induction ps generalizing index targets with
  | nil => exact .pure rfl
  | cons param ps ih =>
    simp only [List.all_cons, sound_and] at h
    simp only [bindParams]
    split
    · exact (ih _ h.2 _).andReturnEq _
    · exact (twins_destructure _ h.1).bindEq fun _ => (ih _ h.2 _).andReturnEq _

theorem twins_params {ps : List Param} (h : T.Allows (ps.all fun p => p.pat.isSound)) :
    LooseTwins T p q Eq (params ps) (params ps) :=
  (Twins.seed _).bindEq fun targets => twins_bindParams 0 h targets

end Emit

/-! ## Ranges, loops and jumps -/

/-- Bounds that are the same, except for how their code is emitted. -/
structure BoundPlan.Alike (T : Tie) (p q : Js.Tail) (a b : BoundPlan) : Prop where
  code : Twins T p q Eq a.code b.code
  isLiteral : a.isLiteral = b.isLiteral
  isCompound : a.isCompound = b.isCompound

/-- Plans of one range whose ends are emitted by twins. -/
inductive RangePlan.Alike (T : Tie) (p q : Js.Tail) : RangePlan → RangePlan → Prop where
  | of {start start' stop stop' : Option BoundPlan}
      (hstart : Option.Rel (BoundPlan.Alike T p q) start start')
      (hstop : Option.Rel (BoundPlan.Alike T p q) stop stop') (inclusive : Bool) :
      Alike T p q ⟨start, stop, inclusive⟩ ⟨start', stop', inclusive⟩

theorem BoundPlan.Alike.operand {a b : BoundPlan} (h : a.Alike T p q b) :
    Twins T p q Eq a.operand b.operand := by
  unfold BoundPlan.operand
  rw [h.isCompound]
  exact h.code.andReturnEq _

namespace RangePlan.Alike

variable {a b : RangePlan}

theorem value (h : a.Alike T p q b) : Twins T p q Eq a.value b.value := by
  obtain ⟨hstart, hstop, inclusive⟩ := h
  cases hstop with
  | none => exact .refuse _
  | some hstop =>
    refine hstop.operand.bindEq fun _ => ?_
    cases hstart with
    | none => exact (Paired.pure rfl).andReturnEq _
    | some hstart => exact hstart.operand.andReturnEq _

theorem slice (h : a.Alike T p q b) (obj : Js.Expr) :
    Twins T p q Eq (RangePlan.slice obj a) (RangePlan.slice obj b) := by
  obtain @⟨start, start', stop, stop', hstart, hstop, inclusive⟩ := h
  -- the part behind the first bound, for whatever that bound gives
  have hrest : ∀ first,
      Twins T p q Eq (RangePlan.slice obj ⟨some ⟨pure first, false, false⟩, stop, inclusive⟩)
        (RangePlan.slice obj ⟨some ⟨pure first, false, false⟩, stop', inclusive⟩) := by
    intro first
    refine (Paired.pure rfl).bindEq fun _ => ?_
    cases hstop with
    | none => exact .pure rfl
    | some hstop =>
      cases inclusive with
      | true => exact hstop.operand.bindEq fun _ => (Paired.pure rfl).andReturnEq _
      | false => exact hstop.code.andReturnEq _
  cases hstart with
  | none => exact hrest _
  | some hstart => exact hstart.code.bindEq hrest

end RangePlan.Alike

namespace Emit

section

variable {label : Option String} {body body' : Emit (List Js.Stmt)} {tail tail' : Option Js.Tail}

theorem twins_loopBody (htail : TailsAlike p q tail tail') (h : TwinLines T p q body body') :
    TwinLines T p q (loopBody label tail body) (loopBody label tail' body') :=
  Twins.inTarget ⟨rfl, htail, rfl⟩ h

theorem looseTwins_loopBody (h : TwinLines T p q body body') :
    LooseTwins T p q (StmtsAlike p q) (loopBody label none body) (loopBody label none body') :=
  (twins_loopBody (.same none) h).loose

theorem twins_whileLoop {cond cond' : Emit Js.Expr} (hcond : Twins T p q Eq cond cond')
    (h : TwinLines T p q body body') :
    TwinLines T p q (whileLoop cond label body) (whileLoop cond' label body') :=
  hcond.bindEq fun _ => (twins_loopBody (.same _) h).andReturn fun _ _ hab => hab.within fun _ => rfl

theorem twins_endlessLoop (htail : TailsAlike p q tail tail') (h : TwinLines T p q body body') :
    TwinLines T p q (endlessLoop label tail body) (endlessLoop label tail' body') :=
  (twins_loopBody htail h).andReturn fun _ _ hab => hab.within fun _ => rfl

theorem twins_matched {bs : List Bound} (h : TwinLines T p q body body') :
    TwinLines T p q (inScope do return (← bindMatched bs) ++ (← body))
      (inScope do return (← bindMatched bs) ++ (← body')) :=
  Twins.inScope ((twins_bindMatched bs).bindEq fun bindings =>
    h.loose.andReturn fun _ _ hab => (StmtsAlike.refl bindings).append hab)

variable {pat : Pat}

theorem twins_whileLet {value value' : Emit Js.Expr} (hpat : T.Allows pat.isSound)
    (hvalue : Twins T p q Eq value value') (h : TwinLines T p q body body') :
    TwinLines T p q (whileLet pat value label body) (whileLet pat value' label body') := by
  refine (Twins.fresh (by decide)).bindEq fun temp => hvalue.bindEq fun code => ?_
  refine (twins_matcher hpat temp).bindEq fun m => ?_
  refine (twins_loopBody (.same _) (twins_matched h)).andReturn fun _ _ hab => ?_
  exact ((hab.cons _).cons _).within fun _ => rfl

theorem twins_counter (pat : Pat) : LooseTwins T p q Eq (counter pat) (counter pat) := by
  unfold counter
  split
  · exact Twins.declare _
  · exact (Twins.fresh (by decide)).loose

theorem twins_limitFor {a b : BoundPlan} (h : a.Alike T p q b) :
    Twins T p q Eq (limitFor a) (limitFor b) := by
  unfold limitFor
  rw [h.isLiteral]
  split
  · exact .pure rfl
  · exact (Twins.fresh (by decide)).andReturnEq _

theorem twins_countLoop {start stop start' stop' : BoundPlan} (hstart : start.Alike T p q start')
    (hstop : stop.Alike T p q stop') (h : TwinLines T p q body body')
    (inclusive isReversed : Bool) :
    TwinLines T p q (countLoop pat start stop inclusive isReversed label body)
      (countLoop pat start' stop' inclusive isReversed label body') := by
  refine hstart.code.bindEq fun _ => hstop.code.bindEq fun _ => Twins.inScope ?_
  refine (twins_counter pat).bindEq fun _ => ?_
  cases isReversed with
  | true =>
    rw [if_pos rfl, if_pos rfl, hstop.isCompound]
    exact (twins_limitFor hstart).loose.bindEq fun _ =>
      (looseTwins_loopBody h).andReturn fun _ _ hab => hab.within fun _ => rfl
  | false =>
    exact (twins_limitFor hstop).loose.bindEq fun _ =>
      (looseTwins_loopBody h).andReturn fun _ _ hab => hab.within fun _ => rfl

theorem twins_eachLoop {source : Js.Expr} (hpat : T.Allows pat.isSound)
    (h : TwinLines T p q body body') :
    TwinLines T p q (eachLoop pat source label body) (eachLoop pat source label body') := by
  refine .inScope ((twins_destructure pat hpat).bindEq fun binding => ?_)
  split
  · exact (Twins.fresh (by decide)).loose.bindEq fun _ => (Paired.pure rfl).bindEq fun _ =>
      (looseTwins_loopBody h).andReturn fun _ _ hab => hab.within fun _ => rfl
  · exact (Paired.pure rfl).bindEq fun _ =>
      (looseTwins_loopBody h).andReturn fun _ _ hab => hab.within fun _ => rfl

/-- Plans of what a loop runs over, emitted by twins. -/
inductive Source.Alike (T : Tie) (p q : Js.Tail) : Source → Source → Prop where
  | range {a b : RangePlan} (plan : a.Alike T p q b) (isReversed : Bool) :
      Alike T p q (.range a isReversed) (.range b isReversed)
  | enumerated {x y : Emit Js.Expr} (items : Twins T p q Eq x y) :
      Alike T p q (.enumerated x) (.enumerated y)
  | elements {x y : Emit Js.Expr} (code : Twins T p q Eq x y) :
      Alike T p q (.elements x) (.elements y)

theorem Source.Alike.code {a b : Source} (h : a.Alike T p q b) (pat : Pat) :
    Twins T p q Eq (a.code pat) (b.code pat) := by
  cases h with
  | range plan isReversed => exact plan.value.andReturnEq _
  | enumerated items => exact items.andReturnEq _
  | elements code => exact code.andReturnEq _

theorem twins_forLoop {source source' : Source} (hpat : T.Allows pat.isSound)
    (hsource : source.Alike T p q source') (h : TwinLines T p q body body') :
    TwinLines T p q (forLoop pat source label body) (forLoop pat source' label body') := by
  have heach : TwinLines T p q
      (do eachLoop pat (← source.code pat) label body)
      (do eachLoop pat (← source'.code pat) label body') :=
    (hsource.code pat).bindEq fun _ => twins_eachLoop hpat h
  cases hsource with
  | enumerated items => exact heach
  | elements code => exact heach
  | range plan isReversed =>
    obtain ⟨hstart, hstop, inclusive⟩ := plan
    cases hstart with
    | none => exact heach
    | some hstart =>
      cases hstop with
      | none => exact heach
      | some hstop =>
        unfold forLoop
        cases hcounter : isCounter pat with
        | true => exact twins_countLoop hstart hstop h inclusive isReversed
        | false => exact heach

end

theorem find?_alike {as bs : List JumpTarget} (h : List.Forall₂ (JumpTarget.Alike p q) as bs)
    (label : Option String) :
    Option.Rel (JumpTarget.Alike p q) (as.find? (JumpTarget.accepts label))
      (bs.find? (JumpTarget.accepts label)) := by
  induction h with
  | nil => exact .none
  | @cons a b as bs hab _ ih =>
    have haccepts : JumpTarget.accepts label a = JumpTarget.accepts label b := by
      unfold JumpTarget.accepts
      rw [hab.label, hab.isBlock]
    rw [List.find?_cons, List.find?_cons, haccepts]
    cases JumpTarget.accepts label b with
    | true => exact .some hab
    | false => exact ih

theorem twins_findTarget (jump : Jump) (label : Option String) :
    Twins T p q (JumpTarget.Alike p q) (findTarget jump label) (findTarget jump label) := by
  refine .getBind fun s t hst => ?_
  have hfound := find?_alike hst.targets label
  generalize s.targets.find? (JumpTarget.accepts label) = found at hfound ⊢
  generalize t.targets.find? (JumpTarget.accepts label) = found' at hfound ⊢
  cases hfound with
  | some hab => exact .pure hab
  | none => cases label <;> exact .refuse _

variable {value value' : Option (Emit Js.Expr)}

theorem twins_breakTo {label : Option String} (h : Option.Rel (Twins T p q Eq) value value') :
    TwinLines T p q (breakTo label value) (breakTo label value') := by
  refine (twins_findTarget _ _).bind fun target target' htarget => ?_
  cases h with
  | none => exact .pure (.refl _)
  | some hvalue =>
    refine hvalue.bindEq fun code => ?_
    have htail := htarget.tail
    generalize target.tail = tail at htail ⊢
    generalize target'.tail = tail' at htail ⊢
    cases tail with
    | none =>
      cases htail with
      | same => exact .pure (.refl _)
    | some tail =>
      cases tail' with
      | none => cases htail
      | some tail' => exact .pure (.exit htail code _)

theorem twins_continueTo (label : Option String) :
    TwinLines T p q (continueTo label) (continueTo label) :=
  (twins_findTarget _ _).andReturn fun _ _ _ => .refl _

theorem twins_returnWith (h : Option.Rel (Twins T p q Eq) value value') :
    TwinLines T p q (returnWith value) (returnWith value') := by
  refine .getBind fun s t hst => ?_
  rw [hst.frame]
  split
  · exact .refuse _
  · cases h with
    | none => exact .pure (.refl _)
    | some hvalue => exact hvalue.bindEq fun _ => .pure (.refl _)

end Emit

/-! ## Arms of a match -/

/-- Arms with the same pattern, which is sound. -/
structure ArmPlan.Alike (T : Tie) (p q : Js.Tail) (a b : ArmPlan) : Prop where
  pat : a.pat = b.pat
  sound : T.Allows b.pat.isSound
  guard : Option.Rel (Twins T p q Eq) a.guard b.guard
  body : ∀ tail tail', TailsAlike p q tail tail' → TwinLines T p q (a.body tail) (b.body tail')

namespace ArmPlan

variable {tail tail' : Option Js.Tail} (htail : TailsAlike p q tail tail')

variable {a b : ArmPlan} {plans plans' : List ArmPlan}

theorem fails_takesSome (h : T.Allows a.pat.isSound) : Fails T.faults a.takesSome := by
  unfold takesSome
  split
  · next path elems hpat =>
    simp only [hpat, Pat.isSound, sound_and] at h
    exact (Path.fails_last h.1).andReturn _
  · exact .ok _

theorem fails_takesNone (h : T.Allows a.pat.isSound) : Fails T.faults a.takesNone := by
  unfold takesNone
  split
  · exact .ok _
  · split
    · next path hpat =>
      simp only [hpat, Pat.isSound] at h
      exact (Path.fails_last h).andReturn _
    · exact .ok _
    · exact .ok _
    · exact .ok _

theorem fails_isPair (ha : T.Allows a.pat.isSound) (hb : T.Allows b.pat.isSound) :
    Fails T.faults (isPair a b) := by
  refine (fails_takesSome ha).bind fun found _ => ?_
  cases found with
  | true => exact fails_takesNone hb
  | false => exact .ok _

theorem Alike.isSome_guard (h : a.Alike T p q b) : a.guard.isSome = b.guard.isSome := by
  have hguard := h.guard
  generalize a.guard = guard at hguard ⊢
  generalize b.guard = guard' at hguard ⊢
  cases hguard <;> rfl

theorem Alike.isPair {a' b' : ArmPlan} (h : a.Alike T p q a') (h' : b.Alike T p q b') :
    a.isPair b = a'.isPair b' := by
  unfold ArmPlan.isPair ArmPlan.takesSome ArmPlan.takesNone
  rw [h.pat, h'.pat, ← Option.not_isSome, ← Option.not_isSome, h.isSome_guard, h'.isSome_guard]

theorem twins_optionPair? (h : List.Forall₂ (Alike T p q) plans plans') :
    Twins T p q
      (Option.Rel fun x y : ArmPlan × ArmPlan => x.1.Alike T p q y.1 ∧ x.2.Alike T p q y.2)
      (Emit.ofExcept (optionPair? plans)) (Emit.ofExcept (optionPair? plans')) := by
  have hnone {R : ArmPlan × ArmPlan → ArmPlan × ArmPlan → Prop} :
      Twins T p q (Option.Rel R) (Emit.ofExcept (.ok none)) (Emit.ofExcept (.ok none)) :=
    Paired.pure .none
  rcases h with _ | ⟨hfirst, _ | ⟨hsecond, _ | ⟨_, _⟩⟩⟩
  · exact hnone
  · exact hnone
  · have hfails := fails_isPair hfirst.sound hsecond.sound
    have hfails' := fails_isPair hsecond.sound hfirst.sound
    unfold optionPair?
    dsimp only
    rw [hfirst.isPair hsecond, hsecond.isPair hfirst]
    rcases hpair : isPair _ _ with e | _ | _
    · exact .throw (hfails e hpair)
    · rcases hpair' : isPair _ _ with e | _ | _
      · exact .throw (hfails' e hpair')
      · exact hnone
      · exact .pure (.some ⟨hsecond, hfirst⟩)
    · exact .pure (.some ⟨hfirst, hsecond⟩)
  · exact hnone

include htail

theorem Alike.emit (h : a.Alike T p q b) (m : Matcher) (after : List Js.Stmt) :
    TwinLines T p q (a.emit m tail after) (b.emit m tail' after) := by
  obtain ⟨pat, guard, body⟩ := a
  obtain ⟨pat', guard', body'⟩ := b
  obtain ⟨-, -, hguard, hbody⟩ := h
  have hbody := (hbody tail tail' htail).loose
  refine .inScope ((twins_bindMatched _).bindEq fun bindings => ?_)
  cases hguard with
  | none =>
    refine hbody.andReturn fun _ _ hab => ?_
    exact ((StmtsAlike.refl bindings).append hab).append (.refl after)
  | some hguard =>
    refine hguard.loose.bindEq fun cond => hbody.andReturn fun _ _ hab => ?_
    exact (StmtsAlike.refl bindings).append (.branchOne cond (hab.append (.refl after)))

theorem twins_chain (h : List.Forall₂ (Alike T p q) plans plans') (subject : String) :
    Twins T p q
      (fun x y => List.Forall₂ (Js.BranchAlike p q) x.1 y.1 ∧ Option.Rel (StmtsAlike p q) x.2 y.2)
      (chain subject tail plans) (chain subject tail' plans') := by
  induction h with
  | nil => exact .pure ⟨.nil, .none⟩
  | cons hab hrest ih =>
    rw [chain, chain, hab.pat]
    refine (twins_matcher hab.sound _).bindEq fun m => ?_
    refine (hab.emit htail m []).bind fun body body' hbody => ?_
    split
    · exact .pure ⟨.nil, .some hbody⟩
    · exact ih.andReturn fun _ _ hxy => ⟨.cons (.mk _ hbody) hxy.1, hxy.2⟩

omit htail in
theorem branchStmts_alike {xs ys : List Js.Branch} {x y : Option (List Js.Stmt)}
    (hbranches : List.Forall₂ (Js.BranchAlike p q) xs ys)
    (hotherwise : Option.Rel (StmtsAlike p q) x y) :
    StmtsAlike p q (branchStmts xs x) (branchStmts ys y) := by
  have hbranch := StmtsAlike.branch hbranches hotherwise
  cases hbranches with
  | cons _ _ => exact hbranch
  | nil =>
    cases hotherwise with
    | none => exact .refl _
    | some hbody => exact hbody.within fun _ => rfl

theorem twins_sequence (h : List.Forall₂ (Alike T p q) plans plans') (label subject : String) :
    TwinLines T p q (sequence label subject tail plans)
      (sequence label subject tail' plans') := by
  induction h with
  | nil => exact .pure (.refl _)
  | cons hab hrest ih =>
    rw [sequence, sequence, hab.pat]
    refine (twins_matcher hab.sound _).bindEq fun m => ?_
    refine (hab.emit htail m _).bind fun body body' hbody => ?_
    rw [← Option.not_isSome, ← Option.not_isSome, hab.isSome_guard]
    split
    · split
      · exact .pure (hbody.within fun _ => rfl)
      · exact ih.andReturn fun _ _ hxy => (hbody.within fun _ => rfl).append hxy
    · exact ih.andReturn fun _ _ hxy => (StmtsAlike.branchOne _ hbody).append hxy

theorem twins_pair {present absent present' absent' : ArmPlan} (h : present.Alike T p q present')
    (h' : absent.Alike T p q absent') (subject : String) :
    TwinLines T p q (pair subject tail present absent)
      (pair subject tail' present' absent') := by
  unfold pair
  rw [h.pat]
  refine (twins_matcher h.sound _).bindEq fun m => (h.emit htail m []).bind fun yes yes' hyes => ?_
  refine (h'.emit htail {} []).andReturn fun no no' hno => ?_
  exact .branch (.cons (.mk _ hyes) .nil) (.some hno)

theorem twins_ladder (h : List.Forall₂ (Alike T p q) plans plans') (subject : String) :
    TwinLines T p q (ladder subject tail plans) (ladder subject tail' plans') := by
  have hguards : (plans.any fun a => a.guard.isSome) = plans'.any fun a => a.guard.isSome := by
    induction h with
    | nil => rfl
    | cons hab _ ih => rw [List.any_cons, List.any_cons, hab.isSome_guard, ih]
  unfold ladder
  rw [hguards]
  split
  · exact (Twins.fresh (by decide)).bindEq fun label =>
      (twins_sequence htail h label subject).andReturn fun _ _ hab => hab.within fun _ => rfl
  · exact (twins_chain htail h subject).andReturn fun _ _ hab => branchStmts_alike hab.1 hab.2

theorem twins_arms (h : List.Forall₂ (Alike T p q) plans plans') (subject : String) :
    TwinLines T p q (arms subject tail plans) (arms subject tail' plans') := by
  refine (twins_optionPair? h).bind fun found found' hfound => ?_
  cases hfound with
  | none => exact twins_ladder htail h subject
  | some hpair => exact twins_pair htail hpair.1 hpair.2 subject

end ArmPlan

/-! ## Positions -/

namespace Position

/-- Positions of the same kind, with tails that are alike. -/
inductive Alike (p q : Js.Tail) : Position → Position → Prop where
  | value : Alike p q .value .value
  | statement {tail tail' : Option Js.Tail} (tails : TailsAlike p q tail tail') :
      Alike p q (.statement tail) (.statement tail')
  | part : Alike p q .part .part

/-- Code in positions that are alike: statements may differ in where values go. -/
def CodeAlike (p q : Js.Tail) : (pos pos' : Position) → pos.Code → pos'.Code → Prop
  | .value, .value => Eq
  | .statement _, .statement _ => StmtsAlike p q
  | .part, .part => Eq
  | _, _ => fun _ _ => False

theorem Alike.refl (p : Js.Tail) (pos : Position) : Alike p p pos pos := by
  cases pos with
  | value => exact .value
  | statement tail => exact .statement (.same tail)
  | part => exact .part

theorem CodeAlike.eq {pos : Position} {a b : pos.Code} (h : CodeAlike p p pos pos a b) : a = b := by
  cases pos with
  | value => exact h
  | statement tail => exact StmtsAlike.eq h rfl
  | part => exact h

variable {pos pos' : Position} (hpos : Alike p q pos pos')

include hpos

variable {code code' : Emit Js.Expr} {body body' : Option Js.Tail → Emit (List Js.Stmt)}

theorem Alike.plain (h : Twins T p q Eq code code') :
    Twins T p q (CodeAlike p q pos pos') (pos.plain code) (pos'.plain code') := by
  cases hpos with
  | value => exact h
  | part => exact h.andReturnEq _
  | @statement tail tail' tails =>
    cases tail with
    | none =>
      cases tails with
      | same => exact h.bindEq fun _ => .pure (StmtsAlike.refl _)
    | some tail =>
      cases tail' with
      | none => cases tails
      | some tail' => exact h.bindEq fun code => .pure (StmtsAlike.deliver tails code)

theorem Alike.control (hpq : T.tails p q)
    (h : ∀ p q, T.tails p q → ∀ tail tail', TailsAlike p q tail tail' →
      TwinLines T p q (body tail) (body' tail')) :
    Twins T p q (CodeAlike p q pos pos') (pos.control body) (pos'.control body') := by
  have hvalue : Twins T p q Eq (asValue (body (some .ret))) (asValue (body' (some .ret))) :=
    Twins.asValue (h .ret .ret T.returns _ _ (.same _)).eqStmts
  cases hpos with
  | value => exact hvalue
  | statement tails => exact h p q hpq _ _ tails
  | part => exact hvalue.andReturnEq _

theorem Alike.either (hpq : T.tails p q) {code code' : Option (Emit Js.Expr)}
    (hcode : Option.Rel (Twins T p q Eq) code code')
    (hbody : ∀ p q, T.tails p q → ∀ tail tail', TailsAlike p q tail tail' →
      TwinLines T p q (body tail) (body' tail')) :
    Twins T p q (CodeAlike p q pos pos') (pos.either code body) (pos'.either code' body') := by
  have hcontrol := hpos.control hpq hbody
  cases hcode with
  | none => cases hpos <;> exact hcontrol
  | some hcode =>
    cases hpos with
    | value => exact hcode
    | statement tails => exact hcontrol
    | part => exact hcode.andReturnEq _

theorem Alike.jump {body body' : Emit (List Js.Stmt)}
    (h : TwinLines T p q body body') (jump : Jump) :
    Twins T p q (CodeAlike p q pos pos') (pos.jump jump body) (pos'.jump jump body') := by
  cases hpos with
  | value => exact .refuse _
  | statement tails => exact h
  | part => exact .refuse _

theorem Alike.assignment (h : Twins T p q Eq code code') :
    Twins T p q (CodeAlike p q pos pos') (pos.assignment code) (pos'.assignment code') := by
  cases hpos with
  | value => exact h
  | statement tails => exact h.bindEq fun _ => .pure (StmtsAlike.refl _)
  | part => exact h.andReturnEq _

theorem Alike.literal (h : Twins T p q Eq code code') (text : Option String) :
    Twins T p q (CodeAlike p q pos pos') (pos.literal text code) (pos'.literal text code') := by
  have hplain := hpos.plain h
  cases hpos with
  | value => exact hplain
  | statement tails => exact hplain
  | part =>
    cases text with
    | none => exact hplain
    | some text => exact .pure rfl

theorem Alike.sum {parts parts' : Emit (List Js.Part)} (hparts : Twins T p q Eq parts parts')
    (hcode : Twins T p q Eq code code') (isSum : Bool) :
    Twins T p q (CodeAlike p q pos pos') (pos.sum isSum parts code)
      (pos'.sum isSum parts' code') := by
  have hplain := hpos.plain hcode
  cases hpos with
  | value => exact hplain
  | statement tails => exact hplain
  | part =>
    cases isSum with
    | false => exact hplain
    | true => exact hparts

end Position

/-! ## Expressions -/

namespace Emit

theorem twins_valueOrThrow {value : Literal} (h : T.Allows value.isWritable) :
    Twins T p q Eq (literal value) (literal value) := by
  unfold literal
  split
  · exact .pure rfl
  · split
    · exact .pure rfl
    · next hwritable => exact .throw (h.imp_right fun h => absurd h hwritable)

variable {segments : List String} {value value' : Emit Js.Expr} {body body' : Emit (List Js.Stmt)}
  {pat : Pat} {tail tail' : Option Js.Tail} {operand operand' : Emit Js.Expr}

theorem isSome_lastTwo? (h : (!segments.isEmpty) = true) (hsingle : ∀ name, segments ≠ [name]) :
    (Path.lastTwo? segments).isSome = true := by
  obtain ⟨first, second, rest, rfl⟩ : ∃ first second rest, segments = first :: second :: rest := by
    rcases segments with _ | ⟨first, _ | ⟨second, rest⟩⟩
    · cases h
    · exact absurd rfl (hsingle first)
    · exact ⟨first, second, rest, rfl⟩
  have htwo : 2 ≤ (first :: second :: rest).reverse.length := by simp
  unfold Path.lastTwo?
  rcases hrev : (first :: second :: rest).reverse with _ | ⟨last, _ | ⟨owner, init⟩⟩
  · simp [hrev] at htwo
  · simp [hrev] at htwo
  · rfl

theorem twins_path (h : T.Allows (!segments.isEmpty)) :
    Twins T p q Eq (path segments) (path segments) := by
  unfold path
  split
  · exact (Paired.ident _).andReturnEq _
  · next hsingle =>
    split
    · next hnone =>
      refine .throw (h.imp_right fun h => ?_)
      have := isSome_lastTwo? h hsingle
      rw [hnone] at this
      cases this
    · split
      · exact .pure rfl
      · split
        · exact .pure rfl
        · exact (Paired.typeName _).andReturnEq _

theorem twins_unary (h : Twins T p q Eq operand operand') (op : String) :
    Twins T p q Eq (unary op operand) (unary op operand') := by
  unfold unary
  split
  · exact h.andReturnEq _
  · exact .refuse _

theorem twins_binary {parts parts' : Emit (List Js.Part)} {left left' right right' : Emit Js.Expr}
    (hparts : Twins T p q Eq parts parts') (hleft : Twins T p q Eq left left')
    (hright : Twins T p q Eq right right') (op : String) (isText : Bool) :
    Twins T p q Eq (binary op isText parts left right) (binary op isText parts' left' right') := by
  unfold binary
  split
  · exact .refuse _
  · split
    · exact hparts.andReturnEq _
    · exact hleft.bindEq fun _ => hright.andReturnEq _

theorem twins_assign {target target' : Emit Js.Expr} (htarget : Twins T p q Eq target target')
    (hvalue : Twins T p q Eq value value') (op : String) :
    Twins T p q Eq (assign op target value) (assign op target' value') := by
  unfold assign
  split
  · exact htarget.bindEq fun _ => hvalue.andReturnEq _
  · exact .refuse _

theorem twins_callName (name : String) (args : List Js.Expr) :
    Twins T p q Eq (callName name args) (callName name args) := by
  refine .readBind fun a b hab => ?_
  rw [hab.lookup]
  split
  · exact (Paired.typeName _).andReturnEq _
  · exact (Paired.ident _).andReturnEq _

theorem twins_callPath (h : T.Allows (Path.lastTwo? segments).isSome) (args : List Js.Expr) :
    Twins T p q Eq (callPath segments args) (callPath segments args) := by
  unfold callPath
  split
  · next hnone =>
    rw [hnone] at h
    exact .throw (h.imp_right nofun)
  · refine (Paired.typeName _).bindEq fun owner => ?_
    split
    · exact .pure rfl
    · exact .pure rfl

theorem twins_structLit {path : List String} (hpath : T.Allows (!path.isEmpty))
    {base base' : Option (Emit Js.Expr)} (h : Option.Rel (Twins T p q Eq) base base')
    (values : List (String × Js.Expr)) :
    Twins T p q Eq (structLit path values base) (structLit path values base') := by
  refine (Paired.ofExcept (Path.fails_last hpath)).bindEq fun name => ?_
  split
  · cases h with
    | none => exact .pure rfl
    | some hbase => exact hbase.andReturnEq _
  · refine (Paired.typeName _).bindEq fun type => ?_
    cases h with
    | some hbase => exact hbase.andReturnEq _
    | none =>
      refine .readBind fun a b hab => ?_
      rw [hab.selfType, hab.lookup]
      split
      · exact (Twins.fresh (by decide)).andReturnEq _
      · split
        · exact .pure rfl
        · exact .pure rfl

theorem twins_tryOp (h : Twins T p q Eq operand operand') :
    Twins T p q Eq (tryOp operand) (tryOp operand') := by
  refine .getBind fun s t hst => ?_
  rw [hst.callers]
  split
  · exact Paired.refuse _
  · exact Twins.markTry.bindEq fun _ => h.andReturnEq _

section

variable {ps : List Param} (hps : T.Allows (ps.all fun p => p.pat.isSound)) (isAsync : Bool)
include hps

theorem twins_withParams {α : Type} {body body' : Emit α} (h : Twins T .ret .ret Eq body body') :
    Twins T p q Eq (inFunction isAsync (inScope do return (← params ps, ← body)))
      (inFunction isAsync (inScope do return (← params ps, ← body'))) :=
  have hinside := (twins_params hps).bindEq fun _ => h.loose.andReturnEq _
  Twins.inFunction (Twins.inScope hinside) isAsync

theorem twins_function (h : TwinLines T .ret .ret body body') :
    Twins T p q Eq (function isAsync ps body) (function isAsync ps body') :=
  (twins_withParams hps isAsync h.eqStmts).andReturnEq _

theorem twins_closure {body body' : Emit ClosureBody} (h : Twins T .ret .ret Eq body body') :
    Twins T p q Eq (closure isAsync ps body) (closure isAsync ps body') := by
  refine (twins_withParams hps isAsync h).bindEq fun _ => ?_
  dsimp only
  split <;> exact .pure rfl

end

theorem twins_asyncBlock (h : TwinLines T .ret .ret body body') :
    Twins T p q Eq (asyncBlock body) (asyncBlock body') :=
  (Twins.inFunction h.eqStmts true).andReturnEq _

/-! ## Statements -/

theorem twins_blockStmt (htail : TailsAlike p q tail tail') (h : TwinLines T p q body body')
    (label : Option String) :
    TwinLines T p q (blockStmt label tail body) (blockStmt label tail' body') := by
  cases label with
  | none => exact h.andReturn fun _ _ hab => hab.within fun _ => rfl
  | some name =>
    have htarget : JumpTarget.Alike p q ⟨some name, tail, true⟩ ⟨some name, tail', true⟩ :=
      ⟨rfl, htail, rfl⟩
    exact (Twins.inTarget htarget h).andReturn fun _ _ hab => hab.within fun _ => rfl

theorem twins_named (h : Twins T p q Eq value value') (isSimple : Bool) :
    Twins T p q Eq (named value isSimple) (named value' isSimple) := by
  refine h.bindEq fun code => ?_
  split
  · exact .pure rfl
  · exact (Twins.fresh (by decide)).andReturnEq _

theorem twins_ternary {cond cond' yes yes' no no' : Emit Js.Expr} (hcond : Twins T p q Eq cond cond')
    (hyes : Twins T p q Eq yes yes') (hno : Twins T p q Eq no no') :
    Twins T p q Eq (ternary cond yes no) (ternary cond' yes' no') :=
  hno.bindEq fun _ => hcond.bindEq fun _ => hyes.andReturnEq _

/-- What an `else` leads to is alike. -/
def ElseAlike (p q : Js.Tail) (x y : Else) : Prop :=
  List.Forall₂ (Js.BranchAlike p q) x.1 y.1 ∧ Option.Rel (StmtsAlike p q) x.2 y.2

theorem twins_ifLet {orelse orelse' : Emit Else} (hpat : T.Allows pat.isSound)
    (hvalue : Twins T p q Eq value value') (hbody : TwinLines T p q body body')
    (horelse : Twins T p q (ElseAlike p q) orelse orelse') (isSimple : Bool) :
    TwinLines T p q (ifLet pat value isSimple body orelse)
      (ifLet pat value' isSimple body' orelse') := by
  refine (twins_named hvalue isSimple).bindEq fun subject => ?_
  refine (twins_matcher hpat _).bindEq fun m => (twins_matched hbody).bind fun yes yes' hyes => ?_
  refine horelse.andReturn fun other other' hother => ?_
  exact (StmtsAlike.refl _).append (.branch (.cons (.mk _ hyes) hother.1) hother.2)

theorem twins_letElse (hpat : T.Allows pat.isSound) (hvalue : Twins T p q Eq value value')
    (hbody : TwinLines T p q body body') (isSimple : Bool) :
    LooseTwins T p q (StmtsAlike p q) (letElse pat value isSimple body)
      (letElse pat value' isSimple body') := by
  refine (twins_named hvalue isSimple).loose.bindEq fun subject => ?_
  refine (twins_matcher hpat _).loose.bindEq fun m => ?_
  refine hbody.loose.bind fun other other' hother => ?_
  refine (twins_bindMatched _).bindEq fun bindings => .pure ?_
  exact (StmtsAlike.refl _).append ((StmtsAlike.branchOne _ hother).append (.refl bindings))

theorem twins_letBare (pat : Pat) : LooseTwins T p q Eq (letBare pat) (letBare pat) := by
  unfold letBare
  split
  · exact (Twins.declare _).andReturnEq _
  · exact .pure rfl
  · exact .refuse _

theorem twins_letValue (hpat : T.Allows pat.isSound) (h : Twins T p q Eq value value') :
    LooseTwins T p q Eq (letValue pat value) (letValue pat value') :=
  h.loose.bindEq fun _ => (twins_destructure pat hpat).andReturnEq _

theorem twins_letControl (hpat : T.Allows pat.isSound) {body body' : Js.Tail → Emit (List Js.Stmt)}
    (h : ∀ tail, TwinLines T p q (body tail) (body' tail)) :
    LooseTwins T p q (StmtsAlike p q) (letControl pat body) (letControl pat body') := by
  unfold letControl
  split
  · exact (Twins.reserve _).bindEq fun _ => (h _).loose.bind fun _ _ hab =>
      (Twins.bindName _ _).bindEq fun _ => .pure (hab.cons _)
  · refine (Twins.fresh (by decide)).loose.bindEq fun _ => (h _).loose.bind fun _ _ hab => ?_
    refine (twins_destructure pat hpat).bindEq fun _ => .pure ?_
    exact (hab.cons _).append (.refl _)

theorem macroStmt_alike (htail : TailsAlike p q tail tail') (m : MacroCall) (semi : Bool)
    (code : Js.Expr) :
    StmtsAlike p q [macroStmt m semi tail code] [macroStmt m semi tail' code] := by
  cases htail with
  | same => exact .refl _
  | both =>
    unfold macroStmt
    dsimp only
    split
    · exact .value code
    · exact .refl _

end Emit

/-! ## Macros -/

namespace Macro

/-- Texts that are sound become the same on both sides. -/
def ReadAlike (T : Tie) (p q : Js.Tail) (ok : String → Bool) (arg arg' : String → Emit Js.Expr)
    (texts : List String) : Prop :=
  ∀ text ∈ texts, T.Allows (ok text) → Twins T p q Eq (arg text) (arg' text)

variable {ok : String → Bool} {arg arg' : String → Emit Js.Expr}

variable {parts : List String} {tokens : String} {args : Given}

theorem twins_given (hs : T.Allows (parts.all fun part => ok (argumentText part)))
    (h : ReadAlike T p q ok arg arg' (parts.map argumentText)) :
    Twins T p q (fun x y => x = y ∧ x.IsFor parts) (given arg parts) (given arg' parts) := by
  induction parts with
  | nil => exact .pure ⟨rfl, rfl⟩
  | cons part parts ih =>
    simp only [List.all_cons, sound_and] at hs
    have hpart := h _ List.mem_cons_self hs.1
    have ih := ih hs.2 fun text htext => h text (List.mem_cons_of_mem _ htext)
    simp only [given]
    rcases hnamed : namedArgument? part with _ | ⟨name, value⟩
    all_goals
      simp only [argumentText, hnamed] at hpart
      refine hpart.bindEq fun code => ih.andReturn fun _ rest hrest => ?_
      obtain ⟨rfl, hfor⟩ := hrest
      exact ⟨rfl, by simpa [Given.IsFor, hnamed] using hfor⟩

theorem twins_valueOf (hfor : args.IsFor parts) {hole : Placeholder}
    (hs : T.Allows (isSoundPiece ok (.slot hole))) (h : ∀ text ∈ captured? parts (.slot hole),
      T.Allows (ok text) → Twins T p q Eq (arg text) (arg' text))
    (template : String) (next : Nat) :
    Twins T p q Eq (valueOf arg template args next hole) (valueOf arg' template args next hole) := by
  unfold valueOf
  unfold captured? at h
  simp only [isSoundPiece] at hs
  by_cases hempty : hole.key.isEmpty = true
  · rw [if_pos hempty, if_pos hempty]
    split
    · exact .pure rfl
    · exact .throw (.inr rfl)
  · rw [if_neg hempty, if_neg hempty]
    rw [if_neg hempty] at hs
    by_cases hdigits : hole.key.toList.all Text.isDigit = true
    · rw [if_pos hdigits, if_pos hdigits]
      rw [if_pos hdigits] at hs
      split
      · next hnumber =>
        rw [hnumber] at hs
        exact .throw (hs.imp_right nofun)
      · split
        · exact .pure rfl
        · exact .throw (.inr rfl)
    · rw [if_neg hdigits, if_neg hdigits]
      rw [if_neg hdigits] at hs
      have hname : (hole.key.isEmpty || hole.key.toList.all Text.isDigit) = false := by
        simp only [Bool.eq_false_iff.mpr hempty, Bool.eq_false_iff.mpr hdigits, Bool.or_self]
      simp only [hname, Bool.false_eq_true, if_false, ← hfor.isSome_lookup] at h
      cases hlookup : args.byName.lookup hole.key with
      | some value => exact .pure rfl
      | none =>
        simp only [hlookup, Option.isSome_none, Bool.false_eq_true, if_false,
          Option.mem_some_iff, forall_eq'] at h
        exact (h hs).andReturnEq _

theorem twins_templateParts (hfor : args.IsFor parts) {pieces : List Template.Piece}
    (hs : T.Allows (pieces.all (isSoundPiece ok)))
    (h : ReadAlike T p q ok arg arg' (pieces.filterMap (captured? parts)))
    (template : String) (next : Nat) :
    Twins T p q Eq (templateParts arg template args next pieces)
      (templateParts arg' template args next pieces) := by
  induction pieces generalizing next with
  | nil => exact .pure rfl
  | cons piece pieces ih =>
    simp only [List.all_cons, sound_and] at hs
    have ih := ih hs.2 fun text htext => h text (by
      obtain ⟨piece', hmem, hcaptured⟩ := List.mem_filterMap.mp htext
      exact List.mem_filterMap.mpr ⟨piece', List.mem_cons_of_mem _ hmem, hcaptured⟩)
    cases piece with
    | text value => exact (ih next).andReturnEq _
    | slot hole =>
      have hvalue := twins_valueOf hfor hs.1 (fun text htext =>
        h text (List.mem_filterMap.mpr ⟨_, List.mem_cons_self, htext⟩)) template next
      exact hvalue.bindEq fun value => (ih value.2).andReturnEq _

theorem twins_format (hs : T.Allows (isSoundFormat ok tokens))
    (h : ReadAlike T p q ok arg arg' (formatTexts tokens)) :
    Twins T p q Eq (format arg tokens) (format arg' tokens) := by
  refine .ofExceptBind (Arguments.fails_split _ _) fun parts hparts => ?_
  unfold formatTexts at h
  rw [hparts] at h
  cases parts with
  | nil => exact .pure rfl
  | cons first parts =>
    simp only [isSoundFormat, hparts] at hs
    have hdecode : Fails T.faults (Literal.decode first) := by
      intro e he
      simpa only [he] using hs
    refine .ofExceptBind hdecode fun template htemplate => ?_
    simp only [htemplate, sound_and] at hs
    have hgiven := twins_given hs.1 fun text htext => h text (List.mem_append_left _ htext)
    refine hgiven.bind fun args args' hargs => ?_
    obtain ⟨rfl, hfor⟩ := hargs
    refine .ofExceptBind (Template.fails_pieces _) fun pieces hpieces => ?_
    simp only [hpieces] at hs
    split
    · refine (twins_templateParts hfor hs.2 (fun text htext => h text ?_) template 0).andReturnEq _
      simp only [capturedIn, htemplate, hpieces]
      exact List.mem_append_right _ htext
    · exact .pure rfl

theorem twins_each (hs : T.Allows (parts.all ok)) (h : ReadAlike T p q ok arg arg' parts) :
    Twins T p q Eq (each arg parts) (each arg' parts) := by
  induction parts with
  | nil => exact .pure rfl
  | cons part parts ih =>
    simp only [List.all_cons, sound_and] at hs
    exact (h part List.mem_cons_self hs.1).bindEq fun _ =>
      (ih hs.2 fun text htext => h text (List.mem_cons_of_mem _ htext)).andReturnEq _

theorem twins_vector (hs : T.Allows (isSoundVector ok tokens))
    (h : ReadAlike T p q ok arg arg' (vectorTexts tokens)) :
    Twins T p q Eq (vector arg tokens) (vector arg' tokens) := by
  refine .ofExceptBind (Arguments.fails_split _ _) fun parts hparts => ?_
  unfold vectorTexts at h
  unfold isSoundVector at hs
  rw [hparts] at h hs
  have helements
      (hs : ∀ elems, Arguments.split tokens ',' = .ok elems → T.Allows (elems.all ok))
      (h : ReadAlike T p q ok arg arg' (elementTexts tokens)) :
      Twins T p q Eq
        (do return Js.Expr.array (← each arg (← Emit.ofExcept (Arguments.split tokens ','))))
        (do return Js.Expr.array (← each arg' (← Emit.ofExcept (Arguments.split tokens ',')))) := by
    refine .ofExceptBind (Arguments.fails_split _ _) fun elems helems => ?_
    unfold elementTexts at h
    rw [helems] at h
    exact (twins_each (hs elems helems) h).andReturnEq _
  rcases parts with _ | ⟨value, _ | ⟨count, _ | ⟨third, parts⟩⟩⟩
  · exact helements (fun _ helems => by rw [helems] at hs; exact hs) h
  · exact helements (fun _ helems => by rw [helems] at hs; exact hs) h
  · simp only [sound_and] at hs
    exact (h value List.mem_cons_self hs.1).bindEq fun _ =>
      (h count (List.mem_cons_of_mem _ List.mem_cons_self) hs.2).andReturnEq _
  · exact helements (fun _ helems => by rw [helems] at hs; exact hs) h

theorem twins_message (hs : T.Allows (isSoundFormat ok tokens))
    (h : ReadAlike T p q ok arg arg' (messageTexts tokens)) (func : String)
    (default : List Js.Expr) :
    Twins T p q Eq
      (do
        if (Text.strip tokens).isEmpty then return Idiom.named func default
        else return Idiom.named func [← format arg tokens])
      (do
        if (Text.strip tokens).isEmpty then return Idiom.named func default
        else return Idiom.named func [← format arg' tokens]) := by
  unfold messageTexts at h
  split
  · exact .pure rfl
  · next hblank =>
    rw [if_neg hblank] at h
    exact (twins_format hs h).andReturnEq _

theorem twins_assertMessage {message : List String}
    (hs : T.Allows (isSoundFormat ok (Js.commas message))) (h : ReadAlike T p q ok arg arg'
      (if message.isEmpty then [] else formatTexts (Js.commas message)))
    (default : Js.Expr) (f : Js.Expr → Js.Expr) :
    Twins T p q Eq
      (do
        let text ← if message.isEmpty then pure default else format arg (Js.commas message)
        return f text)
      (do
        let text ← if message.isEmpty then pure default else format arg' (Js.commas message)
        return f text) := by
  split
  · exact .pure rfl
  · next hmessage =>
    rw [if_neg hmessage] at h
    exact (twins_format hs h).andReturnEq f

theorem twins_assertion (hs : T.Allows (isSoundAssertion ok 1 tokens))
    (h : ReadAlike T p q ok arg arg' (assertionTexts 1 tokens)) :
    Twins T p q Eq (assertion arg tokens) (assertion arg' tokens) := by
  refine .ofExceptBind (Arguments.fails_split _ _) fun parts hparts => ?_
  unfold assertionTexts at h
  simp only [isSoundAssertion, hparts, sound_and] at hs
  rw [hparts] at h
  rcases parts with _ | ⟨cond, message⟩
  · exact .throw (.inr rfl)
  · refine (h cond List.mem_cons_self (by simpa using hs.1)).bindEq fun code => ?_
    exact twins_assertMessage hs.2 (fun text htext => h text (List.mem_append_right _ htext)) _ _

theorem twins_comparison (hs : T.Allows (isSoundAssertion ok 2 tokens))
    (h : ReadAlike T p q ok arg arg' (assertionTexts 2 tokens)) (negated : Bool) :
    Twins T p q Eq (comparison negated arg tokens) (comparison negated arg' tokens) := by
  refine .ofExceptBind (Arguments.fails_split _ _) fun parts hparts => ?_
  unfold assertionTexts at h
  simp only [isSoundAssertion, hparts, sound_and] at hs
  rw [hparts] at h
  rcases parts with _ | ⟨left, _ | ⟨right, message⟩⟩
  · exact .throw (.inr rfl)
  · exact .throw (.inr rfl)
  · have hoperands : T.Allows (ok left) ∧ T.Allows (ok right) := by simpa [or_and_left] using hs.1
    refine (h left List.mem_cons_self hoperands.1).bindEq fun code => ?_
    refine (h right (List.mem_cons_of_mem _ List.mem_cons_self) hoperands.2).bindEq fun code' => ?_
    exact twins_assertMessage hs.2 (fun text htext => h text (List.mem_append_right _ htext)) _ _

theorem twins_expander {name : String} {expander : Expander} (hmem : (name, expander) ∈ expanders)
    (hs : T.Allows (isSoundFor ok name tokens))
    (h : ReadAlike T p q ok arg arg' (textsFor name tokens)) :
    Twins T p q Eq (expander arg tokens) (expander arg' tokens) := by
  simp only [expanders, List.mem_cons, Prod.mk.injEq, List.not_mem_nil, or_false] at hmem
  rcases hmem with ⟨rfl, rfl⟩ | ⟨rfl, rfl⟩ | ⟨rfl, rfl⟩ | ⟨rfl, rfl⟩ | ⟨rfl, rfl⟩ | ⟨rfl, rfl⟩ |
    ⟨rfl, rfl⟩ | ⟨rfl, rfl⟩ | ⟨rfl, rfl⟩ | ⟨rfl, rfl⟩ | ⟨rfl, rfl⟩ | ⟨rfl, rfl⟩ | ⟨rfl, rfl⟩ |
    ⟨rfl, rfl⟩ <;>
    simp only [textsFor, String.reduceBEq, Bool.or_self, Bool.or_true, Bool.true_or,
      Bool.false_eq_true, if_true, if_false] at h
  · exact twins_format hs h
  · exact twins_message hs h _ _
  · exact twins_message hs h _ _
  · exact twins_message hs h _ _
  · exact twins_message hs h _ _
  · exact twins_vector hs h
  · exact twins_message hs h _ _
  · exact twins_message hs h _ _
  · exact twins_message hs h _ _
  · exact twins_message hs h _ _
  · exact twins_assertion hs h
  · exact twins_assertion hs h
  · exact twins_comparison hs h _
  · exact twins_comparison hs h _

variable (ok) in
/-- What a macro call is expanded to depends only on the texts that are read out of it. -/
theorem twins_expand {m : MacroCall} (hs : T.Allows (isSound ok m))
    (h : ReadAlike T p q ok arg arg' (texts m)) :
    Twins T p q Eq (expand arg m) (expand arg' m) := by
  unfold expand
  split
  · next expander hexpander =>
    obtain ⟨before, after, htable, -⟩ := List.lookup_eq_some_iff.mp hexpander
    exact twins_expander (htable ▸ List.mem_append_right _ List.mem_cons_self) hs h
  · exact .refuse _

end Macro

end RustScript
