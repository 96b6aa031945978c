/-
  What patterns, loops, jumps and arms give.

  A loop puts its body at a site from which a jump reaches it, and a jump is emitted only if the
  state holds a target for it.
-/
import RustScript.Proofs.Emit.Idioms

namespace RustScript

open Js (Policy Around Site)
open Layout (Neutral isPlainText isPlainText_append)

variable {P : Policy} {here : Setting} {law : Law}

/-- The types that patterns can know of at the place. -/
def Place.known (place : Place) : KnownTypes := ⟨place.selfType, place.structs⟩

/-- The label that is written for a label of the source, unless that is empty. -/
theorem Js.Policy.Label.of_name? {label : Option String}
    (h : ∀ name, label = some name → P.Text (labelName name)) : P.Label (labelName? label) := by
  intro target htarget
  cases label with
  | none => simp [labelName?] at htarget
  | some name =>
    rw [labelName?] at htarget
    split at htarget
    · simp at htarget
    · obtain rfl : labelName name = target := by simpa using htarget
      exact h name rfl

namespace Law.Serves

variable (serves : law.Serves P) {label : Option String} {name : String}
include serves

theorem plain (h : P.Lets (law.name name)) : P.Plain name :=
  fun hP => serves.name hP name (h (.inl hP))

theorem plain_of_mem {names : List String} (h : P.Lets (names.all law.name))
    (hname : name ∈ names) : P.Plain name :=
  serves.plain fun hP => List.all_eq_true.mp (h hP) name hname

theorem textOfLabel {label : String} (h : P.Lets (law.label label)) : P.Text (labelName label) :=
  fun hP => .of_plainText (serves.label hP label (h (.inl hP)))

theorem labelOf (h : P.Lets (label.all law.label)) : P.Label (labelName? label) :=
  Js.Policy.Label.of_name? fun name hname => serves.textOfLabel fun hP => by
    rw [hname] at h
    exact h hP

theorem labelOfJump (h : P.Lets (label.all law.jump)) : P.Label (labelName? label) :=
  Js.Policy.Label.of_name? fun name hname hP => .of_plainText (serves.jump hP name (by
    rw [hname] at h
    exact h (.inl hP)))

end Law.Serves

/-! ## Patterns -/

/-- The condition and the bindings of the matcher are fit to be written. -/
structure Matcher.Obeys (P : Policy) (m : Matcher) : Prop where
  tests : P.Text (Js.Test.condition m.tests)
  bindings : ∀ b ∈ m.bindings, P.Plain b.name ∧ P.Text b.place.text

theorem Matcher.Obeys.of_neutral {m : Matcher} (h : P.neutral → m.IsNeutral) : m.Obeys P where
  tests hP := Js.Test.neutral_condition (h hP).tests
  bindings b hb := ⟨fun hP => ((h hP).bindings b hb).2, fun hP => ((h hP).bindings b hb).1⟩

namespace Emit.Gives

theorem bindMatched {bs : List Bound} (h : ∀ b ∈ bs, P.Plain b.name ∧ P.Text b.place.text) :
    GivesLines P here false (bindMatched bs) := by
  induction bs with
  | nil => exact pure fun _ => by simp [Js.blockObeys]
  | cons b bs ih =>
    obtain ⟨hname, hplace⟩ := h b List.mem_cons_self
    refine (declare hname).bindFact fun target htarget => ?_
    refine (ih fun b hb => h b (List.mem_cons_of_mem _ hb)).map fun site lines hlines => ?_
    exact ⟨⟨htarget.text, hplace⟩, hlines⟩

section

-- the law is assumed once for the whole recursion over patterns
set_option linter.unusedSectionVars false

variable (serves : law.Serves P) {ps : List Param}
include serves

theorem matcher {pat : Pat} (h : P.Lets (pat.isLawful law)) {subject : String}
    (hsubject : P.Text subject) : Gives P here false (matcher pat subject) fun _ m =>
      m.isIrrefutable = pat.alwaysFits here.place.known ∧ m.Obeys P := by
  refine Gives.result fun s m hs hok _ _ => ?_
  have hok : pat.compile ⟨here.place.known, s.scopes⟩ (.root subject) = .ok m := hok
  refine ⟨Pat.isEmpty_compile pat hok, .of_neutral fun hP => ?_⟩
  have hresolve : ∀ name, isPlainText name = true → isPlainText (s.scopes.resolve name) = true :=
    fun name hname => hs.scopes.resolve (fun _ => hname) hP
  have hroot : Neutral (Js.Access.root subject).text.toList := hsubject hP
  exact Pat.neutral_compile (v := ⟨here.place.known, s.scopes⟩) (serves.name hP) hresolve pat
    (h (.inl hP)) hroot hok

mutual

theorem destructure : ∀ pat : Pat, P.Lets (pat.isLawful law) →
    Gives P here false (destructure pat) fun _ b => P.Text b.text
  | .ident name _ _ none, h => (declare (serves.plain h)).map fun _ _ htarget => htarget.text
  | .ident name _ _ (some _), _ => refuse _
  | .wild, _ | .rest, _ => by
    refine pure fun _ => ?_
    exact .code (by decide)
  | .ref p, h => destructure p h
  | .tuple elems, h | .slice elems, h => by
    rw [Emit.destructure]
    split
    · exact refuse _
    · exact (destructureUpTo _ elems h).map fun _ bs hbs hP =>
        Js.Binding.neutral_array fun b hb => hbs b hb hP
  | .tupleStruct path elems, h => by
    simp only [Pat.isLawful, lets_and] at h
    rw [Emit.destructure]
    split
    · exact refuse _
    · refine ofExceptBind fun name _ => ?_
      split
      · exact refuse _
      · exact (destructureSlots 0 elems h.2).map fun _ fs hfs hP =>
          Js.Binding.neutral_slots fun f hf => hfs f hf hP
  | .struct path fields rest, h => by
    simp only [Pat.isLawful, lets_and] at h
    rw [Emit.destructure]
    split
    · exact refuse _
    · exact (destructureFields fields h.2).map fun _ fs hfs hP =>
        Js.Binding.neutral_object fun f hf => ⟨(hfs f hf).1.text hP, (hfs f hf).2 hP⟩
  | .lit _, _ | .path _, _ | .alt _, _ | .range .., _ | .bare, _ => refuse _

theorem destructureUpTo : ∀ (count : Nat) (ps : List Pat), P.Lets (Pat.allLawful law ps) →
      Gives P here false (destructureUpTo count ps) fun _ bs => ∀ b ∈ bs, P.Text b.text
  | 0, _, _ => by
    rw [Emit.destructureUpTo]
    exact pure fun _ => by simp
  | _ + 1, [], _ => by
    rw [Emit.destructureUpTo]
    · exact pure fun _ => by simp
    · exact Nat.succ_ne_zero _
  | count + 1, p :: ps, h => by
    simp only [Pat.allLawful, lets_and] at h
    refine (destructure p h.1).bindFact fun b hb => ?_
    refine (destructureUpTo count ps h.2).map fun _ bs hbs => ?_
    exact List.forall_mem_cons.mpr ⟨hb, hbs⟩

theorem destructureSlots : ∀ (index : Nat) (ps : List Pat), P.Lets (Pat.allLawful law ps) →
      Gives P here false (destructureSlots index ps) fun _ fs => ∀ f ∈ fs, P.Text f.2.text
  | _, [], _ => pure fun _ => by simp
  | index, p :: ps, h => by
    simp only [Pat.allLawful, lets_and] at h
    refine (destructure p h.1).bindFact fun b hb => ?_
    refine (destructureSlots (index + 1) ps h.2).map fun _ fs hfs => ?_
    split
    · exact hfs
    · exact List.forall_mem_cons.mpr ⟨hb, hfs⟩

theorem destructureFields : ∀ fs : List FieldPat, P.Lets (Pat.allFieldsLawful law fs) →
      Gives P here false (destructureFields fs) fun _ fs => ∀ f ∈ fs, P.Plain f.1 ∧ P.Text f.2.text
  | [], _ => pure fun _ => by simp
  | ⟨name, p⟩ :: fs, h => by
    simp only [Pat.allFieldsLawful, lets_and] at h
    obtain ⟨⟨hname, hp⟩, hfs⟩ := h
    refine (destructure p hp).bindFact fun b hb => ?_
    refine (destructureFields fs hfs).map fun _ fs hfs => ?_
    split
    · exact hfs
    · exact List.forall_mem_cons.mpr ⟨⟨serves.plain hname, hb⟩, hfs⟩

end

theorem bindParams (index : Nat) (h : P.Lets (ps.all fun p => p.pat.isLawful law))
    {targets : List String} (htargets : ∀ target ∈ targets, P.Plain target) :
    Gives P here false (bindParams index ps targets) fun _ bs => ∀ b ∈ bs, P.Text b.text := by
  induction ps generalizing index targets with
  | nil => exact pure fun _ => by simp
  | cons p ps ih =>
    simp only [List.all_cons, lets_and] at h
    simp only [Emit.bindParams]
    split
    · next target targets _ =>
      have hrest := ih (index + 1) h.2 fun t ht => htargets t (List.mem_cons_of_mem _ ht)
      refine hrest.map fun _ bs hbs => ?_
      exact List.forall_mem_cons.mpr ⟨(htargets target List.mem_cons_self).text, hbs⟩
    · refine (destructure serves p.pat h.1).bindFact fun b hb => ?_
      refine (ih (index + 1) h.2 htargets).map fun _ bs hbs => ?_
      refine List.forall_mem_cons.mpr ⟨?_, hbs⟩
      unfold orUnused
      split
      · have hunused : P.Plain ("$unused" ++ toString index) := fun _ => by
          rw [isPlainText_append, isPlainText_toString]
          decide
        exact hunused.text
      · exact hb

theorem params (h : P.Lets (ps.all fun p => p.pat.isLawful law)) :
    Gives P here false (params ps) fun _ bs => P.Text (Js.paramsText bs) := by
  have hnames : ∀ name ∈ ps.filterMap fun p => p.pat.plainName?, P.Plain name := by
    intro name hname
    obtain ⟨p, hp, hplain⟩ := List.mem_filterMap.mp hname
    refine serves.plain fun hP => ?_
    have hlawful : p.pat.isLawful law = true := List.all_eq_true.mp (h hP) p hp
    unfold Pat.plainName? at hplain
    split at hplain
    · next hpat =>
      cases hplain
      rw [hpat, Pat.isLawful] at hlawful
      exact hlawful
    · cases hplain
  refine ((seed hnames).bindFact fun targets htargets => bindParams serves 0 h htargets).mono ?_
  exact fun _ bs hbs hP => Js.neutral_paramsText fun b hb => hbs b hb hP

end

end Emit.Gives

/-! ## Positions -/

namespace Position

/-- The code keeps the rules at a site. A summand falls apart into a row of texts and values. -/
def Obeys (P : Policy) (row : List (Option String)) : (pos : Position) → Site → pos.Code → Prop
  | value, site, code => code.Obeys P site.toAround
  | statement _, site, lines => Js.blockObeys P site lines
  | part, site, parts => parts.map Js.Part.text? = row ∧ Js.partsObey P site.toAround parts

/-- The text in front of a value that goes to the tail is fit to be written. -/
def TailFit (P : Policy) (tail : Option Js.Tail) : Prop := ∀ t ∈ tail, P.Text t.lead

/-- What the position puts in front of a value is fit to be written. -/
def Fit (P : Policy) : Position → Prop
  | statement tail => TailFit P tail
  | _ => True

theorem Fit.value : value.Fit P := trivial

theorem Fit.part : part.Fit P := trivial

theorem Fit.statement {tail : Option Js.Tail} (h : TailFit P tail) : (statement tail).Fit P := h

variable {tries : Bool} {pos : Position} {code : Emit Js.Expr}
  {body : Option Js.Tail → Emit (List Js.Stmt)}

theorem TailFit.none : TailFit P none := fun _ h => nomatch h

theorem TailFit.ret : TailFit P (some .ret) := by
  rintro t ⟨⟩
  exact .code (by decide)

theorem TailFit.into {target : String} (h : P.Plain target) : TailFit P (some (.into target)) := by
  rintro t ⟨⟩ hP
  exact Js.Spans.neutral ((Js.Spans.of_neutral (h.text hP)).append (.code (by decide)))

theorem gives_slot (h : Emit.GivesValue P here tries code) :
    Emit.Gives P here tries (do return [.slot (← code)] : Emit (List Js.Part))
      (part.Obeys P [none]) := by
  refine h.map fun site e he => ⟨rfl, ?_⟩
  exact ⟨he, trivial⟩

theorem Fit.plain (hpos : pos.Fit P) (h : Emit.GivesValue P here tries code) :
    Emit.Gives P here tries (pos.plain code) (pos.Obeys P [none]) := by
  cases pos with
  | value => exact h
  | part => exact gives_slot h
  | statement tail =>
    cases tail with
    | none =>
      refine h.map fun site e he => ?_
      exact ⟨he.parenIf _, trivial⟩
    | some tail =>
      refine h.map fun site e he => ?_
      exact ⟨⟨hpos tail rfl, he⟩, trivial⟩

theorem Fit.control (hpos : pos.Fit P) (hmode : P.awaits → here.mode ≠ .helper)
    (h : ∀ tail, TailFit P tail → Emit.GivesLines P here tries (body tail)) :
    Emit.Gives P here tries (pos.control body) (pos.Obeys P [none]) := by
  cases pos with
  | value => exact (h _ .ret).asValue hmode
  | statement tail => exact h tail hpos
  | part => exact gives_slot ((h _ .ret).asValue hmode)

theorem Fit.either (hpos : pos.Fit P) {code : Option (Emit Js.Expr)}
    (hmode : code = none → P.awaits → here.mode ≠ .helper)
    (hcode : ∀ x ∈ code, Emit.GivesValue P here tries x)
    (hbody : ∀ tail, TailFit P tail → Emit.GivesLines P here tries (body tail)) :
    Emit.Gives P here tries (pos.either code body) (pos.Obeys P [none]) := by
  cases code with
  | none =>
    have hcontrol : pos.either none body = pos.control body := by cases pos <;> rfl
    rw [hcontrol]
    exact hpos.control (hmode rfl) hbody
  | some code =>
    cases pos with
    | value => exact hcode code rfl
    | statement tail => exact hbody tail hpos
    | part => exact gives_slot (hcode code rfl)

theorem gives_jump {lines : Emit (List Js.Stmt)} {jump : Jump}
    (h : Emit.GivesLines P here tries lines) :
    Emit.Gives P here tries (pos.jump jump lines) (pos.Obeys P [none]) := by
  cases pos with
  | value => exact .refuse _
  | statement tail => exact h
  | part => exact .refuse _

theorem gives_assignment (h : Emit.GivesValue P here tries code) :
    Emit.Gives P here tries (pos.assignment code) (pos.Obeys P [none]) := by
  cases pos with
  | value => exact h
  | part => exact gives_slot h
  | statement tail =>
    refine h.map fun site e he => ?_
    exact ⟨he, trivial⟩

theorem Fit.literal (hpos : pos.Fit P) {text : Option String}
    (htries : text.isSome = true → tries = false) (h : Emit.GivesValue P here tries code) :
    Emit.Gives P here tries (pos.literal text code) (pos.Obeys P [text]) := by
  cases text with
  | none =>
    have hplain : pos.literal none code = pos.plain code := by cases pos <;> rfl
    rw [hplain]
    exact hpos.plain h
  | some text =>
    cases pos with
    | value => exact h
    | statement tail => exact @Fit.plain P here tries (.statement tail) code hpos h
    | part =>
      rw [htries rfl]
      refine .pure fun site => ⟨rfl, ?_⟩
      trivial

theorem Fit.sum (hpos : pos.Fit P) {isSum : Bool} {parts : Emit (List Js.Part)}
    {row : List (Option String)} (hparts : Emit.Gives P here tries parts (Obeys P row .part))
    (h : Emit.GivesValue P here tries code) :
    Emit.Gives P here tries (pos.sum isSum parts code)
      (pos.Obeys P (if isSum then row else [none])) := by
  cases isSum with
  | false =>
    have hplain : pos.sum false parts code = pos.plain code := by cases pos <;> rfl
    rw [hplain]
    exact hpos.plain h
  | true =>
    cases pos with
    | value => exact h
    | statement tail => exact @Fit.plain P here tries (.statement tail) code hpos h
    | part => exact hparts

end Position

/-! ## Ranges -/

open Position (TailFit)

/-- What a value that may be missing gives. A value that is missing does not use `?`. -/
def Emit.GivesAction (P : Policy) (here : Setting) (tries : Bool) : Option (Emit Js.Expr) → Prop
  | none => tries = false
  | some x => GivesValue P here tries x

/-- What the bounds of a range give. The first one may have a setting of its own. -/
structure RangePlan.Gives (P : Policy) (low here : Setting) (first last : Bool) (r : RangePlan) :
    Prop where
  start : Emit.GivesAction P low first (r.start.map BoundPlan.code)
  stop : Emit.GivesAction P here last (r.stop.map BoundPlan.code)

theorem BoundPlan.gives_operand {tries : Bool} {b : BoundPlan}
    (h : Emit.GivesValue P here tries b.code) : Emit.GivesValue P here tries b.operand :=
  h.map fun _ _ hcode => hcode.parenIf _

namespace RangePlan

variable {first last : Bool} {around : Around} {r : RangePlan}

theorem gives_zero : Emit.GivesValue P here false (pure (.atom "0")) := by
  refine .pure fun _ => ?_
  exact .code (by decide)

/-- The array of a range is as good as its bounds. The first one stands in a function that is not
    asynchronous. -/
theorem obeys_array {start stop : Js.Expr}
    (hstart : ∀ isAsync, start.Obeys P { around with isAsync }) (hstop : stop.Obeys P around)
    (fromZero inclusive : Bool) :
    (Idiom.named "Array.from" [.object [.pair "length" (if inclusive then
          .binary "+" (if fromZero then stop else .binary "-" stop start) (.atom "1")
        else if fromZero then stop else .binary "-" stop start)],
       .arrow .helper false [.name "$v", .name "$i"]
        (if fromZero then .atom "$i" else .binary "+" (.atom "$i") start)]).Obeys P around := by
  have hminus : P.Text (" " ++ "-" ++ " ") := Js.text_operator (by decide)
  have hplus : P.Text (" " ++ "+" ++ " ") := Js.text_operator (by decide)
  have hpair : P.Text (Js.paramsText [.name "$v", .name "$i"]) :=
    Js.text_names ["$v", "$i"] (by decide)
  have hone : P.Text "1" := .code (by decide)
  have hindex : P.Text "$i" := .code (by decide)
  refine Idiom.obeys_named (.code (by decide)) ?_
  simp only [Js.exprsObey, Js.Expr.Obeys, Js.propsObey, and_true]
  refine ⟨⟨.code (by decide), ?_⟩, hpair, ?_⟩
  · have houter := hstart around.isAsync
    cases inclusive <;> cases fromZero <;>
      simp only [Js.Expr.Obeys, hminus, hplus, hone, houter, hstop, and_self, Bool.false_eq_true,
        if_true, if_false]
  · cases fromZero <;>
      simp only [Js.Expr.Obeys, hplus, hindex, hstart, and_self, Bool.false_eq_true, if_true,
        if_false]

theorem gives_value (h : r.Gives P here.inHelper here first last) :
    Emit.GivesValue P here (first || last) r.value := by
  obtain ⟨start, stop, inclusive⟩ := r
  obtain ⟨hstart, hstop⟩ := h
  cases stop with
  | none => exact .refuse _
  | some stop =>
    have hstop : Emit.GivesValue P here last stop.operand := BoundPlan.gives_operand hstop
    rw [Bool.or_comm]
    refine hstop.bind fun stop => ?_
    cases start with
    | none =>
      rw [show first = false from hstart]
      exact gives_zero.inHelper.map fun site start hstart hstop =>
        obeys_array hstart hstop _ inclusive
    | some start =>
      have hstart : Emit.GivesValue P here.inHelper first start.operand :=
        BoundPlan.gives_operand hstart
      exact hstart.inHelper.map fun site start hstart hstop => obeys_array hstart hstop _ inclusive

theorem gives_slice (h : r.Gives P here here first last) (obj : Js.Expr) :
    Emit.Gives P here (first || last) (r.slice obj) fun site code =>
      obj.Obeys P site.toAround → code.Obeys P site.toAround := by
  obtain ⟨start, stop, inclusive⟩ := r
  obtain ⟨hstart, hstop⟩ := h
  have hslice : P.Text "slice" := .code (by decide)
  -- the part behind the first bound, for whatever that bound gives
  have hrest : ∀ first, Emit.Gives P here last
      (slice obj ⟨some ⟨pure first, false, false⟩, stop, inclusive⟩) fun site code =>
        first.Obeys P site.toAround → obj.Obeys P site.toAround → code.Obeys P site.toAround := by
    intro first
    cases stop with
    | none =>
      rw [show last = false from hstop]
      refine .pure fun site hfirst hobj => ?_
      simp only [Js.Expr.Obeys, Js.exprsObey, hslice, hobj, hfirst, and_self]
    | some stop =>
      have hstop : Emit.GivesValue P here last stop.code := hstop
      cases inclusive with
      | true =>
        refine (BoundPlan.gives_operand hstop).map fun site stop hstop hfirst hobj => ?_
        have hplus : P.Text (" " ++ "+" ++ " ") := Js.text_operator (by decide)
        have hone : P.Text "1" := .code (by decide)
        simp only [Js.Expr.Obeys, Js.exprsObey, hslice, hobj, hfirst, hstop, hplus, hone, and_self]
      | false =>
        refine hstop.map fun site stop hstop hfirst hobj => ?_
        simp [Js.Expr.Obeys, Js.exprsObey, hslice, hobj, hfirst, hstop]
  cases start with
  | none =>
    rw [show first = false from hstart]
    exact gives_zero.bind hrest
  | some start => exact .bind hstart hrest

end RangePlan

/-! ## Loops -/

namespace Emit.Gives

variable {tries tries' : Bool} {label : Option String} {tail : Option Js.Tail}
  {body : Emit (List Js.Stmt)}

theorem loopBody (label : Option String) (htail : TailFit P tail)
    (hbody : GivesLines P here tries body) :
    Gives P here tries (loopBody label tail body) fun site lines =>
      Js.blockObeys P (site.looped (labelName? label)) lines := by
  refine (inTarget hbody ⟨label, tail, false⟩ htail).mono fun site lines h => ?_
  refine h _ rfl rfl (fun _ => rfl) (fun name hname hne => ?_) fun name hname => ?_
  · obtain rfl : label = some name := hname
    have hlabel : labelName? (some name) = some (labelName name) := by simp [labelName?, hne]
    rw [hlabel]
    exact List.mem_cons_self
  · exact List.mem_append_right _ hname

section

variable (serves : law.Serves P) (hlabel : P.Lets (label.all law.label))
include serves hlabel

theorem whileLoop {cond : Emit Js.Expr} (hcond : GivesValue P here tries cond)
    (hbody : GivesLines P here tries' body) :
    GivesLines P here (tries || tries') (whileLoop cond label body) := by
  refine hcond.bind fun cond => ?_
  refine (loopBody label .none hbody).map fun site lines hlines hcond => ?_
  exact ⟨⟨serves.labelOf hlabel, hcond, hlines⟩, trivial⟩

theorem endlessLoop (htail : TailFit P tail) (hbody : GivesLines P here tries body) :
    GivesLines P here tries (endlessLoop label tail body) := by
  refine (loopBody label htail hbody).map fun site lines hlines => ?_
  exact ⟨⟨serves.labelOf hlabel, .code (by decide), hlines⟩, trivial⟩

end

theorem matched {m : Matcher} (hm : m.Obeys P) (hbody : GivesLines P here tries body) :
    GivesLines P here tries (Emit.inScope do
      let bindings ← Emit.bindMatched m.bindings
      return bindings ++ (← body)) := by
  refine inScope ((bindMatched hm.bindings).bind fun bindings => ?_)
  exact hbody.map fun site lines hlines hbindings => Js.blockObeys_append.mpr ⟨hbindings, hlines⟩

section

variable (serves : law.Serves P) {pat : Pat} (hpat : P.Lets (pat.isLawful law))
  (hlabel : P.Lets (label.all law.label))
include serves hpat

theorem counter : Gives P here false (counter pat) fun _ var => P.Plain var := by
  unfold Emit.counter
  split
  · next name _ _ sub =>
    refine declare (serves.plain fun hP => ?_)
    have hlawful := hpat hP
    cases sub with
    | none => exact hlawful
    | some sub =>
      rw [Pat.isLawful, Bool.and_eq_true] at hlawful
      exact hlawful.1
  · exact fresh "i" (by decide)

omit serves hpat in
theorem limitFor (b : BoundPlan) : Gives P here false (limitFor b) fun _ limit =>
    P.Label limit := by
  unfold Emit.limitFor
  split
  · exact pure fun _ _ h => nomatch h
  · refine (fresh "tmp" (by decide)).map fun _ name hname => ?_
    rintro _ ⟨⟩
    exact hname.text

include hlabel

theorem whileLet {value : Emit Js.Expr} (hvalue : GivesValue P here tries value)
    (hbody : GivesLines P here tries' body) :
    GivesLines P here (tries || tries') (whileLet pat value label body) := by
  refine (fresh "tmp" (by decide)).bindFact fun temp htemp => ?_
  refine hvalue.bind fun value => ?_
  refine (matcher serves hpat htemp.text).bindFact fun m hm => ?_
  have hloop := loopBody label .none (matched hm.2 hbody)
  refine hloop.map fun site lines hlines hvalue => ?_
  simp only [Js.blockObeys, Js.Stmt.Obeys, Js.Expr.Obeys, Js.Binding.text, and_true]
  exact ⟨serves.labelOf hlabel, .code (by decide), ⟨htemp.text, hvalue⟩, ⟨fun _ => rfl, hm.2.tests⟩,
    hlines⟩

theorem countLoop {first last : Bool} {start stop : BoundPlan} {inclusive isReversed : Bool}
    (hstart : GivesValue P here first start.code) (hstop : GivesValue P here last stop.code)
    (hbody : GivesLines P here tries body) :
    GivesLines P here (first || last || tries)
      (countLoop pat start stop inclusive isReversed label body) := by
  have hloop := loopBody label .none hbody
  have hminus : P.Text (" " ++ "-" ++ " ") := Js.text_operator (by decide)
  have hone : P.Text "1" := .code (by decide)
  refine (hstart.bind fun start' => hstop.bind fun stop' => inScope ?_).congr
    (Bool.or_assoc _ _ _).symm
  refine (counter serves hpat).bindFact fun var hvar => ?_
  cases isReversed with
  | true =>
    refine (limitFor start).bindFact fun limit hlimit => ?_
    refine hloop.map fun site lines hlines hstop hstart => ?_
    refine ⟨⟨serves.labelOf hlabel, hvar.text, hlimit, ?_, hstart, hlines⟩, trivial⟩
    split
    · exact hstop
    · exact ⟨hminus, hstop.parenIf _, hone⟩
  | false =>
    refine (limitFor stop).bindFact fun limit hlimit => ?_
    refine hloop.map fun site lines hlines hstop hstart => ?_
    exact ⟨⟨serves.labelOf hlabel, hvar.text, hlimit, hstart, hstop, hlines⟩, trivial⟩

theorem eachLoop (hbody : GivesLines P here tries body) (source : Js.Expr) :
    Gives P here tries (eachLoop pat source label body) fun site lines =>
      source.Obeys P site.toAround → Js.blockObeys P site lines := by
  have hloop := loopBody label .none hbody
  have hrest (binding : Js.Binding) (hbinding : P.Text binding.text) :
      Gives P here tries (do
        let body ← Emit.loopBody label none body
        return [.forOf (labelName? label) (.of pat.hasMutable) binding source body])
        fun site lines => source.Obeys P site.toAround → Js.blockObeys P site lines := by
    refine hloop.map fun site lines hlines hsource => ?_
    exact ⟨⟨serves.labelOf hlabel, hbinding, hsource, hlines⟩, trivial⟩
  refine inScope ((destructure serves pat hpat).bindFact fun binding hbinding => ?_)
  split
  · refine (fresh "unused" (by decide)).bindFact fun name hname => ?_
    have htext : P.Text (Js.Binding.name name).text := hname.text
    exact hrest _ htext
  · exact hrest binding hbinding

end

end Emit.Gives

def RangePlan.isBounded (r : RangePlan) : Bool := r.start.isSome && r.stop.isSome

/-- What a `for` loop with the pattern runs over gives values that keep the rules. A range that is
    not counted through is built first. -/
def Emit.Source.Gives (P : Policy) (here : Setting) (pat : Pat) (tries : Bool) :
    Emit.Source → Prop
  | range plan _ => ∃ first last, tries = (first || last) ∧
    plan.Gives P (if isCounter pat && plan.isBounded then here else here.inHelper) here first last
  | enumerated items => GivesValue P here tries items
  | elements code => GivesValue P here tries code

namespace Emit.Gives

variable {tries tries' : Bool} {label : Option String} {tail : Option Js.Tail}
  {body : Emit (List Js.Stmt)} {pat : Pat} {source : Source} {operand : Emit Js.Expr}

theorem sourceCode (h : source.Gives P here pat tries)
    (hbuilt : ∀ plan isReversed, source = .range plan isReversed →
      (isCounter pat && plan.isBounded) = false) : GivesValue P here tries (source.code pat) := by
  have hpairs {code : Emit Js.Expr} (hcode : GivesValue P here tries code) :
      GivesValue P here tries
        (do
          let code ← code
          return if isPair pat then Idiom.entries code else code) := by
    refine hcode.map fun site code hcode => ?_
    split
    · exact Idiom.obeys_entries hcode
    · exact hcode
  cases source with
  | range plan isReversed =>
    obtain ⟨first, last, rfl, hplan⟩ := h
    rw [hbuilt plan isReversed rfl] at hplan
    exact hpairs (RangePlan.gives_value hplan)
  | enumerated items =>
    refine Gives.map h fun site code hcode => ?_
    have harray : (Idiom.named "Array.from" [code]).Obeys P site.toAround :=
      Idiom.obeys_named (.code (by decide)) (by simpa only [Js.exprsObey, and_true] using hcode)
    exact ⟨⟨.code (by decide), harray⟩, trivial⟩
  | elements code => exact hpairs h

theorem forLoop (serves : law.Serves P) (hpat : P.Lets (pat.isLawful law))
    (hlabel : P.Lets (label.all law.label)) (hsource : source.Gives P here pat tries)
    (hbody : GivesLines P here tries' body) :
    GivesLines P here (tries || tries') (forLoop pat source label body) := by
  unfold Emit.forLoop
  split
  · next start stop inclusive isReversed hcounter =>
    obtain ⟨first, last, rfl, hplan⟩ := hsource
    rw [hcounter] at hplan
    exact countLoop serves hpat hlabel hplan.start hplan.stop hbody
  · next hcount =>
    refine (sourceCode hsource ?_).bind fun code => eachLoop serves hpat hlabel hbody code
    rintro ⟨start, stop, inclusive⟩ isReversed rfl
    cases hcounter : isCounter pat with
    | false => rfl
    | true =>
      cases start with
      | none => rfl
      | some start =>
        cases stop with
        | none => rfl
        | some stop => exact absurd hcounter (hcount start stop inclusive isReversed rfl)

/-! ## Jumps -/

section

variable (serves : law.Serves P) (hlabel : P.Lets (label.all law.jump))
include serves hlabel

theorem findTarget (jump : Jump) : Gives P here false (findTarget jump label) fun site target =>
    TailFit P target.tail ∧ (P.jumps → site.Reaches (labelName? label)) := by
  refine ⟨fun s target t hs hrun => ?_⟩
  obtain ⟨s', u, hget, hrun⟩ := exists_of_bind hrun
  cases hget
  cases hfound : s.targets.find? (JumpTarget.accepts label) with
  | none =>
    rw [hfound] at hrun
    cases label <;> cases hrun
  | some found =>
    rw [hfound] at hrun
    obtain ⟨htarget, rfl⟩ := Prod.mk.inj hrun
    cases htarget
    have hmem := List.mem_of_find?_eq_some hfound
    have haccepts := List.find?_some hfound
    refine ⟨hs, Follows.refl s, fun site hsite => ⟨hs.tails target hmem, fun hjumps => ?_⟩⟩
    cases label with
    | none =>
      have hloop : target.isBlock = false := by simpa [JumpTarget.accepts] using haccepts
      exact hsite.inLoop target hmem hloop
    | some label =>
      have htarget : target.label = some label := by simpa [JumpTarget.accepts] using haccepts
      have hwritten := serves.written hjumps label (hlabel (.inr (.inl hjumps)))
      have hne : label ≠ "" := by
        rintro rfl
        exact hwritten (by decide)
      have hname : labelName? (some label) = some (labelName label) := by simp [labelName?, hne]
      rw [hname]
      exact ⟨hwritten, hsite.labels target hmem label htarget hne⟩

theorem breakTo {value : Option (Emit Js.Expr)} (hvalue : GivesAction P here tries value) :
    GivesLines P here tries (breakTo label value) := by
  refine (findTarget serves hlabel .brk).bind fun target => ?_
  cases value with
  | none =>
    rw [show tries = false from hvalue]
    refine pure fun site htarget => ?_
    exact ⟨⟨htarget.2, serves.labelOfJump hlabel⟩, trivial⟩
  | some value =>
    have hvalue : GivesValue P here tries value := hvalue
    refine (hvalue.bind fun code => ?_).congr (Bool.or_false _)
    cases htail : target.tail with
    | none =>
      refine pure fun site hcode htarget => ?_
      exact ⟨hcode, ⟨htarget.2, serves.labelOfJump hlabel⟩, trivial⟩
    | some tail =>
      refine pure fun site hcode htarget => ?_
      have hlead : P.Text tail.lead := htarget.1 tail rfl
      exact ⟨⟨hlead, hcode, fun _ => ⟨htarget.2, serves.labelOfJump hlabel⟩⟩, trivial⟩

theorem continueTo : GivesLines P here false (continueTo label) := by
  refine (findTarget serves hlabel .cont).map fun site target htarget => ?_
  exact ⟨⟨htarget.2, serves.labelOfJump hlabel⟩, trivial⟩

end

theorem returnWith {value : Option (Emit Js.Expr)} (hvalue : GivesAction P here tries value) :
    GivesLines P here tries (returnWith value) := by
  refine ⟨fun s a t hs hrun => ?_⟩
  obtain ⟨s', u, hget, hrun⟩ := exists_of_bind hrun
  cases hget
  have houtside (hdepth : ¬(s.frame.valueDepth != 0) = true) {u : State} {site : Site}
      (hfollows : Follows tries s u) (hsite : Fits here u site) : site.inValue = false := by
    cases hvalue : site.inValue with
    | false => rfl
    | true =>
      have hzero : s.frame.valueDepth = 0 := by simpa using hdepth
      exact absurd (hfollows.valueDepth.trans hzero) (hsite.inValue hvalue)
  split at hrun
  · cases hrun
  · next hdepth =>
    cases value with
    | none =>
      rw [show tries = false from hvalue] at houtside ⊢
      obtain ⟨ha, rfl⟩ := Prod.mk.inj hrun
      cases ha
      refine ⟨hs, Follows.refl s, fun site hsite => ?_⟩
      exact ⟨fun _ => houtside hdepth (Follows.refl s) hsite, trivial⟩
    | some value =>
      obtain ⟨code, u, hcode, hrun⟩ := exists_of_bind hrun
      obtain ⟨ha, rfl⟩ := Prod.mk.inj hrun
      cases ha
      obtain ⟨hready, hfollows, hgives⟩ := Gives.run hvalue s code u hs hcode
      refine ⟨hready, hfollows, fun site hsite => ?_⟩
      exact ⟨⟨fun _ => houtside hdepth hfollows hsite, hgives site hsite⟩, trivial⟩

theorem tryOp (h : GivesValue P here tries operand) : GivesValue P here true (tryOp operand) := by
  refine ⟨fun s a t hs hrun => ?_⟩
  obtain ⟨s', u, hget, hrun⟩ := exists_of_bind hrun
  cases hget
  split at hrun
  · cases hrun
  · obtain ⟨_, marked, hmark, hrun⟩ := exists_of_bind hrun
    cases hmark
    obtain ⟨code, u, hcode, hrun⟩ := exists_of_bind hrun
    obtain ⟨ha, rfl⟩ := Prod.mk.inj hrun
    cases ha
    have hstart : Ready P here { s with frame := { s.frame with usesTry := true } } :=
      ⟨hs.selfType, hs.scopes, hs.tails, hs.isAsync⟩
    obtain ⟨hready, hfollows, hgives⟩ := h.run _ code u hstart hcode
    refine ⟨hready, ⟨hfollows.targets, hfollows.callers, ?_⟩, fun site hsite => ?_⟩
    · rw [hfollows.frame, Bool.or_true]
      rfl
    · have hmarked : u.frame.usesTry = true := by
        rw [hfollows.frame]
        rfl
      exact ⟨fun _ => hsite.caught hmarked, hgives site hsite⟩

theorem await (serves : law.Serves P) (hmode : P.Lets (law.await here.mode))
    (h : GivesValue P here tries operand) :
    GivesValue P here tries (do return .await (← operand)) := by
  refine h.whereAsync.map fun site code hcode => ?_
  exact ⟨fun hP => hcode.1 (serves.await hP _ (hmode (.inr (.inr hP)))), hcode.2⟩

end Emit.Gives

/-! ## Arms of a match -/

namespace ArmPlan

/-- The plan has the pattern of the arm, and a guard if the arm has one. -/
structure IsFor (a : ArmPlan) (arm : Arm) : Prop where
  pat : a.pat = arm.pat
  guard : a.guard.isSome = arm.guard.isSome

variable {a : ArmPlan} {plans : List ArmPlan}

theorem isPair_eq {b : ArmPlan} {arm arm' : Arm} (ha : a.IsFor arm) (hb : b.IsFor arm') :
    Arm.isPair [arm, arm'] = (formPair a b || formPair b a) := by
  obtain ⟨p, body, guard⟩ := arm
  obtain ⟨q, body', guard'⟩ := arm'
  simp only [formPair, ← Option.not_isSome, ha.guard, hb.guard, ha.pat, hb.pat]
  cases guard <;> cases guard' <;> simp [Arm.isPair]

theorem isSome_optionPair? {arms : List Arm} {found : Option (ArmPlan × ArmPlan)}
    (hfor : List.Forall₂ IsFor plans arms) (h : optionPair? plans = .ok found) :
    found.isSome = Arm.isPair arms := by
  obtain ⟨a, b, rfl, rfl, hforms⟩ | ⟨a, b, rfl, rfl, hforms⟩ | ⟨rfl, hforms⟩ := optionPair?_eq_ok h
  · obtain _ | ⟨ha, _ | ⟨hb, _ | _⟩⟩ := hfor
    rw [isPair_eq ha hb, hforms]
    rfl
  · obtain _ | ⟨ha, _ | ⟨hb, _ | _⟩⟩ := hfor
    rw [isPair_eq ha hb, hforms, Bool.or_true]
    rfl
  · obtain _ | @⟨a, _, _, _, ha, _ | @⟨b, _, _, _, hb, _ | _⟩⟩ := hfor
    · rfl
    · simp [Arm.isPair]
    · rw [isPair_eq ha hb, (hforms a b rfl).1, (hforms a b rfl).2]
      rfl
    · simp [Arm.isPair]

/-- The plan is one for the arm, and what it emits keeps the rules. -/
structure Serves (P : Policy) (here : Setting) (law : Law) (call : MacroCall → Bool)
    (a : ArmPlan) (arm : Arm) : Prop extends a.IsFor arm where
  lawful : P.Lets (arm.pat.isLawful law)
  guards : Emit.GivesAction P here (Expr.optionTries here.place.known call arm.guard) a.guard
  body : ∀ tail, TailFit P tail →
    Emit.GivesLines P here (arm.body.tries here.place.known call) (a.body tail)

variable {call : MacroCall → Bool} {subject label : String} {tail : Option Js.Tail} {arm : Arm}

theorem Serves.matcher (h : a.Serves P here law call arm) (serves : law.Serves P)
    (hsubject : P.Text subject) : Emit.Gives P here false (Emit.matcher a.pat subject) fun _ m =>
      m.isIrrefutable = arm.pat.alwaysFits here.place.known ∧ m.Obeys P := by
  rw [h.pat]
  exact .matcher serves h.lawful hsubject

theorem gives_emit (h : a.Serves P here law call arm) {m : Matcher} (hm : m.Obeys P)
    (htail : TailFit P tail) (after : List Js.Stmt) :
    Emit.Gives P here
      (Expr.optionTries here.place.known call arm.guard || arm.body.tries here.place.known call)
      (a.emit m tail after) fun site lines =>
        (∀ inner : Site, inner.labels = site.labels → Js.blockObeys P inner after) →
          Js.blockObeys P site lines := by
  obtain ⟨pat, guard, body⟩ := a
  have hbody := h.body tail htail
  have hguard := h.guards
  refine .inScope ?_
  refine (Emit.Gives.bindMatched hm.bindings).bind fun bindings => ?_
  cases guard with
  | none =>
    rw [show Expr.optionTries here.place.known call arm.guard = false from hguard]
    refine hbody.map fun site lines hlines hbindings hafter => ?_
    rw [Js.blockObeys_append, Js.blockObeys_append]
    exact ⟨⟨hbindings, hlines⟩, hafter site rfl⟩
  | some guard =>
    refine .bind hguard fun cond => ?_
    have hinner := hbody.within Site.inner fun _ _ => Fits.inner
    refine hinner.map fun site lines hlines hcond hbindings hafter => ?_
    rw [Js.blockObeys_append, Js.blockObeys_singleton, Js.Stmt.obeys_branch]
    have hbody := Js.blockObeys_append.mpr ⟨hlines, hafter _ rfl⟩
    exact ⟨hbindings, ⟨hcond, hbody, trivial⟩, trivial⟩

section

variable (serves : law.Serves P) (hsubject : P.Text subject) (htail : TailFit P tail)
include serves hsubject htail

variable {plans : List ArmPlan} {arms : List Arm}

section

variable (hplans : List.Forall₂ (Serves P here law call) plans arms)

include hplans

/-- By induction on the arms: without guards the chain ends with the first arm that always fits. -/
theorem gives_chain (hguards : ∀ a ∈ plans, a.guard = none) :
    Emit.Gives P here (Arm.anyTries here.place.known call false arms) (chain subject tail plans)
      fun site result => Js.branchesObey P site result.1 ∧ Js.otherwiseObeys P site result.2 := by
  induction hplans with
  | nil =>
    refine .pure fun site => ?_
    exact ⟨trivial, trivial⟩
  | @cons a arm plans arms ha hplans ih =>
    have hbare : arm.guard.isSome = false := by
      rw [← ha.guard, hguards a List.mem_cons_self]
      rfl
    have ih := ih fun b hb => hguards b (List.mem_cons_of_mem _ hb)
    obtain ⟨pat, armBody, guard⟩ := arm
    rw [Arm.anyTries, hbare]
    refine (ha.matcher serves hsubject).bindFact fun m hm => ?_
    have hemit := (gives_emit ha hm.2 htail []).within Site.inner fun _ _ => Fits.inner
    refine hemit.bind fun body => ?_
    have hempty (site : Site) : Js.blockObeys P site [] := by trivial
    rw [hm.1]
    cases hfits : pat.alwaysFits here.place.known with
    | true =>
      refine .pure fun site hbody => ?_
      exact ⟨trivial, hbody fun _ _ => hempty _⟩
    | false =>
      refine ih.map fun site result hresult hbody => ?_
      exact ⟨⟨hm.2.tests, hbody fun _ _ => hempty _, hresult.1⟩, hresult.2⟩

/-- By induction on the arms: each of them ends by leaving the block around them all. -/
theorem gives_sequence (hlabel : P.Text label) :
    Emit.Gives P here (Arm.anyTries here.place.known call false arms)
      (sequence label subject tail plans)
      fun site lines => label ∈ site.labels → Js.blockObeys P site lines := by
  induction hplans with
  | nil =>
    refine .pure fun site _ => ?_
    trivial
  | @cons a arm plans arms ha hplans ih =>
    have hguard := ha.guard
    obtain ⟨pat, armBody, guard⟩ := arm
    refine (ha.matcher serves hsubject).bindFact fun m hm => ?_
    have hemit := (gives_emit ha hm.2 htail [.leave label]).within Site.inner fun _ _ => Fits.inner
    refine hemit.bind fun body => ?_
    have hleave {site : Site} (hmem : label ∈ site.labels) (inner : Site)
        (hinner : inner.labels = site.inner.labels) : Js.blockObeys P inner [.leave label] := by
      rw [Js.blockObeys_singleton, Js.Stmt.Obeys, hinner]
      exact ⟨fun _ => hmem, hlabel⟩
    have hblock (site : Site) (h : Js.blockObeys P site.inner body) :
        (Js.Stmt.block none body).Obeys P site := by
      refine ⟨?_, h⟩
      rintro _ ⟨⟩
    rw [hm.1]
    cases hfits : pat.alwaysFits here.place.known with
    | true =>
      cases hsome : guard.isSome with
      | false =>
        have hnone : a.guard.isNone = true := by simpa using hguard.trans hsome
        rw [hnone]
        refine .pure fun site hbody hmem => ?_
        rw [Js.blockObeys_singleton]
        exact hblock site (hbody (hleave hmem))
      | true =>
        have hnone : a.guard.isNone = false := by
          rw [← Option.not_isSome, hguard.trans hsome]
          rfl
        rw [hnone]
        refine ih.map fun site lines hlines hbody hmem => ?_
        exact ⟨hblock site (hbody (hleave hmem)), hlines hmem⟩
    | false =>
      simp only [Bool.or_true, Bool.not_false, Bool.true_and, Bool.false_eq_true, if_false]
      refine ih.map fun site lines hlines hbody hmem => ?_
      rw [Js.blockObeys, Js.Stmt.obeys_branch]
      exact ⟨⟨⟨hm.2.tests, hbody (hleave hmem), trivial⟩, trivial⟩, hlines hmem⟩

theorem gives_ladder :
    Emit.GivesLines P here (Arm.anyTries here.place.known call false arms)
      (ladder subject tail plans) := by
  unfold ladder
  split
  · refine (Emit.Gives.fresh "arms" (by decide)).bindFact fun label hlabel => ?_
    have hlines := (gives_sequence serves hsubject htail hplans hlabel.text).within
      (fun site => site.labelled (some label)) fun _ _ h => h.labelled _
    refine hlines.map fun site lines hlines => ?_
    refine ⟨⟨?_, hlines List.mem_cons_self⟩, trivial⟩
    rintro _ ⟨⟩
    exact hlabel.text
  · next hguard =>
    have hguards : ∀ a ∈ plans, a.guard = none := by simpa using hguard
    refine (gives_chain serves hsubject htail hplans hguards).map fun site result hresult => ?_
    obtain ⟨branches, otherwise⟩ := result
    obtain ⟨hbranches, hotherwise⟩ := hresult
    dsimp only at hbranches hotherwise ⊢
    unfold branchStmts
    split
    · trivial
    · rw [Js.blockObeys_singleton, Js.Stmt.Obeys]
      refine ⟨?_, hotherwise⟩
      rintro _ ⟨⟩
    · next hnone hsome =>
      refine ⟨⟨fun _ hempty => ?_, hbranches, hotherwise⟩, trivial⟩
      cases otherwise with
      | none => exact hnone hempty rfl
      | some body => exact hsome body hempty rfl

end

omit hsubject in
theorem gives_pair (hsubject : P.Text subject) {present absent : ArmPlan} {first second : Arm}
    (hpresent : present.Serves P here law call first)
    (habsent : absent.Serves P here law call second) :
    Emit.GivesLines P here
      ((Expr.optionTries here.place.known call first.guard || first.body.tries here.place.known call) ||
        (Expr.optionTries here.place.known call second.guard || second.body.tries here.place.known call))
      (pair subject tail present absent) := by
  have hempty (site : Site) : Js.blockObeys P site [] := by trivial
  refine (hpresent.matcher serves hsubject).bindFact fun m hm => ?_
  have hyes := (gives_emit hpresent hm.2 htail []).within Site.inner fun _ _ => Fits.inner
  have hnothing : Matcher.Obeys P {} := .of_neutral fun _ => .empty
  have hno := (gives_emit habsent hnothing htail []).within Site.inner fun _ _ => Fits.inner
  refine hyes.bind fun yes => hno.map fun site no hno hyes => ?_
  rw [Js.blockObeys_singleton, Js.Stmt.obeys_branch]
  exact ⟨⟨hm.2.tests, hyes fun _ _ => hempty _, trivial⟩, hno fun _ _ => hempty _⟩

theorem gives_arms (hplans : List.Forall₂ (Serves P here law call) plans arms) :
    Emit.GivesLines P here (Arm.anyTries here.place.known call (Arm.isPair arms) arms)
      (ArmPlan.arms subject tail plans) := by
  refine .ofExceptBind fun found hfound => ?_
  have hfor := hplans.imp fun _ _ h => h.toIsFor
  rw [← isSome_optionPair? hfor hfound]
  cases found with
  | none => exact gives_ladder serves hsubject htail hplans
  | some taken =>
    obtain ⟨a, b, rfl, hab, -⟩ | ⟨a, b, rfl, hab, -⟩ | ⟨hnone, -⟩ := optionPair?_eq_ok hfound
    · cases hab
      obtain _ | @⟨_, ⟨_, _, _⟩, _, _, ha, _ | @⟨_, ⟨_, _, _⟩, _, _, hb, _ | _⟩⟩ := hplans
      refine (gives_pair serves htail hsubject ha hb).congr ?_
      simp [Arm.anyTries]
    · cases hab
      obtain _ | @⟨_, ⟨_, _, _⟩, _, _, ha, _ | @⟨_, ⟨_, _, _⟩, _, _, hb, _ | _⟩⟩ := hplans
      refine (gives_pair serves htail hsubject hb ha).congr ?_
      rw [Bool.or_comm]
      simp [Arm.anyTries]
    · cases hnone

end

end ArmPlan

end RustScript
