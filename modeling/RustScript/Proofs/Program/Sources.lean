/-
  Source texts in a registry and in a unit.

  A unit collects the failures of the declarations; a registry stops at the first one. Whenever the
  unit returns, the registry comes to the unit's verdict (`Registry.emit_eq_verdict`).
-/
import RustScript.Proofs.Program.Isolation
import RustScript.Registry

namespace RustScript

theorem eq_ok_of_toOption {α : Type} {x : Except Error α} {a : α}
    (h : x.toOption = some a) : x = .ok a := by
  cases x with
  | error e => cases h
  | ok b => exact congrArg Except.ok (Option.some.inj h)

namespace Outcome

/-- The outcome of the declarations that are read from a text. -/
def ofSource (text : String) (r : Reader) (read : String → Except Error (List Item)) :
    Except Error Outcome := do
  ofItems r (← read text)

/-- What all declarations together come to: their fragments, or the error that was met first. -/
def verdict (o : Outcome) : Except Error (List String) :=
  match o.diagnostics with
  | [] => .ok o.fragments
  | d :: _ => .error d.error

variable {o : Outcome}

theorem verdict_of_isOk (h : o.isOk = true) : o.verdict = .ok o.fragments := by
  have hnone : o.diagnostics = [] := List.isEmpty_iff.mp h
  rw [verdict, hnone]

theorem verdict_of_cons {d : Diagnostic} {ds : List Diagnostic} (h : o.diagnostics = d :: ds) :
    o.verdict = .error d.error := by
  rw [verdict, h]

theorem verdict_eq_ok {fragments : List String} (h : o.verdict = .ok fragments) :
    o = ⟨fragments, []⟩ := by
  obtain ⟨fragments', diagnostics⟩ := o
  cases diagnostics with
  | nil =>
    cases h
    rfl
  | cons d ds => cases h

theorem verdict_add_ok (fragments : List String) (o : Outcome) :
    (add (.ok fragments) o).verdict = o.verdict.map (fragments ++ ·) := by
  obtain ⟨fragments', diagnostics⟩ := o
  cases diagnostics with
  | nil => rfl
  | cons d ds => rfl

end Outcome

namespace Registry

open Outcome

variable {g : Registry} {r : Reader} {items : List Item}

variable {fragments : List String} {e : Error} {text : String} {i : Item}
  {read : String → Except Error (List Item)}

theorem emit_cons_ok (h : i.fragments r g.structs g.enums = .ok fragments) (items : List Item) :
    g.emit r (i :: items) = (g.emit r items).map (fragments ++ ·) := by
  rw [emit, h]
  cases g.emit r items with
  | ok more => rfl
  | error e => rfl

theorem emit_cons_error (h : i.fragments r g.structs g.enums = .error e) (items : List Item) :
    g.emit r (i :: items) = .error e := by
  rw [emit, h]
  rfl

/-- Without a fault among the declarations, what is emitted is the verdict on their outcomes. -/
theorem emit_eq_verdict (h : ∀ i ∈ items, Fails False (i.fragments r g.structs g.enums)) :
    g.emit r items = (ofEach (items.map (Item.outcome r g.structs g.enums))).verdict := by
  induction items with
  | nil => rfl
  | cons i items ih =>
    have hrest := ih fun j hj => h j (List.mem_cons_of_mem _ hj)
    rw [List.map_cons, ofEach_cons, Item.outcome]
    cases hi : i.fragments r g.structs g.enums with
    | ok fragments =>
      have hadd := verdict_add_ok fragments (ofEach (items.map (Item.outcome r g.structs g.enums)))
      rw [emit_cons_ok hi, hrest, ← hadd]
      rfl
    | error e => exact emit_cons_error hi items

theorem fails_of_emit_eq_ok (h : g.emit r items = .ok fragments) :
    ∀ i ∈ items, Fails False (i.fragments r g.structs g.enums) := by
  induction items generalizing fragments with
  | nil => simp
  | cons i items ih =>
    cases hi : i.fragments r g.structs g.enums with
    | error e =>
      rw [emit_cons_error hi] at h
      cases h
    | ok first =>
      rw [emit_cons_ok hi] at h
      cases hmore : g.emit r items with
      | error e =>
        rw [hmore] at h
        cases h
      | ok more =>
        refine List.forall_mem_cons.mpr ⟨?_, ih hmore⟩
        rw [hi]
        exact Fails.ok first

/-! ## Texts -/

theorem registerSource_of_unread (h : read text = .error e) (g : Registry) :
    g.registerSource text r read = (.error e, g) := by
  rw [registerSource, h]

theorem registerSource_fst (h : read text = .ok items) (g : Registry) :
    (g.registerSource text r read).1 = (g.learn items).emit r items := by
  simp only [registerSource, h]
  cases (g.learn items).emit r items with
  | ok fragments => rfl
  | error e => rfl

theorem registerSource_snd_of_error (h : (g.registerSource text r read).1 = .error e) :
    (g.registerSource text r read).2 = g := by
  cases hitems : read text with
  | error e' => rw [registerSource_of_unread hitems]
  | ok items =>
    rw [registerSource_fst hitems] at h
    simp only [registerSource, hitems, h]

theorem registerSource_snd_of_ok (h : (g.registerSource text r read).1 = .ok fragments) :
    (g.registerSource text r read).2.fragments = g.fragments ++ fragments := by
  cases hitems : read text with
  | error e' =>
    rw [registerSource_of_unread hitems] at h
    cases h
  | ok items =>
    rw [registerSource_fst hitems] at h
    simp only [registerSource, hitems, h]
    rfl

theorem ofSource_of_read (h : read text = .ok items) : ofSource text r read = ofItems r items := by
  rw [ofSource, h]
  rfl

theorem registerSource_eq_verdict {o : Outcome} (h : ofSource text r read = .ok o) :
    (registerSource {} text r read).1 = o.verdict := by
  cases hitems : read text with
  | error e =>
    rw [ofSource, hitems] at h
    cases h
  | ok items =>
    rw [ofSource_of_read hitems] at h
    obtain ⟨hfails, rfl⟩ := ofItemsWith_eq_ok_iff.mp h
    rw [registerSource_fst hitems]
    exact emit_eq_verdict (g := learn {} items) hfails

theorem ofSource_of_registerSource (h : (registerSource {} text r read).1 = .ok fragments) :
    ofSource text r read = .ok ⟨fragments, []⟩ := by
  cases hitems : read text with
  | error e =>
    rw [registerSource_of_unread hitems] at h
    cases h
  | ok items =>
    rw [registerSource_fst hitems] at h
    have hfails := fails_of_emit_eq_ok h
    have hunit : ofItems r items = _ := ofItemsWith_eq_ok hfails
    rw [emit_eq_verdict hfails] at h
    rw [ofSource_of_read hitems, hunit]
    exact congrArg Except.ok (verdict_eq_ok h)

/-- A source text that fails in any way leaves a registry as it was. An empty registry takes a text
    exactly if its unit returns without a report, and then gives the fragments of the unit and, in
    any style, its program. Whenever the unit returns with reports, the error is that of the first
    one. This holds for any way to read declarations and macros. -/
theorem registering_source_agrees_with_unit (text : String) (r : Reader)
    (read : String → Except Error (List Item)) :
    (∀ (g : Registry) e, (g.registerSource text r read).1 = .error e →
      (g.registerSource text r read).2 = g) ∧
    (∀ fragments, (registerSource {} text r read).1 = .ok fragments ↔
      ofSource text r read = .ok ⟨fragments, []⟩) ∧
    ∀ o, ofSource text r read = .ok o →
      (o.isOk = true → (registerSource {} text r read).1 = .ok o.fragments ∧
        ∀ style, (registerSource {} text r read).2.assemble style =
          Program.assemble o.fragments style) ∧
      ∀ d ds, o.diagnostics = d :: ds → (registerSource {} text r read).1 = .error d.error := by
  refine ⟨fun g e => registerSource_snd_of_error, fun fragments => ?_, fun o ho => ?_⟩
  · refine ⟨ofSource_of_registerSource, fun hunit => ?_⟩
    exact registerSource_eq_verdict hunit
  · have hverdict := registerSource_eq_verdict ho
    refine ⟨fun hok => ?_, fun d ds hds => ?_⟩
    · have hfirst : (registerSource {} text r read).1 = .ok o.fragments := by
        rw [hverdict, verdict_of_isOk hok]
      have hsecond := registerSource_snd_of_ok hfirst
      refine ⟨hfirst, fun style => ?_⟩
      rw [assemble, hsecond]
      rfl
    · rw [hverdict, verdict_of_cons hds]

/-- Of a function that is emitted, one that calls an unknown macro and an enum with a tag field, the
    unit reports the last two, and the registry fails with the first report and keeps nothing. -/
theorem first_of_two_failures_ends_registering :
    let text := "fn a() \x7b\x7d\nfn b() \x7b c!(); \x7d\nenum E \x7b A \x7b type: T \x7d \x7d"
    let reports : List Diagnostic :=
      [⟨"b", .refusal (.unknownMacro "c")⟩, ⟨"E", .refusal (.tagField "A")⟩]
    ofSource text Source.reader Source.readItems = .ok ⟨["function a() \x7b\x7d"], reports⟩ ∧
      registerSource {} text = (.error (.refusal (.unknownMacro "c")), {}) := by
  intro text reports
  have hread : (ofSource text Source.reader Source.readItems).toOption =
      some ⟨["function a() \x7b\x7d"], reports⟩ := by
    decide +kernel
  have hunit := eq_ok_of_toOption hread
  obtain ⟨hkept, -, hverdict⟩ := registering_source_agrees_with_unit text Source.reader Source.readItems
  have hfirst := (hverdict _ hunit).2 _ _ rfl
  exact ⟨hunit, Prod.ext hfirst (hkept _ _ hfirst)⟩

end Registry

end RustScript
