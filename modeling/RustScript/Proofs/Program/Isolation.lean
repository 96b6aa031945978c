/-
  Failures of single declarations in a unit.

  A unit in which no declaration ends in a fault is put together from the outcomes of its
  declarations in order (`Outcome.ofEach`); a fault ends the whole unit. Sound declarations do not
  fault, but the text of a macro call need not be sound.
-/
import RustScript.Proofs.Program.Declarations

namespace RustScript

namespace Fails

variable {α : Type}

theorem or_fault (x : Except Error α) : Fails False x ∨ ∃ cause, x = .error (.fault cause) := by
  cases x with
  | ok a => exact .inl (ok a)
  | error e =>
    cases e with
    | fault cause => exact .inr ⟨cause, rfl⟩
    | mistake _ | refusal _ | parse _ _ _ => exact .inl (error (.inr rfl))

theorem false_iff {x : Except Error α} : Fails False x ↔ ∀ cause, x ≠ .error (.fault cause) := by
  refine ⟨?_, fun h => (or_fault x).resolve_right fun ⟨cause, hx⟩ => h cause hx⟩
  rintro h cause rfl
  exact (h _ rfl).elim id nofun

end Fails

/-- What a declaration comes to: its fragments, or one report that names it. -/
def Item.outcome (r : Reader) (structs : Structs) (enums : Enums) (i : Item) :
    Except Diagnostic (List String) :=
  (i.fragments r structs enums).mapError (Diagnostic.mk i.name)

/-- The report of a declaration that failed. -/
def Diagnostic.of? : Except Diagnostic (List String) → Option Diagnostic
  | .ok _ => none
  | .error d => some d

namespace Outcome

/-- The fragments and the reports of single declarations, each in order. -/
def ofEach (outcomes : List (Except Diagnostic (List String))) : Outcome where
  fragments := (outcomes.filterMap Except.toOption).flatten
  diagnostics := outcomes.filterMap Diagnostic.of?

/-- The outcome with one more declaration in front. -/
def add (first : Except Diagnostic (List String)) (o : Outcome) : Outcome where
  fragments := first.toOption.getD [] ++ o.fragments
  diagnostics := (Diagnostic.of? first).toList ++ o.diagnostics

theorem ofEach_cons (first : Except Diagnostic (List String))
    (outcomes : List (Except Diagnostic (List String))) :
    ofEach (first :: outcomes) = add first (ofEach outcomes) := by
  cases first with
  | ok fragments => rfl
  | error d => rfl

/-! ## One declaration after the other -/

variable {r : Reader} {structs : Structs} {enums : Enums} {i : Item} {items : List Item}
  {cause : Fault}

/-- A declaration that does not fault leaves the others alone. -/
theorem ofItemsWith_cons (h : Fails False (i.fragments r structs enums)) (items : List Item) :
    ofItemsWith r structs enums (i :: items) =
      (ofItemsWith r structs enums items).map (add (i.outcome r structs enums)) := by
  unfold Item.outcome
  cases hi : i.fragments r structs enums with
  | ok fragments =>
    simp only [ofItemsWith, hi]
    cases ofItemsWith r structs enums items <;> rfl
  | error e =>
    have hreported : e.isReported = true := (h e hi).resolve_left id
    simp only [ofItemsWith, hi, hreported]
    cases ofItemsWith r structs enums items <;> rfl

theorem ofItemsWith_cons_fault (h : i.fragments r structs enums = .error (.fault cause))
    (items : List Item) : ofItemsWith r structs enums (i :: items) = .error (.fault cause) := by
  simp only [ofItemsWith, h]
  rfl

theorem ofItemsWith_eq_ok (h : ∀ i ∈ items, Fails False (i.fragments r structs enums)) :
    ofItemsWith r structs enums items =
      .ok (ofEach (items.map (Item.outcome r structs enums))) := by
  induction items with
  | nil => rfl
  | cons i items ih =>
    rw [ofItemsWith_cons (h i List.mem_cons_self), ih fun j hj => h j (List.mem_cons_of_mem _ hj),
      List.map_cons, ofEach_cons]
    rfl

theorem ofItemsWith_eq_fault {before after : List Item}
    (hbefore : ∀ j ∈ before, Fails False (j.fragments r structs enums))
    (h : i.fragments r structs enums = .error (.fault cause)) :
    ofItemsWith r structs enums (before ++ i :: after) = .error (.fault cause) := by
  induction before with
  | nil => exact ofItemsWith_cons_fault h after
  | cons j before ih =>
    rw [List.cons_append, ofItemsWith_cons (hbefore j List.mem_cons_self),
      ih fun k hk => hbefore k (List.mem_cons_of_mem _ hk)]
    rfl

theorem forall_fails_or_exists_fault (r : Reader) (structs : Structs) (enums : Enums)
    (items : List Item) :
    (∀ i ∈ items, Fails False (i.fragments r structs enums)) ∨
      ∃ before i after cause, items = before ++ i :: after ∧
        (∀ j ∈ before, Fails False (j.fragments r structs enums)) ∧
        i.fragments r structs enums = .error (.fault cause) := by
  induction items with
  | nil => exact .inl (by simp)
  | cons i items ih =>
    rcases Fails.or_fault (i.fragments r structs enums) with hi | ⟨cause, hi⟩
    · rcases ih with hall | ⟨before, j, after, cause, rfl, hbefore, hj⟩
      · exact .inl (List.forall_mem_cons.mpr ⟨hi, hall⟩)
      · exact .inr ⟨i :: before, j, after, cause, rfl, List.forall_mem_cons.mpr ⟨hi, hbefore⟩, hj⟩
    · exact .inr ⟨[], i, items, cause, rfl, by simp, hi⟩

theorem ofItemsWith_eq_ok_iff {o : Outcome} :
    ofItemsWith r structs enums items = .ok o ↔
      (∀ i ∈ items, Fails False (i.fragments r structs enums)) ∧
        o = ofEach (items.map (Item.outcome r structs enums)) := by
  rcases forall_fails_or_exists_fault r structs enums items with
    hall | ⟨before, i, after, cause, rfl, hbefore, hi⟩
  · rw [ofItemsWith_eq_ok hall, Except.ok.injEq]
    exact ⟨fun ho => ⟨hall, ho.symm⟩, fun ho => ho.2.symm⟩
  · rw [ofItemsWith_eq_fault hbefore hi]
    refine iff_of_false nofun fun ⟨hall, _⟩ => ?_
    have hmem : i ∈ before ++ i :: after := List.mem_append_right _ List.mem_cons_self
    exact Fails.false_iff.mp (hall i hmem) cause hi

theorem exists_fault_of_ofItemsWith_eq_error {e : Error}
    (h : ofItemsWith r structs enums items = .error e) :
    ∃ before i after cause, items = before ++ i :: after ∧
      (∀ j ∈ before, Fails False (j.fragments r structs enums)) ∧
      i.fragments r structs enums = .error (.fault cause) ∧ e = .fault cause := by
  rcases forall_fails_or_exists_fault r structs enums items with
    hall | ⟨before, i, after, cause, rfl, hbefore, hi⟩
  · rw [ofItemsWith_eq_ok hall] at h
    cases h
  · rw [ofItemsWith_eq_fault hbefore hi] at h
    cases h
    exact ⟨before, i, after, cause, rfl, hbefore, hi, rfl⟩

end Outcome

open Outcome

/-- A unit returns exactly if none of its declarations ends in a fault, and then it consists of one
    outcome for each declaration, in order. Otherwise its error is the first fault. Sound
    declarations, of which macro calls may hold any text that can be read without a fault, never end
    in one, for any reader. -/
theorem unit_isolates_failures_iff (r : Reader) (items : List Item) :
    let structs := Structs.ofItems items
    let enums := Enums.ofItems items
    (∀ o, ofItems r items = .ok o ↔
      (∀ i ∈ items, ∀ cause, i.fragments r structs enums ≠ .error (.fault cause)) ∧
        o = ofEach (items.map (Item.outcome r structs enums))) ∧
    (∀ e, ofItems r items = .error e → ∃ before i after cause, items = before ++ i :: after ∧
      (∀ j ∈ before, ∀ cause, j.fragments r structs enums ≠ .error (.fault cause)) ∧
        i.fragments r structs enums = .error (.fault cause) ∧ e = .fault cause) ∧
    ((∀ i ∈ items, i.isSound r.isSound = true) →
      ofItems r items = .ok (ofEach (items.map (Item.outcome r structs enums)))) := by
  intro structs enums
  simp only [← Fails.false_iff]
  refine ⟨fun _ => ofItemsWith_eq_ok_iff, fun _ => exists_fault_of_ofItemsWith_eq_error, ?_⟩
  exact fun hsound =>
    ofItemsWith_eq_ok fun i hi => Item.fails_fragments (.inr (hsound i hi)) structs enums

/-- A function that calls a macro. -/
def callingFn (name called tokens : String) : Item :=
  .fn ⟨name, [], [.mac ⟨called, tokens⟩ true], none, none, false⟩

/-- An unknown macro and an enum that cannot be emitted are reported, and the function before and
    the constant behind them are emitted. -/
theorem reported_failures_are_isolated :
    let r := Reader.ofTable [("x", .ident "x")]
    let items :=
      [callingFn "f" "println" "\"\x7b\x7d \x7b0\x7d\", x", callingFn "g" "regex" "a",
       .enum ⟨"E", [⟨"A", .named, ["type"]⟩]⟩, .const ⟨"N", .lit (.int 1), none, false⟩]
    (items.all fun i => i.isSound r.isSound) = true ∧
      ∃ o, ofItems r items = .ok o ∧ o.fragments.length = 2 ∧
        o.diagnostics =
          [⟨"g", .refusal (.unknownMacro "regex")⟩, ⟨"E", .refusal (.tagField "A")⟩] := by
  intro r items
  have hsound : (items.all fun i => i.isSound r.isSound) = true := rfl
  have hunit := (unit_isolates_failures_iff r items).2.2 (List.all_eq_true.mp hsound)
  exact ⟨hsound, _, hunit, rfl, rfl⟩

/-- An escape for a character beyond the last one ends the unit, and with it the function that is
    emitted when it stands alone. -/
theorem bad_escape_ends_unit :
    let r := Reader.ofTable []
    let good := callingFn "f" "println" "\"a\""
    let bad := callingFn "g" "println" "\"\\u\x7b110000\x7d\""
    (∃ fragments, ofItems r [good] = .ok ⟨fragments, []⟩) ∧
      ofItems r [good, bad] = .error (.fault .badNumber) :=
  ⟨⟨_, rfl⟩, rfl⟩

end RustScript
