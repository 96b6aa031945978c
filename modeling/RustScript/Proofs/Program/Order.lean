/-
  The order of declarations in a unit.

  Which struct a name is looked up to depends on the order only if two structs have the name. A
  declaration sees no more of the tables and starts in a fresh state, so that its outcome is the
  same wherever it stands.
-/
import RustScript.Proofs.Program.Isolation

namespace RustScript

def Item.structName? : Item → Option String
  | .struct d => some d.ident
  | _ => none

def Item.enumName? : Item → Option String
  | .enum d => some d.ident
  | _ => none

theorem Item.structName?_eq_some {i : Item} {name : String} (h : i.structName? = some name) :
    ∃ d : StructDecl, i = .struct d ∧ d.ident = name := by
  cases i with
  | struct d => exact ⟨d, rfl, Option.some.inj h⟩
  | _ => cases h

/-! ## The structs of a unit -/

namespace Structs

variable {name key : String}

theorem lookup_cons_of_ne (structs : Structs) (h : key ≠ name) (fields : List String) :
    List.lookup key ((name, fields) :: structs) = structs.lookup key := by
  rw [List.lookup_cons, beq_false_of_ne h]

theorem lookup_insert_of_ne (structs : Structs) (h : key ≠ name) (fields : List String) :
    (structs.insert name fields).lookup key = structs.lookup key := by
  unfold insert
  split
  · next hknown =>
    clear hknown
    induction structs with
    | nil => rfl
    | cons s structs ih =>
      obtain ⟨other, old⟩ := s
      rw [List.map_cons]
      by_cases hother : other = name
      · simp only [hother, beq_self_eq_true, if_true]
        rw [lookup_cons_of_ne _ h, lookup_cons_of_ne _ h, ih]
      · simp only [beq_false_of_ne hother, Bool.false_eq_true, if_false]
        rw [List.lookup_cons, List.lookup_cons, ih]
  · rw [List.lookup_append, lookup_cons_of_ne [] h, List.lookup_nil, Option.or_none]

theorem lookup_insert_self (structs : Structs) (name : String) (fields : List String) :
    (structs.insert name fields).lookup name = some fields := by
  unfold insert
  split
  · next hknown =>
    induction structs with
    | nil => cases hknown
    | cons s structs ih =>
      obtain ⟨other, old⟩ := s
      rw [List.map_cons]
      by_cases hother : other = name
      · simp [hother]
      · have hrest : (structs.any fun s => s.1 == name) = true := by simpa [hother] using hknown
        simp only [beq_false_of_ne hother]
        exact (lookup_cons_of_ne _ (Ne.symm hother) old).trans (ih hrest)
  · next hnew =>
    have hnone : structs.lookup name = none := by
      rw [List.lookup_eq_none_iff]
      intro s hs
      simp only [List.any_eq_true, not_exists, not_and] at hnew
      exact bne_iff_ne.mpr fun heq => hnew s hs (beq_iff_eq.mpr heq.symm)
    rw [List.lookup_append, hnone, List.lookup_cons_self]
    rfl

theorem addItems_cons (structs : Structs) (i : Item) (items : List Item) :
    structs.addItems (i :: items) = (structs.addItems [i]).addItems items :=
  rfl

theorem addItems_singleton_of_ne_struct {i : Item} (h : i.structName? = none)
    (structs : Structs) : structs.addItems [i] = structs := by
  cases i with
  | struct d => cases h
  | _ => rfl

variable {items : List Item}

theorem lookup_addItems_of_notMem {key : String} (h : key ∉ items.filterMap Item.structName?)
    (structs : Structs) : (structs.addItems items).lookup key = structs.lookup key := by
  induction items generalizing structs with
  | nil => rfl
  | cons i items ih =>
    rw [addItems_cons]
    cases hi : i.structName? with
    | none =>
      rw [List.filterMap_cons_none hi] at h
      rw [addItems_singleton_of_ne_struct hi, ih h]
    | some name =>
      obtain ⟨d, rfl, rfl⟩ := Item.structName?_eq_some hi
      rw [List.filterMap_cons_some hi, List.mem_cons, not_or] at h
      rw [ih h.2]
      exact lookup_insert_of_ne structs h.1 d.fieldNames

theorem lookup_addItems_of_mem {d : StructDecl}
    (hnames : (items.filterMap Item.structName?).Nodup) (hd : .struct d ∈ items)
    (structs : Structs) : (structs.addItems items).lookup d.ident = some d.fieldNames := by
  induction items generalizing structs with
  | nil => cases hd
  | cons i items ih =>
    rw [addItems_cons]
    rcases List.mem_cons.mp hd with rfl | hd
    · -- the struct itself; none of the name follows
      have hname : (Item.struct d).structName? = some d.ident := rfl
      rw [List.filterMap_cons_some hname, List.nodup_cons] at hnames
      rw [lookup_addItems_of_notMem hnames.1]
      exact lookup_insert_self structs d.ident d.fieldNames
    · have hrest : (items.filterMap Item.structName?).Nodup := by
        cases hi : i.structName? with
        | none => rwa [List.filterMap_cons_none hi] at hnames
        | some name =>
          rw [List.filterMap_cons_some hi, List.nodup_cons] at hnames
          exact hnames.2
      exact ih hrest hd _

/-- Structs with names of their own are found by name in any order. -/
theorem lookup_ofItems_of_perm {items permuted : List Item}
    (hnames : (items.filterMap Item.structName?).Nodup) (hperm : items.Perm permuted)
    (key : String) : (ofItems permuted).lookup key = (ofItems items).lookup key := by
  have hsame := hperm.filterMap Item.structName?
  by_cases hkey : key ∈ items.filterMap Item.structName?
  · obtain ⟨i, hi, hname⟩ := List.mem_filterMap.mp hkey
    obtain ⟨d, rfl, rfl⟩ := Item.structName?_eq_some hname
    unfold ofItems
    rw [lookup_addItems_of_mem hnames hi,
      lookup_addItems_of_mem (hsame.nodup_iff.mp hnames) (hperm.mem_iff.mp hi)]
  · unfold ofItems
    rw [lookup_addItems_of_notMem hkey, lookup_addItems_of_notMem (mt hsame.mem_iff.mpr hkey)]

end Structs

/-! ## The enums of a unit -/

namespace Enums

theorem contains_addItems_singleton (enums : Enums) (i : Item) (key : String) :
    (addItems enums [i]).contains key =
      (List.contains enums key || i.enumName? == some key) := by
  cases i with
  | enum d =>
    have hone : addItems enums [.enum d] =
        if enums.contains d.ident then enums else enums ++ [d.ident] := rfl
    have hname : ((Item.enum d).enumName? == some key) = (d.ident == key) := rfl
    rw [hone, hname]
    by_cases hkey : d.ident = key
    · subst hkey
      split
      · next hknown => simpa using hknown
      · simp
    · split
      · simp [hkey]
      · simp [hkey, Ne.symm hkey]
  | _ => simp [addItems, Item.enumName?]

theorem contains_addItems (enums : Enums) (items : List Item) (key : String) :
    (addItems enums items).contains key =
      (List.contains enums key || items.any fun i => i.enumName? == some key) := by
  induction items generalizing enums with
  | nil => simp [addItems]
  | cons i items ih =>
    have hcons : addItems enums (i :: items) = addItems (addItems enums [i]) items := rfl
    rw [hcons, ih, contains_addItems_singleton, List.any_cons, Bool.or_assoc]

theorem contains_ofItems_of_perm {items permuted : List Item} (hperm : items.Perm permuted)
    (key : String) : (ofItems permuted).contains key = (ofItems items).contains key := by
  unfold ofItems
  rw [contains_addItems, contains_addItems, hperm.any_eq]

end Enums

/-! ## Outcomes in any order -/

theorem Item.fragments_of_perm (r : Reader) {items permuted : List Item}
    (hnames : (items.filterMap Item.structName?).Nodup) (hperm : items.Perm permuted) (i : Item) :
    i.fragments r (Structs.ofItems permuted) (Enums.ofItems permuted) =
      i.fragments r (Structs.ofItems items) (Enums.ofItems items) :=
  i.fragments_congr (Structs.lookup_ofItems_of_perm hnames hperm)
    (Enums.contains_ofItems_of_perm hperm)

/-- In a unit that returns and in which no two structs have the same name, each declaration has one
    outcome, whatever the order: the unit consists of the outcomes in its order, and it returns in
    every other order too and consists of the same outcomes in that order. -/
theorem outcomes_independent_of_order (r : Reader) {items permuted : List Item} {o : Outcome}
    (hnames : (items.filterMap Item.structName?).Nodup) (hperm : items.Perm permuted)
    (h : Outcome.ofItems r items = .ok o) :
    ∃ outcome : Item → Except Diagnostic (List String),
      (∀ i, i.outcome r (Structs.ofItems items) (Enums.ofItems items) = outcome i ∧
        i.outcome r (Structs.ofItems permuted) (Enums.ofItems permuted) = outcome i) ∧
      o = .ofEach (items.map outcome) ∧
      Outcome.ofItems r permuted = .ok (.ofEach (permuted.map outcome)) := by
  have hfragments := Item.fragments_of_perm r hnames hperm
  have houtcome : Item.outcome r (Structs.ofItems permuted) (Enums.ofItems permuted) =
      Item.outcome r (Structs.ofItems items) (Enums.ofItems items) := by
    funext i
    simp only [Item.outcome, hfragments i]
  obtain ⟨hreported, ho⟩ := Outcome.ofItemsWith_eq_ok_iff.mp h
  refine ⟨_, fun i => ⟨rfl, congrFun houtcome i⟩, ho, ?_⟩
  rw [← houtcome]
  refine Outcome.ofItemsWith_eq_ok fun i hi => ?_
  rw [hfragments i]
  exact hreported i (hperm.mem_iff.mpr hi)

/-- A function that fills in a struct by its field names comes out the same before and after the
    struct, and a method for an enum is reported before and after the enum. -/
theorem outcomes_independent_of_reversal :
    let r := Reader.ofTable []
    let build : Item :=
      .fn ⟨"f", [], [.expr (.structLit ["P"] [⟨"y", .lit (.int 1)⟩, ⟨"x", .lit (.int 2)⟩] none)
        false], none, none, false⟩
    let items : List Item :=
      [.struct ⟨"P", ["x", "y"], .named⟩, build, .enum ⟨"E", [⟨"A", .unit, []⟩]⟩,
       .impl ⟨"E", [⟨"m", [], [], some {}, none, false⟩], none⟩]
    (items.filterMap Item.structName?).Nodup ∧ items.Perm items.reverse ∧
      (∃ o, Outcome.ofItems r items = .ok o) ∧
      ∃ outcome : Item → Except Diagnostic (List String),
        outcome build = .ok ["function f() \x7b\nreturn new P(2, 1);\n\x7d"] ∧
        Outcome.ofItems r items.reverse = .ok (.ofEach (items.reverse.map outcome)) := by
  intro r build items
  have hnames : (items.filterMap Item.structName?).Nodup := by decide
  have hperm : items.Perm items.reverse := (List.reverse_perm items).symm
  obtain ⟨o, ho⟩ : ∃ o, Outcome.ofItems r items = .ok o := ⟨_, rfl⟩
  obtain ⟨outcome, hsame, -, hreversed⟩ := outcomes_independent_of_order r hnames hperm ho
  refine ⟨hnames, hperm, ⟨o, ho⟩, outcome, ?_, hreversed⟩
  rw [← (hsame build).1]
  rfl

end RustScript
