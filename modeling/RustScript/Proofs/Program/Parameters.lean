/-
  The parameters of constructors and factories.

  They take one argument for each field, under the target of the field's name, which is found
  without a look at the others. Of two parameters of one name the later counts, so the arguments
  reach their fields exactly if no two fields are merged (`Name.target_eq_target_iff`).
-/
import RustScript.Proofs.Scope.Merging
import RustScript.Declaration
import Mathlib.Data.List.Nodup

namespace RustScript

open Js (commas braces)

/-- No two different fields get one parameter. -/
def Name.KeptApart (fields : List String) : Prop :=
  ∀ f ∈ fields, ∀ g ∈ fields, Name.Merges f g → f = g

instance (fields : List String) : Decidable (Name.KeptApart fields) :=
  inferInstanceAs (Decidable (∀ f ∈ fields, _))

/-! ## Slots -/

/-- A property of an object, and the parameter whose argument it gets when the object is made. -/
structure Slot where
  property : String
  param : String

namespace Slot

def ofField (field : String) : Slot := ⟨field, Name.target field⟩

/-- What a parameter holds in a call; of several parameters of one name the last has it. -/
def received {α : Type} : List String → List α → String → Option α
  | p :: ps, a :: as, name => received ps as name <|> if p = name then some a else none
  | _, _, _ => none

variable {params : List String}

theorem received_of_notMem {α : Type} (args : List α) {name : String} (h : name ∉ params) :
    received params args name = none := by
  induction params generalizing args with
  | nil => rfl
  | cons p ps ih =>
    cases args with
    | nil => rfl
    | cons a as =>
      rw [received, ih as fun hmem => h (List.mem_cons_of_mem p hmem),
        if_neg fun heq : p = name => h (heq ▸ List.mem_cons_self)]
      rfl

theorem map_received_of_nodup {α : Type} (h : params.Nodup) {args : List α}
    (hlen : args.length = params.length) : params.map (received params args) = args.map some := by
  induction params generalizing args with
  | nil => rw [List.length_eq_zero_iff.mp hlen]; rfl
  | cons p ps ih =>
    obtain ⟨hp, hps⟩ := List.nodup_cons.mp h
    obtain _ | ⟨a, as⟩ := args
    · cases hlen
    · have hrest := ih hps (Nat.succ_injective hlen)
      have hlater : ∀ q ∈ ps, received (p :: ps) (a :: as) q = received ps as q := by
        intro q hq
        have hsome : received ps as q ∈ as.map some := hrest ▸ List.mem_map_of_mem hq
        obtain ⟨b, -, hb⟩ := List.mem_map.mp hsome
        rw [received, ← hb]
        rfl
      have hfirst : received (p :: ps) (a :: as) p = some a := by
        rw [received, received_of_notMem as hp, if_pos rfl]
        rfl
      rw [List.map_cons, List.map_cons, hfirst, List.map_congr_left hlater, hrest]

/-- The arguments reach their parameters, whatever they are, exactly if the parameters differ. -/
theorem nodup_iff_map_received :
    params.Nodup ↔ ∀ args : List Nat, args.length = params.length →
      params.map (received params args) = args.map some := by
  refine ⟨fun h args hlen => map_received_of_nodup h hlen, fun h => ?_⟩
  have hrange := h (List.range params.length) List.length_range
  refine List.Nodup.of_map (received params (List.range params.length)) ?_
  rw [hrange]
  exact List.nodup_range.map fun _ _ => Option.some.inj

end Slot

/-- The parameters for the slots. -/
def Slots.params (slots : List Slot) : List String := slots.map Slot.param

/-- Each property gets the argument in its own position, in every call. -/
def Slots.Deliver (slots : List Slot) : Prop :=
  ∀ args : List Nat, args.length = slots.length →
    slots.map (fun s => Slot.received (Slots.params slots) args s.param) = args.map some

theorem Slots.deliver_iff {slots : List Slot} :
    Slots.Deliver slots ↔ (Slots.params slots).Nodup := by
  rw [Slot.nodup_iff_map_received, Slots.Deliver, Slots.params, List.length_map]
  simp only [List.map_map, Function.comp_def]

theorem Slots.params_ofField (fields : List String) :
    Slots.params (fields.map Slot.ofField) = fields.map Name.target :=
  List.map_map ..

theorem Slots.nodup_params_ofField_iff {fields : List String} (h : fields.Nodup) :
    (Slots.params (fields.map Slot.ofField)).Nodup ↔ Name.KeptApart fields := by
  rw [params_ofField, List.nodup_map_iff_inj_on h]
  simp only [Name.target_eq_target_iff, Name.KeptApart]

theorem Slots.nodup_map_numbered (slots : Nat → Slot) {lead : String}
    (h : ∀ i, (slots i).param = lead ++ toString i) (count : Nat) :
    (Slots.params ((List.range count).map slots)).Nodup := by
  rw [params, List.map_map]
  refine List.nodup_range.map fun i j hij => ?_
  rw [Function.comp_apply, Function.comp_apply, h, h] at hij
  by_contra hne
  exact Js.numbered_ne lead hne hij

/-! ## Structs and variants -/

/-- The properties that a constructor sets, each with its parameter. -/
def StructDecl.slots (d : StructDecl) : List Slot :=
  match d.shape with
  | .unit => []
  | .tuple => (List.range d.fields.length).map fun i => ⟨toString i, "_" ++ toString i⟩
  | .named => d.fields.map Slot.ofField

/-- A property of the object under construction. -/
def StructDecl.place (d : StructDecl) (property : String) : String :=
  if d.shape = .tuple then "this[" ++ property ++ "]" else "this." ++ property

/-- The text of a constructor that sets these slots. -/
def StructDecl.constructor (d : StructDecl) (slots : List Slot) : String :=
  "constructor(" ++ commas (Slots.params slots) ++ ") " ++
    braces (slots.map fun s => d.place s.property ++ " = " ++ s.param ++ ";")

/-- The slots of a variant's objects, without the tag. -/
def Variant.payload (v : Variant) : List Slot :=
  match v.shape with
  | .unit => []
  | .tuple => (List.range v.fields.length).map fun i => ⟨"value" ++ toString i, "value" ++ toString i⟩
  | .named => v.fields.map Slot.ofField

/-- A property of an object literal; one that has the parameter's name is shortened. -/
def Slot.entry (s : Slot) : String :=
  if s.property == s.param then s.property else s.property ++ ": " ++ s.param

namespace StructDecl

theorem exists_braces_members (name : String) (params assigns : List String) (toJson : String)
    (args : List String) : ∃ rest, braces (members name params assigns toJson args) =
      "\x7b\n" ++ method ("constructor(" ++ commas params ++ ")") assigns ++ rest := by
  refine ⟨"\n" ++ method "toJSON()" ["return " ++ toJson ++ ";"] ++ "\n" ++
    method "static fromJSON(json)" ["return new " ++ name ++ "(" ++ commas args ++ ");"] ++
    "\n\x7d", ?_⟩
  simp only [braces, members, List.isEmpty_cons, Bool.false_eq_true, if_false,
    String.intercalate_cons_cons, String.intercalate_singleton, String.append_assoc]

theorem constructor_eq (d : StructDecl) (slots : List Slot) :
    d.constructor slots = method ("constructor(" ++ commas (Slots.params slots) ++ ")")
      (slots.map fun s => d.place s.property ++ " = " ++ s.param ++ ";") := by
  simp only [constructor, method, String.append_assoc]
  rfl

theorem exists_emit_eq {d : StructDecl} (h : d.shape ≠ .unit) :
    ∃ rest, d.emit = "class " ++ d.ident ++ " " ++ ("\x7b\n" ++ d.constructor d.slots ++ rest) := by
  obtain ⟨ident, fields, shape⟩ := d
  simp only [constructor_eq]
  cases shape with
  | unit => exact absurd rfl h
  | tuple =>
    have hassign : ∀ i : Nat, "this[" ++ toString i ++ "] = _" ++ toString i ++ ";" =
        "this[" ++ toString i ++ "]" ++ " = " ++ ("_" ++ toString i) ++ ";" := by
      intro i
      rw [show "] = _" = "]" ++ " = " ++ "_" from rfl]
      simp only [String.append_assoc]
    obtain ⟨rest, hrest⟩ := exists_braces_members ident _ _ _ _
    refine ⟨rest, congrArg ("class " ++ ident ++ " " ++ ·) (hrest.trans ?_)⟩
    simp only [slots, fieldNames, place, Slots.params, List.map_map, Function.comp_def, hassign,
      if_true]
  | named =>
    obtain ⟨rest, hrest⟩ := exists_braces_members ident _ _ _ _
    refine ⟨rest, congrArg ("class " ++ ident ++ " " ++ ·) (hrest.trans ?_)⟩
    simp only [slots, place, Slots.params_ofField, List.map_map, Function.comp_def, Slot.ofField,
      reduceCtorEq, if_false]

theorem nodup_params_iff {d : StructDecl} (h : d.fields.Nodup) :
    (Slots.params d.slots).Nodup ↔
      (d.shape = .named → Name.KeptApart d.fields) := by
  obtain ⟨ident, fields, shape⟩ := d
  cases shape with
  | unit => simp [slots, Slots.params]
  | tuple =>
    have hslots := Slots.nodup_map_numbered (fun i => ⟨toString i, "_" ++ toString i⟩)
      (fun _ => rfl) fields.length
    simpa [slots] using hslots
  | named => simpa [slots] using Slots.nodup_params_ofField_iff h

end StructDecl

namespace Variant

theorem emit_eq_factory {v : Variant} {code : String} (h : v.emit = .ok code)
    (hshape : v.shape ≠ .unit) :
    code = factory v.name (Slots.params v.payload) (v.payload.map Slot.entry) := by
  obtain ⟨name, shape, fields⟩ := v
  cases shape with
  | unit => exact absurd rfl hshape
  | tuple =>
    rw [← Except.ok.inj h]
    simp [payload, Slots.params, Slot.entry, Function.comp_def]
  | named =>
    have hcode : code = factory name (fields.map Name.target) (fields.map fun f =>
        if f == Name.target f then f else f ++ ": " ++ Name.target f) := by
      simp only [emit] at h
      split at h
      · cases h
      · exact (Except.ok.inj h).symm
    rw [hcode]
    simp [payload, Slots.params, Slot.entry, Slot.ofField, Function.comp_def]

theorem nodup_params_iff {v : Variant} (h : v.fields.Nodup) :
    (Slots.params v.payload).Nodup ↔ (v.shape = .named → Name.KeptApart v.fields) := by
  obtain ⟨name, shape, fields⟩ := v
  cases shape with
  | unit => simp [payload, Slots.params]
  | tuple =>
    have hslots := Slots.nodup_map_numbered
      (fun i => ⟨"value" ++ toString i, "value" ++ toString i⟩) (fun _ => rfl) fields.length
    simpa [payload] using hslots
  | named => simpa [payload] using Slots.nodup_params_ofField_iff h

end Variant

/-! ## The main statement -/

/-- For a struct and for a variant with different fields: the parameters are the ones of its slots,
    and they differ, so that each field gets its own argument, exactly if no two named fields are
    merged. -/
theorem parameters_are_distinct_iff (d : StructDecl) (v : Variant) :
    (d.fields.Nodup → d.shape ≠ .unit → (∃ rest, d.emit =
        "class " ++ d.ident ++ " " ++ ("\x7b\n" ++ d.constructor d.slots ++ rest)) ∧
      ((Slots.params d.slots).Nodup ↔ (d.shape = .named → Name.KeptApart d.fields)) ∧
      (Slots.Deliver d.slots ↔ (d.shape = .named → Name.KeptApart d.fields))) ∧
    ∀ code, v.fields.Nodup → v.shape ≠ .unit → v.emit = .ok code →
      code = Variant.factory v.name (Slots.params v.payload) (v.payload.map Slot.entry) ∧
      ((Slots.params v.payload).Nodup ↔ (v.shape = .named → Name.KeptApart v.fields)) ∧
      (Slots.Deliver v.payload ↔ (v.shape = .named → Name.KeptApart v.fields)) := by
  constructor
  · intro hfields hshape
    exact ⟨StructDecl.exists_emit_eq hshape, StructDecl.nodup_params_iff hfields,
      Slots.deliver_iff.trans (StructDecl.nodup_params_iff hfields)⟩
  · intro code hfields hshape hcode
    exact ⟨Variant.emit_eq_factory hcode hshape, Variant.nodup_params_iff hfields,
      Slots.deliver_iff.trans (Variant.nodup_params_iff hfields)⟩

/-- A struct and a variant with reserved words among their fields. -/
theorem reserved_fields_get_distinct_parameters :
    Slots.params (StructDecl.slots ⟨"S", ["class", "kind", "kind_"], .named⟩) =
      ["class_", "kind", "kind_"] ∧
    Slots.Deliver (StructDecl.slots ⟨"S", ["class", "kind", "kind_"], .named⟩) ∧
    Slots.Deliver (Variant.payload ⟨"V", .named, ["r#in", "default"]⟩) := by
  obtain ⟨hstruct, hvariant⟩ := parameters_are_distinct_iff
    ⟨"S", ["class", "kind", "kind_"], .named⟩ ⟨"V", .named, ["r#in", "default"]⟩
  exact ⟨by decide, (hstruct (by decide) (by decide)).2.2.mpr fun _ => by decide,
    (hvariant _ (by decide) (by decide) rfl).2.2.mpr fun _ => by decide⟩

/-- A reserved word and the word that stands in for it: both parameters have one name, and the first
    field gets the second argument. -/
theorem reserved_field_loses_its_argument :
    let d : StructDecl := ⟨"S", ["class", "class_"], .named⟩
    d.fields.Nodup ∧ Slots.params d.slots = ["class_", "class_"] ∧
      d.slots.map (fun s => Slot.received (Slots.params d.slots) [1, 2] s.param) =
        [some 2, some 2] := by
  decide

end RustScript
