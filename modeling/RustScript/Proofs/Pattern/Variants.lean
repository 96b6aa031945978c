/-
  Variants: how they are built and how they are taken apart.

  The factory of a variant, a literal with named fields and a pattern each spell out the object on
  their own (`Variant.payload`). The pattern looks at the path only, so that it reads something else
  if the variant is called `Some`, `Ok` or `Err` or its enum is not capitalized.
-/
import RustScript.Proofs.Emit.Braces
import RustScript.Proofs.Pattern.Rests
import RustScript.Proofs.Program.Parameters

namespace RustScript

open Js (Access Operand commas)

/-! ## Building -/

namespace Variant

/-- The member of the enum's object, put together from the slots of the variant. -/
def member (v : Variant) : String :=
  if v.shape = .unit then v.name ++ ": " ++ (Operand.word v.name).text
  else factory v.name (Slots.params v.payload) (v.payload.map Slot.entry)

theorem emit_eq_member {v : Variant} {code : String} (h : v.emit = .ok code) : code = v.member := by
  by_cases hshape : v.shape = .unit
  · rw [emit, hshape] at h
    rw [member, if_pos hshape, ← Except.ok.inj h]
    simp only [Operand.text, String.append_assoc]
    rfl
  · rw [member, if_neg hshape]
    exact emit_eq_factory h hshape

theorem mapM_emit {vs : List Variant} {members : List String} (h : vs.mapM emit = .ok members) :
    members = vs.map member := by
  induction vs generalizing members with
  | nil => cases h; rfl
  | cons v vs ih =>
    rw [List.mapM_cons] at h
    obtain ⟨code, rest, hcode, hrest, rfl⟩ := exists_of_both_eq_ok h
    rw [emit_eq_member hcode, ih hrest, List.map_cons]

end Variant

theorem EnumDecl.emit_eq {d : EnumDecl} {code : String} (h : d.emit = .ok code) :
    ∃ rest, code = "const " ++ d.ident ++ " = \x7b\n" ++
      ",\n".intercalate (d.variants.map Variant.member ++ conversions d.ident) ++ rest := by
  obtain ⟨members, hmembers, rfl⟩ := exists_of_return_eq_ok h
  rw [Variant.mapM_emit hmembers]
  exact ⟨_, String.append_assoc ..⟩

namespace Js

def Property.name : Property → String
  | .short name => name
  | .pair name _ => name

/-- An object with a tag and these properties behind it. -/
def Expr.IsTagged (tag : String) (names : List String) (code : Expr) : Prop :=
  ∃ props, code = .object (.pair "type" (.atom (Operand.word tag).text) :: props) ∧
    props.map Property.name = names

end Js

namespace Emit

variable {expand : MacroCall → Emit Js.Expr} {place : Place} {s t : State} {fields : List FieldInit}

theorem map_fst_of_fieldInits {values : List (String × Js.Expr)}
    (h : fieldInits expand fields place s = (.ok values, t)) :
    values.map Prod.fst = fields.map FieldInit.name := by
  induction fields generalizing s values with
  | nil =>
    rw [fieldInits] at h
    cases h
    rfl
  | cons field fields ih =>
    obtain ⟨name, value⟩ := field
    rw [fieldInits] at h
    obtain ⟨code, rest, u, -, hrest, rfl⟩ := exists_of_both h
    rw [List.map_cons, List.map_cons, ih hrest]

theorem map_name_variantFields (values : List (String × Js.Expr)) :
    (variantFields values).map Js.Property.name = values.map Prod.fst := by
  rw [variantFields, List.map_map]
  refine List.map_congr_left fun value _ => ?_
  obtain ⟨name, code⟩ := value
  simp only [Function.comp_apply]
  split <;> rfl

theorem structLit_of_isCapitalized {enum : String} (h : Name.isCapitalized enum = true)
    (name : String) (values : List (String × Js.Expr)) :
    structLit [enum, name] values none =
      pure (.object (.pair "type" (.atom (Operand.word name).text) :: variantFields values)) := by
  have hvariant : Path.isVariant [enum, name] = true := h
  rw [structLit]
  simp only [hvariant, if_true]
  rfl

theorem isTagged_structLit_iff {enum name : String} {code : Js.Expr}
    (h : expr expand (.structLit [enum, name] fields none) .value place s = (.ok code, t)) :
    code.IsTagged name (fields.map FieldInit.name) ↔ Name.isCapitalized enum = true := by
  rw [expr, action] at h
  obtain ⟨values, u, hvalues, h⟩ := exists_of_bind h
  constructor
  · rintro ⟨props, rfl, -⟩
    have hopens := begins_structLit [enum, name] values none h
    rw [Js.Expr.opensBrace_object] at hopens
    exact hopens.symm
  · intro henum
    rw [structLit_of_isCapitalized henum] at h
    cases h
    exact ⟨_, rfl, (map_name_variantFields values).trans (map_fst_of_fieldInits hvalues)⟩

end Emit

/-! ## Taking apart -/

namespace Variant

/-- The pattern with a variable for each field. -/
def pattern (v : Variant) (enum : String) (names : List String) : Pat :=
  match v.shape with
  | .unit => .path [enum, v.name]
  | .tuple => .tupleStruct [enum, v.name] (names.map Pat.plain)
  | .named =>
    .struct [enum, v.name] (List.zipWith (fun field name => ⟨field, .plain name⟩) v.fields names)
      false

/-- What such a pattern should demand, and what it should bind, by the slots of the variant. -/
def matcher (v : Variant) (place : Access) (names : List String) : Matcher :=
  if v.shape = .unit then .test (.equals place (.word v.name))
  else
    ⟨[.equals (.prop place "type") (.word v.name)],
      List.zipWith (fun name slot => ⟨name, .prop place slot.property, false⟩) names v.payload⟩

/-- Whether the path stands for the variant in a pattern of its shape. -/
def isRecognised (v : Variant) (known : KnownTypes) (enum : String) : Bool :=
  match v.shape with
  | .unit => v.name != "None"
  | .tuple => known.readsPayload [enum, v.name] v.name
  | .named => Name.isCapitalized enum

variable {vocab : Vocabulary} {names fields : List String} {name enum : String}

theorem compile_plain {x : String} (h : (Pat.plain x).vars = [x]) (place : Access) :
    (Pat.plain x).compile vocab place = .ok ⟨[], [⟨x, place, false⟩]⟩ := by
  rw [Pat.plain, Pat.vars] at h
  obtain ⟨hnone, hconstant⟩ : ¬(x == "None") = true ∧ ¬Name.isConstant x = true := by
    split at h
    · cases h
    · next hfree => exact not_or.mp fun hor => hfree (Bool.or_eq_true_iff.mpr hor)
  rw [Pat.plain, Pat.compile, if_neg hnone, if_neg hconstant]

theorem compileAt_map_plain (h : ∀ x ∈ names, (Pat.plain x).vars = [x]) (places : List Access) :
    Pat.compileAt vocab (names.map Pat.plain) places =
      .ok ⟨[], List.zipWith (fun x place => ⟨x, place, false⟩) names places⟩ := by
  induction names generalizing places with
  | nil => rfl
  | cons x names ih =>
    obtain _ | ⟨place, places⟩ := places
    · rfl
    · exact Pat.compileAt_cons_eq_ok_iff.mpr
        ⟨_, _, compile_plain (h x List.mem_cons_self) place,
          ih (fun y hy => h y (List.mem_cons_of_mem x hy)) places, rfl⟩

theorem compileFields_zipWith_plain (h : ∀ x ∈ names, (Pat.plain x).vars = [x]) (place : Access)
    (fields : List String) :
    Pat.compileFields vocab place
        (List.zipWith (fun field x => ⟨field, .plain x⟩) fields names) =
      .ok ⟨[], List.zipWith (fun x field => ⟨x, .prop place field, false⟩) names fields⟩ := by
  induction names generalizing fields with
  | nil => rw [List.zipWith_nil_right]; rfl
  | cons x names ih =>
    obtain _ | ⟨field, fields⟩ := fields
    · rfl
    · rw [List.zipWith_cons_cons, List.zipWith_cons_cons, Pat.compileFields,
        compile_plain (h x List.mem_cons_self), ih fun y hy => h y (List.mem_cons_of_mem x hy)]
      rfl

theorem layout_tests_iff {place : Access} {path : List String} {name : String} {elems : List Pat} :
    (vocab.layout place path name elems).1 = [.equals (.prop place "type") (.word name)] ↔
      vocab.readsPayload path name = true := by
  refine ⟨fun h => ?_, fun h => by rw [Pat.layout_payload h]⟩
  unfold Vocabulary.layout at h
  split at h
  · cases h
  split at h
  · cases h
  split at h
  · cases h
  split at h
  · cases h
  · rename_i hsome hok herr _ harity
    rw [KnownTypes.readsPayload, harity]
    simp_all

theorem zipWith_payload (place : Access) (hlen : names.length = fields.length) :
    List.zipWith (fun x slot => (⟨x, .prop place slot.property, false⟩ : Bound)) names
        (payload ⟨name, .tuple, fields⟩) =
      List.zipWith (fun x place => ⟨x, place, false⟩) names
        (payloadSpots place 0 (names.map Pat.plain)) := by
  rw [Pat.payloadSpots_eq_map, List.length_map, hlen, ← List.range_eq_range', payload,
    List.zipWith_map_right, List.zipWith_map_right]

theorem compile_tuple_iff (hlen : names.length = fields.length)
    (hnames : ∀ x ∈ names, (Pat.plain x).vars = [x]) (vocab : Vocabulary) (place : Access) :
    (pattern ⟨name, .tuple, fields⟩ enum names).compile vocab place =
        .ok (matcher ⟨name, .tuple, fields⟩ place names) ↔
      vocab.readsPayload [enum, name] name = true := by
  have hpath : [enum, name].getLast? = some name := rfl
  change (Pat.tupleStruct [enum, name] (names.map Pat.plain)).compile vocab place = .ok _ ↔ _
  rw [Pat.compile_tupleStruct_eq_ok_iff hpath,
    ← @layout_tests_iff vocab place [enum, name] name (names.map Pat.plain)]
  constructor
  · rintro ⟨n, hn, hm⟩
    rw [compileAt_map_plain hnames] at hn
    cases hn
    exact ((List.append_nil _).symm.trans (congrArg Matcher.tests hm).symm)
  · intro htests
    refine ⟨_, compileAt_map_plain hnames _, ?_⟩
    rw [htests, Pat.layout_payload (layout_tests_iff.mp htests), ← zipWith_payload place hlen]
    rfl

theorem compile_named_iff (hnames : ∀ x ∈ names, (Pat.plain x).vars = [x]) (vocab : Vocabulary)
    (place : Access) :
    (pattern ⟨name, .named, fields⟩ enum names).compile vocab place =
        .ok (matcher ⟨name, .named, fields⟩ place names) ↔
      Name.isCapitalized enum = true := by
  have hopen : (pattern ⟨name, .named, fields⟩ enum names).compile vocab place = .ok
      ⟨if Name.isCapitalized enum then [.equals (.prop place "type") (.word name)] else [],
        List.zipWith (fun x field => ⟨x, .prop place field, false⟩) names fields⟩ := by
    have hvariant : Path.isVariant [enum, name] = Name.isCapitalized enum := rfl
    rw [pattern, Pat.compile, compileFields_zipWith_plain hnames, hvariant]
    cases Name.isCapitalized enum <;> rfl
  have hmatcher : matcher ⟨name, .named, fields⟩ place names =
      ⟨[.equals (.prop place "type") (.word name)],
        List.zipWith (fun x field => ⟨x, .prop place field, false⟩) names fields⟩ := by
    rw [matcher, if_neg (by simp), payload, List.zipWith_map_right]
    rfl
  rw [hopen, hmatcher]
  cases Name.isCapitalized enum with
  | true => exact iff_of_true rfl rfl
  | false => exact iff_of_false (fun h => by cases h) Bool.false_ne_true

theorem compile_unit_iff (vocab : Vocabulary) (place : Access) :
    (pattern ⟨name, .unit, fields⟩ enum names).compile vocab place =
        .ok (matcher ⟨name, .unit, fields⟩ place names) ↔ (name != "None") = true := by
  have hopen : (pattern ⟨name, .unit, fields⟩ enum names).compile vocab place = .ok
      (.test (if name == "None" then .isNull place else .equals place (.word name))) := by
    rw [pattern, Pat.compile]
    cases hname : name == "None" <;> (simp [Path.last, bind, Except.bind, hname]; rfl)
  rw [hopen, bne]
  cases name == "None" with
  | true => exact iff_of_false (fun h => by cases h) Bool.false_ne_true
  | false => exact iff_of_true rfl rfl

theorem compile_pattern_iff {v : Variant} (hlen : names.length = v.fields.length)
    (hnames : ∀ x ∈ names, (Pat.plain x).vars = [x]) (vocab : Vocabulary) (place : Access) :
    (v.pattern enum names).compile vocab place = .ok (v.matcher place names) ↔
      v.isRecognised vocab.toKnownTypes enum = true := by
  obtain ⟨name, shape, fields⟩ := v
  cases shape with
  | unit => exact compile_unit_iff vocab place
  | tuple => exact compile_tuple_iff hlen hnames vocab place
  | named => exact compile_named_iff hnames vocab place

end Variant

/-! ## The main statement -/

/-- The members of an enum's object spell out the slots of its variants. A pattern with a variable
    for each field tests and binds these slots exactly if it recognises the variant, and a literal
    is an object with these slots exactly if the enum's name looks like one. -/
theorem variants_are_taken_apart_as_built_iff {d : EnumDecl} {code : String}
    (h : d.emit = .ok code) :
    (∃ rest, code = "const " ++ d.ident ++ " = \x7b\n" ++
      ",\n".intercalate (d.variants.map Variant.member ++ EnumDecl.conversions d.ident) ++ rest) ∧
    ∀ v ∈ d.variants,
      (∀ (vocab : Vocabulary) (place : Access) (names : List String),
        names.length = v.fields.length → (∀ x ∈ names, (Pat.plain x).vars = [x]) →
          ((v.pattern d.ident names).compile vocab place = .ok (v.matcher place names) ↔
            v.isRecognised vocab.toKnownTypes d.ident = true)) ∧
      ∀ (expand : MacroCall → Emit Js.Expr) (fields : List FieldInit) (place : Place)
        (s t : State) (literal : Js.Expr), v.shape = .named →
          (fields.map FieldInit.name).Perm (v.payload.map Slot.property) →
          Emit.expr expand (.structLit [d.ident, v.name] fields none) .value place s =
            (.ok literal, t) →
          (literal.IsTagged v.name (fields.map FieldInit.name) ↔
            Name.isCapitalized d.ident = true) := by
  refine ⟨EnumDecl.emit_eq h, fun v _ => ⟨fun vocab place names hlen hnames => ?_, ?_⟩⟩
  · exact Variant.compile_pattern_iff hlen hnames vocab place
  · intro expand fields place s t literal _ _ hrun
    exact Emit.isTagged_structLit_iff hrun

/-- An enum with a variant of each shape. -/
def shapes : EnumDecl :=
  ⟨"Shape", [⟨"Point", .unit, []⟩, ⟨"Pair", .tuple, ["0", "1"]⟩,
    ⟨"Span", .named, ["class", "len"]⟩]⟩

theorem shapes_are_taken_apart_as_built :
    let vocab : Vocabulary := ⟨⟨none, []⟩, {}⟩
    (Pat.path ["Shape", "Point"]).compile vocab (.root "s") =
      .ok (.test (.equals (.root "s") (.word "Point"))) ∧
    (Pat.tupleStruct ["Shape", "Pair"] [.plain "a", .plain "b"]).compile vocab (.root "s") =
      .ok ⟨[.equals (.prop (.root "s") "type") (.word "Pair")],
        [⟨"a", .prop (.root "s") "value0", false⟩, ⟨"b", .prop (.root "s") "value1", false⟩]⟩ ∧
    (Pat.struct ["Shape", "Span"] [⟨"class", .plain "a"⟩, ⟨"len", .plain "b"⟩] false).compile vocab
        (.root "s") =
      .ok ⟨[.equals (.prop (.root "s") "type") (.word "Span")],
        [⟨"a", .prop (.root "s") "class", false⟩, ⟨"b", .prop (.root "s") "len", false⟩]⟩ ∧
    ∃ literal, Emit.expr (fun _ => throw (.fault .nesting))
        (.structLit ["Shape", "Span"] [⟨"len", .lit (.int 1)⟩, ⟨"class", .lit (.int 2)⟩] none)
        .value {} {} = (.ok literal, {}) ∧ literal.IsTagged "Span" ["len", "class"] := by
  intro vocab
  obtain ⟨-, h⟩ := variants_are_taken_apart_as_built_iff (d := shapes) rfl
  obtain ⟨hpoint, -⟩ := h ⟨"Point", .unit, []⟩ (by simp [shapes])
  obtain ⟨hpair, -⟩ := h ⟨"Pair", .tuple, ["0", "1"]⟩ (by simp [shapes])
  obtain ⟨hspan, hliteral⟩ := h ⟨"Span", .named, ["class", "len"]⟩ (by simp [shapes])
  have hnames : ∀ x ∈ ["a", "b"], (Pat.plain x).vars = [x] := by decide
  refine ⟨(hpoint vocab _ [] rfl (by simp)).mpr (by decide),
    (hpair vocab _ ["a", "b"] rfl hnames).mpr (by decide),
    (hspan vocab _ ["a", "b"] rfl hnames).mpr (by decide), _, rfl, ?_⟩
  exact (hliteral (fun _ => throw (.fault .nesting)) [⟨"len", .lit (.int 1)⟩, ⟨"class", .lit (.int 2)⟩]
    {} {} _ _ rfl (List.Perm.swap "class" "len" []) rfl).mpr (by decide)

/-- A variant with the name of the empty option: its value is a text, and its pattern asks for the
    lack of a value. -/
theorem variant_none_is_not_recognised :
    let v : Variant := ⟨"None", .unit, []⟩
    v.emit = .ok "None: \"None\"" ∧
      (v.pattern "Color" []).compile ⟨⟨none, []⟩, {}⟩ (.root "s") =
        .ok (.test (.isNull (.root "s"))) ∧
      (v.pattern "Color" []).compile ⟨⟨none, []⟩, {}⟩ (.root "s") ≠
        .ok (v.matcher (.root "s") []) := by
  refine ⟨rfl, rfl, fun h => ?_⟩
  have hname := (Variant.compile_pattern_iff rfl (by simp) _ _).mp h
  exact absurd hname (by decide)

end RustScript
