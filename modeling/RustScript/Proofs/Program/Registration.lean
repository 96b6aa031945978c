/-
  What a failed registration leaves behind.

  A declaration is made known before it is emitted. Of those that make themselves known only an enum
  can fail, by a field with the name of the tag. Its name then stays known, and methods for it that
  would have been taken before are refused.
-/
import RustScript.Proofs.Program.Declarations
import RustScript.Registry

namespace RustScript

namespace Registry

/-! ## Calls one after the other -/

/-- What a registry is asked to take in. -/
inductive Request where
  | item (i : Item)
  | source (text : String) (read : String → Except Error (List Item))

def answer (g : Registry) (r : Reader) : Request → Except Error (List String) × Registry
  | .item i => g.register r i
  | .source text read => g.registerSource text r read

/-- The answers to requests, one after the other. -/
def answers (g : Registry) (r : Reader) : List Request → List (Except Error (List String))
  | [] => []
  | q :: qs => (g.answer r q).1 :: (g.answer r q).2.answers r qs

/-! ## The registry after a failure -/

/-- The declaration makes an enum known that was not known before. -/
def IsNewEnum (g : Registry) (i : Item) : Prop := ∃ d, i = .enum d ∧ d.ident ∉ g.enums

/-- What a registration answers depends on the declarations known so far and its own. -/
theorem register_fst (g : Registry) (r : Reader) (i : Item) :
    (g.register r i).1 = i.fragments r (g.learn [i]).structs (g.learn [i]).enums := by
  unfold register
  dsimp only
  split
  · next hf => exact hf.symm
  · next hf => exact hf.symm

variable {g : Registry}

theorem register_snd_of_error {r : Reader} {i : Item} {e : Error}
    (h : (g.register r i).1 = .error e) : (g.register r i).2 = g.learn [i] := by
  rw [register_fst] at h
  simp only [register, h]

theorem learn_enum (g : Registry) (d : EnumDecl) :
    g.learn [.enum d] =
      { g with enums := if g.enums.contains d.ident then g.enums else g.enums ++ [d.ident] } :=
  rfl

/-- Only the enums can change, and only by a name that is new. -/
theorem learn_of_error {r : Reader} {i : Item} {e : Error} (h : (g.register r i).1 = .error e) :
    (¬ g.IsNewEnum i ∧ g.learn [i] = g) ∨
      ∃ d, i = .enum d ∧ d.ident ∉ g.enums ∧ (∃ v ∈ d.variants, v.hasTagField = true) ∧
        g.learn [i] = { g with enums := g.enums ++ [d.ident] } := by
  rw [register_fst] at h
  cases i with
  | struct d => cases h
  | enum d =>
    have hemit : ∃ e, d.emit = .error e := by
      cases hd : d.emit with
      | error e => exact ⟨e, rfl⟩
      | ok text =>
        rw [Item.fragments, hd] at h
        cases h
    obtain ⟨e, hemit⟩ := hemit
    by_cases hknown : d.ident ∈ g.enums
    · refine .inl ⟨?_, ?_⟩
      · rintro ⟨d', hd', hnew⟩
        cases hd'
        exact hnew hknown
      · rw [learn_enum, if_pos (List.contains_iff_mem.mpr hknown)]
    · obtain ⟨v, hv, htag, -⟩ := EnumDecl.emit_eq_error hemit
      refine .inr ⟨d, rfl, hknown, ⟨v, hv, htag⟩, ?_⟩
      rw [learn_enum, if_neg (mt List.contains_iff_mem.mp hknown)]
  | _ =>
    refine .inl ⟨?_, rfl⟩
    rintro ⟨d, hd, -⟩
    cases hd

/-! ## Telling the registries apart -/

/-- An impl block with one method that does nothing. -/
def emptyMethod (type : String) : Item := .impl ⟨type, [⟨"f", [], [], some {}, none, false⟩], none⟩

variable {type : String}

theorem register_emptyMethod_error (r : Reader) (h : type ∈ g.enums) :
    (g.register r (emptyMethod type)).1 = .error (.refusal (.enumReceiver type "f")) := by
  have hcontains : g.enums.contains type = true := List.contains_iff_mem.mpr h
  rw [register_fst]
  change (emptyMethod type).fragments r g.structs g.enums = _
  simp only [emptyMethod, Item.fragments, ImplDecl.emit, hcontains]
  rfl

theorem register_emptyMethod_ok (r : Reader) (h : type ∉ g.enums) :
    ∃ fragments, (g.register r (emptyMethod type)).1 = .ok fragments := by
  have hcontains : g.enums.contains type = false := by simpa using h
  rw [register_fst]
  change ∃ fragments, (emptyMethod type).fragments r g.structs g.enums = .ok fragments
  simp only [emptyMethod, Item.fragments, ImplDecl.emit, hcontains]
  exact ⟨_, rfl⟩

theorem answers_ne {name : String} (r : Reader) (h : name ∉ g.enums) :
    ({ g with enums := g.enums ++ [name] } : Registry).answers r [.item (emptyMethod name)] ≠
      g.answers r [.item (emptyMethod name)] := by
  have hrefused := register_emptyMethod_error (g := { g with enums := g.enums ++ [name] }) r
    (List.mem_append_right _ List.mem_cons_self)
  obtain ⟨fragments, htaken⟩ := register_emptyMethod_ok r h
  intro heq
  have hfirst := (List.cons.inj heq).1
  simp only [answer, hrefused, htaken] at hfirst
  cases hfirst

/-- A failed registration keeps the fragments and the structs. It changes the registry exactly if
    the declaration is an enum, of which then a variant has a tag field, and its name was not known
    before; the name is then known. Later calls can tell in this case and in no other. -/
theorem failed_registration_unnoticed_iff {g : Registry} {r : Reader} {i : Item} {e : Error}
    (h : (g.register r i).1 = .error e) :
    (g.register r i).2.fragments = g.fragments ∧
    (g.register r i).2.structs = g.structs ∧
    ((g.register r i).2 = g ↔ ¬ g.IsNewEnum i) ∧
    ((∀ requests, (g.register r i).2.answers r requests = g.answers r requests) ↔ ¬ g.IsNewEnum i) ∧
    ∀ d, i = .enum d → d.ident ∉ g.enums →
      (∃ v ∈ d.variants, v.hasTagField = true) ∧
        (g.register r i).2.enums = g.enums ++ [d.ident] := by
  rw [register_snd_of_error h]
  rcases learn_of_error h with ⟨hold, hsame⟩ | ⟨d, rfl, hnew, htag, hgrown⟩
  · rw [hsame]
    refine ⟨rfl, rfl, iff_of_true rfl hold, iff_of_true (fun _ => rfl) hold, ?_⟩
    exact fun d hd hident => absurd ⟨d, hd, hident⟩ hold
  · have hnewEnum : g.IsNewEnum (.enum d) := ⟨d, rfl, hnew⟩
    rw [hgrown]
    refine ⟨rfl, rfl, iff_of_false ?_ (not_not_intro hnewEnum),
      iff_of_false ?_ (not_not_intro hnewEnum), ?_⟩
    · intro hsame
      have hlen := congrArg (fun g : Registry => g.enums.length) hsame
      simp at hlen
    · exact fun hanswers => answers_ne r hnew (hanswers _)
    · rintro d' hd' -
      cases hd'
      exact ⟨htag, rfl⟩

/-- The enum is known already, so its second registration fails without a trace. -/
theorem known_enum_fails_unnoticed :
    let g : Registry := { enums := ["E"] }
    let i : Item := .enum ⟨"E", [⟨"A", .named, ["type"]⟩]⟩
    let r := Reader.ofTable []
    (g.register r i).1 = .error (.refusal (.tagField "A")) ∧ ¬ g.IsNewEnum i ∧
      (g.register r i).2 = g := by
  intro g i r
  have hfail : (g.register r i).1 = .error (.refusal (.tagField "A")) := rfl
  have hold : ¬ g.IsNewEnum i := by
    rintro ⟨d, hd, hnew⟩
    obtain rfl := Item.enum.inj hd
    exact hnew List.mem_cons_self
  exact ⟨hfail, hold, (failed_registration_unnoticed_iff hfail).2.2.1.mpr hold⟩

/-- An enum that fails leaves its name behind: a method for the name is taken by an empty registry,
    and refused after the failure. -/
theorem failed_enum_is_noticed :
    let r := Reader.ofTable []
    let i : Item := .enum ⟨"E", [⟨"A", .named, ["type"]⟩]⟩
    let g : Registry := {}
    (g.register r i).1 = .error (.refusal (.tagField "A")) ∧
      (g.register r i).2.enums = ["E"] ∧
      ∃ fragments, g.answers r [.item (emptyMethod "E")] = [.ok fragments] ∧
        (g.register r i).2.answers r [.item (emptyMethod "E")] =
          [.error (.refusal (.enumReceiver "E" "f"))] :=
  ⟨rfl, rfl, _, rfl, rfl⟩

end Registry

end RustScript
