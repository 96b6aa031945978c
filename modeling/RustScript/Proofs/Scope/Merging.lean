/-
  Identifiers with one target.

  Two identifiers have one target exactly if they differ by the raw mark, or one is a reserved word
  and the other is this word with an underscore (`Name.target_eq_target_iff`).
-/
import RustScript.Proofs.Scope.Targets

namespace RustScript

namespace Name

/-- Two identifiers that are the same but for a raw mark, or of which one is a reserved word and the
    other the word that stands in for it. -/
def Merges (f g : String) : Prop :=
  unraw f = unraw g ∨
    (unraw f ∈ reserved ∧ unraw g = unraw f ++ "_") ∨
    (unraw g ∈ reserved ∧ unraw f = unraw g ++ "_")

instance (f g : String) : Decidable (Merges f g) := inferInstanceAs (Decidable (_ ∨ _))

theorem target_of_mem {f : String} (h : unraw f ∈ reserved) : target f = unraw f ++ "_" :=
  if_pos (List.contains_iff_mem.mpr h)

theorem target_of_notMem {f : String} (h : unraw f ∉ reserved) : target f = unraw f :=
  if_neg fun hmem => h (List.contains_iff_mem.mp hmem)

theorem target_eq_target_iff {f g : String} : target f = target g ↔ Merges f g := by
  have hmarked : ∀ w ∈ reserved, (w ++ "_") ∉ reserved := by decide
  by_cases hf : unraw f ∈ reserved <;> by_cases hg : unraw g ∈ reserved
  · rw [target_of_mem hf, target_of_mem hg, String.append_left_inj]
    refine ⟨.inl, ?_⟩
    rintro (h | ⟨-, h⟩ | ⟨-, h⟩)
    · exact h
    · exact absurd (h ▸ hg) (hmarked _ hf)
    · exact absurd (h ▸ hf) (hmarked _ hg)
  · rw [target_of_mem hf, target_of_notMem hg]
    refine ⟨fun h => .inr (.inl ⟨hf, h.symm⟩), ?_⟩
    rintro (h | ⟨-, h⟩ | ⟨hmem, -⟩)
    · exact absurd (h ▸ hf) hg
    · exact h.symm
    · exact absurd hmem hg
  · rw [target_of_notMem hf, target_of_mem hg]
    refine ⟨fun h => .inr (.inr ⟨hg, h⟩), ?_⟩
    rintro (h | ⟨hmem, -⟩ | ⟨-, h⟩)
    · exact absurd (h ▸ hg) hf
    · exact absurd hmem hf
    · exact h
  · rw [target_of_notMem hf, target_of_notMem hg]
    refine ⟨.inl, ?_⟩
    rintro (h | ⟨hmem, -⟩ | ⟨hmem, -⟩)
    · exact h
    · exact absurd hmem hf
    · exact absurd hmem hg

end Name

end RustScript
