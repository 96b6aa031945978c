/-
  What splitting makes of a text.

  The stretches between the separators are the text again once the separators are put back
  (`Cut.eq_intercalate`). A stretch taken alone is read as it was (`Cut.alone`).
-/
import RustScript.Proofs.Macro.Splitting

namespace RustScript.Arguments

variable {sep : Char} {previous : Option Char} {cs : List Char} {chunks : List (List Char)}

theorem Cut.ne_nil (h : Cut sep previous cs chunks) : chunks ≠ [] := by
  cases h <;> exact List.cons_ne_nil _ _

theorem Cut.eq_intercalate (h : Cut sep previous cs chunks) : cs = [sep].intercalate chunks := by
  induction h with
  | last => exact List.intercalate_singleton.symm
  | @more previous chunk rest chunks _ hrest ih =>
    obtain ⟨next, chunks, rfl⟩ := List.exists_cons_of_ne_nil hrest.ne_nil
    rw [List.intercalate_cons_cons, ← ih, List.append_assoc]
    rfl

theorem Reads.alone {rest chunk : List Char} (h : Reads sep rest 0 previous [] chunk)
    (hrest : rest.head? ≠ some '\'') (hprevious : previous.any isWordChar = false) :
    Reads sep [] 0 none [] chunk := by
  rw [← List.append_nil chunk] at h
  exact h.respace rfl hrest (.inl rfl) hprevious.symm (.inl rfl)

theorem Cut.alone (hquote : sep ≠ '\'') (hword : isWordChar sep = false)
    (h : Cut sep previous cs chunks) (hprevious : previous.any isWordChar = false) :
    ∀ chunk ∈ chunks, Cut sep none chunk [chunk] := by
  induction h with
  | last h => exact List.forall_mem_singleton.mpr (.last (h.alone (by simp) hprevious))
  | more h _ ih =>
    refine List.forall_mem_cons.mpr ⟨.last (h.alone ?_ hprevious), ih hword⟩
    exact fun heq => hquote (Option.some.inj heq)

theorem trimmed_map_toList (stretches : List String) :
    trimmed (stretches.map String.toList) = stretches.map Text.strip := by
  rw [trimmed, List.map_map, List.map_map]
  rfl

/-- A text that can be split is its stretches with separators between them, and the parts are the
    stretches in order, trimmed, without the last one if it is blank. A stretch taken alone has at
    most one part, which is the stretch trimmed. -/
theorem split_keeps_text {tokens : String} {parts : List String} (hsep : sep = ',' ∨ sep = ';')
    (h : split tokens sep = .ok parts) :
    ∃ stretches : List String, stretches ≠ [] ∧
      tokens = (String.singleton sep).intercalate stretches ∧
      parts = dropBlankEnd (stretches.map Text.strip) ∧
      ∀ r ∈ stretches, split r sep = .ok (dropBlankEnd [Text.strip r]) := by
  obtain ⟨chunks, hcut, rfl⟩ := (split_eq_ok_iff hsep).mp h
  obtain ⟨hquote, hword⟩ : sep ≠ '\'' ∧ isWordChar sep = false := by
    rcases hsep with rfl | rfl <;> decide
  obtain ⟨stretches, rfl⟩ : ∃ stretches : List String, chunks = stretches.map String.toList :=
    ⟨chunks.map String.ofList, by simp⟩
  refine ⟨stretches, ?_, ?_, ?_, fun r hr => ?_⟩
  · simpa using hcut.ne_nil
  · rw [← String.toList_inj, String.toList_intercalate, hcut.eq_intercalate,
      String.toList_singleton]
  · rw [trimmed_map_toList]
  · have halone := hcut.alone hquote hword rfl r.toList (List.mem_map_of_mem hr)
    exact (split_eq_ok_iff hsep).mpr ⟨[r.toList], halone, congrArg _ (trimmed_map_toList [r]).symm⟩

/-- A separator between quotes, one in brackets and one at the end. -/
theorem split_keeps_text_around_literals :
    ∃ stretches : List String, stretches ≠ [] ∧
      "',', f(a, b) , 'a," = (String.singleton ',').intercalate stretches ∧
      ["','", "f(a, b)", "'a"] = dropBlankEnd (stretches.map Text.strip) ∧
      ∀ r ∈ stretches, split r ',' = .ok (dropBlankEnd [Text.strip r]) :=
  split_keeps_text (.inl rfl) (by decide +kernel)

end RustScript.Arguments
