/-
  How long the texts are that are read out of a macro call: no longer than the tokens. The message
  of an assertion is put together from parts with more blanks between them, but it is split into
  these parts again.
-/
import RustScript.Proofs.Emit.Law
import RustScript.Proofs.Macro.Splitting

namespace RustScript

theorem Text.length_trim_le (cs : List Char) : (Text.trim cs).length ≤ cs.length :=
  (Text.trim_isInfix cs).length_le

theorem Text.length_trimLeft_le (cs : List Char) : (Text.trimLeft cs).length ≤ cs.length :=
  (List.dropWhile_suffix _).length_le

namespace Arguments

theorem Cut.length_le {sep : Char} {previous : Option Char} {cs : List Char}
    {chunks : List (List Char)} (h : Cut sep previous cs chunks) :
    ∀ chunk ∈ chunks, chunk.length ≤ cs.length := by
  induction h with
  | last => simp
  | more _ _ ih =>
    intro chunk hchunk
    rw [List.length_append, List.length_cons]
    rcases List.mem_cons.mp hchunk with rfl | hchunk
    · omega
    · have := ih chunk hchunk
      omega

variable {parts : List String}

theorem mem_of_mem_dropBlankEnd {part : String} (h : part ∈ dropBlankEnd parts) : part ∈ parts := by
  unfold dropBlankEnd at h
  split at h
  · exact List.dropLast_subset _ h
  · exact h

theorem length_le_of_mem_split {tokens : String} {sep : Char} (hsep : sep = ',' ∨ sep = ';')
    (h : split tokens sep = .ok parts) {part : String} (hpart : part ∈ parts) :
    part.length ≤ tokens.length := by
  obtain ⟨chunks, hcut, rfl⟩ := (split_eq_ok_iff hsep).mp h
  obtain ⟨cs, hcs, rfl⟩ := List.mem_map.mp (mem_of_mem_dropBlankEnd hpart)
  obtain ⟨chunk, hchunk, rfl⟩ := List.mem_map.mp hcs
  rw [String.length_ofList, ← String.length_toList]
  exact (Text.length_trim_le chunk).trans (hcut.length_le chunk hchunk)

end Arguments

/-! ## Decoded literals -/

namespace Literal

theorem length_decodeFrom_le {skip : Nat} {cs ds : List Char} (h : decodeFrom skip cs = .ok ds) :
    ds.length ≤ cs.length := by
  -- a character of the literal or a whole escape gives one character
  have hone {x : Except Error (List Char)} {c : Char} {cs ds : List Char}
      (hx : ∀ es, x = .ok es → es.length ≤ cs.length)
      (h : (do return c :: (← x)) = (.ok ds : Except Error (List Char))) :
      ds.length ≤ cs.length + 1 := by
    obtain ⟨es, hes, rfl⟩ := exists_of_return_eq_ok h
    exact Nat.succ_le_succ (hx es hes)
  fun_induction decodeFrom skip cs generalizing ds with
  | case1 =>
    cases h
    exact Nat.le_refl 0
  | case2 skip c cs ih => exact (ih h).trans (Nat.le_succ _)
  | case3 c cs _ ih => exact hone (fun _ hes => ih hes) h
  | case4 => cases h
  | case5 c _ e rest value _ ih => exact hone (fun _ hes => ih hes) h
  | case6 c _ e rest _ _ ih =>
    obtain ⟨value, -, h⟩ := exists_of_bind_eq_ok h
    exact hone (fun _ hes => ih hes) h
  | case7 c _ e rest =>
    rename_i ih
    obtain ⟨value, -, h⟩ := exists_of_bind_eq_ok h
    exact hone (fun _ hes => ih hes) h
  | case8 => cases h
  | case9 c _ e rest _ _ _ _ ih => exact (ih h).trans (Nat.le_succ _)
  | case10 => cases h

theorem length_rawContent?_le {cs content : List Char} (h : rawContent? cs = some content) :
    content.length ≤ cs.length := by
  unfold rawContent? at h
  dsimp only at h
  split at h
  · next rest hcs =>
    have hrest : rest.length ≤ cs.length := by
      split at hcs
      · next after =>
        rw [hcs, List.length_cons, List.length_cons]
        omega
      · rw [hcs, List.length_cons]
        omega
    split at h
    · next body hbody =>
      split at h
      · cases h
        have hbody : ('"' :: body).length ≤ rest.length := by
          rw [← hbody]
          exact (List.dropWhile_suffix _).length_le
        rw [List.length_cons] at hbody
        rw [List.length_take]
        omega
      · cases h
    · cases h
  · cases h

theorem length_quotedBody?_le {cs body : List Char} (h : quotedBody? cs = some body) :
    body.length ≤ cs.length := by
  unfold quotedBody? at h
  split at h
  · split at h
    · cases h
      rw [List.length_dropLast, List.length_cons]
      omega
    · cases h
  · cases h

theorem length_decode_le {literal value : String} (h : decode literal = .ok value) :
    value.length ≤ literal.length := by
  obtain ⟨cs, hcs, rfl⟩ := exists_of_return_eq_ok h
  rw [String.length_ofList, ← String.length_toList]
  refine Nat.le_trans ?_ (Text.length_trim_le literal.toList)
  unfold decodeChars at hcs
  dsimp only at hcs
  generalize Text.trim literal.toList = trimmed at hcs ⊢
  split at hcs
  · next content hraw =>
    cases hcs
    exact length_rawContent?_le hraw
  · split at hcs
    · next body hbody =>
      refine (length_decodeFrom_le hcs).trans ((length_quotedBody?_le hbody).trans ?_)
      split
      · exact Nat.le_succ _
      · exact Nat.le_refl _
    · cases hcs

end Literal

/-! ## Keys of placeholders -/

namespace Template

variable {pieces : List Piece}

theorem mem_of_slot_mem_flush {buffer : List Char} {p : Placeholder}
    (h : .slot p ∈ flush buffer pieces) : .slot p ∈ pieces := by
  unfold flush at h
  split at h
  · exact h
  · rcases List.mem_cons.mp h with heq | h
    · cases heq
    · exact h

theorem length_key_placeholder_le (inner : List Char) :
    (placeholder inner).key.length ≤ inner.length := by
  rw [placeholder, String.length_ofList]
  exact (Text.length_trim_le _).trans (List.takeWhile_prefix _).length_le

theorem length_key_le_of_mem_piecesFrom {template : String} {skip : Nat} {buffer cs : List Char}
    (h : piecesFrom template skip buffer cs = .ok pieces) {p : Placeholder}
    (hp : .slot p ∈ pieces) : p.key.length ≤ cs.length := by
  fun_induction piecesFrom template skip buffer cs generalizing pieces with
  | case1 =>
    cases h
    cases mem_of_slot_mem_flush hp
  | case2 skip buffer c cs ih => exact (ih h hp).trans (Nat.le_succ _)
  | case3 buffer c cs _ _ ih => exact (ih h hp).trans (Nat.le_succ _)
  | case4 buffer c cs _ _ _ =>
    rename_i ih
    obtain ⟨rest, hrest, rfl⟩ := exists_of_return_eq_ok h
    rcases List.mem_cons.mp (mem_of_slot_mem_flush hp) with heq | hp
    · cases heq
      refine (length_key_placeholder_le _).trans ?_
      exact (List.takeWhile_prefix _).length_le.trans (Nat.le_succ _)
    · exact (ih hrest hp).trans (Nat.le_succ _)
  | case5 => cases h
  | case6 buffer c cs _ _ _ ih => exact (ih h hp).trans (Nat.le_succ _)
  | case7 => cases h
  | case8 buffer c cs _ _ ih => exact (ih h hp).trans (Nat.le_succ _)

end Template

/-! ## Texts of a call -/

namespace Macro

theorem length_argumentText_le (part : String) : (argumentText part).length ≤ part.length := by
  unfold argumentText
  split
  · next name value h =>
    unfold namedArgument? at h
    dsimp only at h
    split at h
    · next c rest hcs =>
      split at h
      · split at h
        · cases h
        · next after _ hafter =>
          cases h
          have hlong : ('=' :: after).length ≤ part.toList.length := by
            rw [← hafter]
            exact (Text.length_trimLeft_le _).trans
              ((List.dropWhile_suffix _).length_le.trans (Text.length_trimLeft_le _))
          have hshort := Text.length_trimLeft_le after
          rw [List.length_cons, String.length_toList] at hlong
          rw [String.length_ofList]
          omega
        · cases h
      · cases h
    · cases h
  · exact Nat.le_refl _

theorem length_le_of_mem_capturedIn {first text : String} {parts : List String}
    (h : text ∈ capturedIn first parts) : text.length ≤ first.length := by
  unfold capturedIn at h
  split at h
  · cases h
  · next template hdecode =>
    split at h
    · cases h
    · next pieces hpieces =>
      obtain ⟨piece, hpiece, hkey⟩ := List.mem_filterMap.mp h
      unfold captured? at hkey
      split at hkey
      · cases hkey
      · split at hkey
        · cases hkey
        · split at hkey
          · cases hkey
          · cases hkey
            refine (Template.length_key_le_of_mem_piecesFrom hpieces hpiece).trans ?_
            rw [String.length_toList]
            exact Literal.length_decode_le hdecode

theorem length_le_of_mem_formatTexts {tokens text : String} {bound : Nat}
    (h : ∀ parts, Arguments.split tokens ',' = .ok parts → ∀ part ∈ parts, part.length ≤ bound)
    (htext : text ∈ formatTexts tokens) : text.length ≤ bound := by
  unfold formatTexts at htext
  split at htext
  · next first parts hsplit =>
    have hparts := h _ hsplit
    rw [List.forall_mem_cons] at hparts
    rcases List.mem_append.mp htext with htext | htext
    · obtain ⟨part, hpart, rfl⟩ := List.mem_map.mp htext
      exact (length_argumentText_le part).trans (hparts.2 part hpart)
    · exact (length_le_of_mem_capturedIn htext).trans hparts.1
  · cases htext

/-- The texts that are read out of a call are no longer than its tokens. -/
theorem length_le_of_mem_texts {m : MacroCall} {text : String} (h : text ∈ texts m) :
    text.length ≤ m.tokens.length := by
  have hsplit (sep : Char) (hsep : sep = ',' ∨ sep = ';') (parts : List String)
      (h : Arguments.split m.tokens sep = .ok parts) :
      ∀ part ∈ parts, part.length ≤ m.tokens.length :=
    fun part hpart => Arguments.length_le_of_mem_split hsep h hpart
  have hformat (h : text ∈ formatTexts m.tokens) : text.length ≤ m.tokens.length :=
    length_le_of_mem_formatTexts (hsplit ',' (.inl rfl)) h
  have hassertion (count : Nat) (h : text ∈ assertionTexts count m.tokens) :
      text.length ≤ m.tokens.length := by
    unfold assertionTexts at h
    split at h
    · next parts hparts =>
      have hall := hsplit ',' (.inl rfl) parts hparts
      rcases List.mem_append.mp h with h | h
      · exact hall text (List.mem_of_mem_take h)
      · split at h
        · cases h
        · next hne =>
          have hcount : count < parts.length := by simpa using hne
          refine length_le_of_mem_formatTexts (fun again hagain part hpart => ?_) h
          rw [Arguments.split_commas hparts hcount] at hagain
          cases hagain
          exact hall part (List.mem_of_mem_drop (Arguments.mem_of_mem_dropBlankEnd hpart))
    · cases h
  have helements (h : text ∈ elementTexts m.tokens) : text.length ≤ m.tokens.length := by
    unfold elementTexts at h
    split at h
    · next parts hparts => exact hsplit ',' (.inl rfl) parts hparts text h
    · cases h
  unfold texts textsFor at h
  split at h
  · unfold vectorTexts at h
    split at h
    · next hparts => exact hsplit ';' (.inr rfl) _ hparts text h
    · exact helements h
  · split at h
    · exact hassertion 1 h
    · split at h
      · exact hassertion 2 h
      · split at h
        · exact hformat h
        · unfold messageTexts at h
          split at h
          · cases h
          · exact hformat h

theorem texts_of_tokens_eq_empty {m : MacroCall} (h : m.tokens = "") : texts m = [] := by
  rw [texts, textsFor, h, show vectorTexts "" = [] by decide,
    show assertionTexts 1 "" = [] by decide, show assertionTexts 2 "" = [] by decide,
    show formatTexts "" = [] by decide, show messageTexts "" = [] by decide]
  simp

end Macro

end RustScript
