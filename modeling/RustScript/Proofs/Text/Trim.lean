/-
  Trimmed texts.

  A text is what trimming leaves of it with blanks at both ends, and trimming a second time changes
  nothing. Blanks are no letters, so a word never reaches over one.
-/
import Mathlib.Data.List.DropRight
import RustScript.Proofs.Text.CodePoints
import RustScript.Text.Blank

namespace RustScript.Text

theorem memberFrom_not (n : Nat) (inside : Bool) (bounds : List Nat) :
    memberFrom n (!inside) bounds = !memberFrom n inside bounds := by
  induction bounds generalizing inside with
  | nil => rfl
  | cons b bs ih =>
    rw [memberFrom, memberFrom]
    split
    · rfl
    · exact ih (!inside)

theorem isAlnum_of_isBlank {c : Char} (h : isBlank c = true) : isAlnum c = false := by
  have hnot : memberFrom c.toNat (!false) alnumBounds = true :=
    memberFrom_of_within
      (show within 2000 false true blankBounds alnumBounds = true by decide +kernel) h
  rw [memberFrom_not] at hnot
  rw [isAlnum, inBounds]
  simpa using hnot

theorem trim_isInfix (cs : List Char) : trim cs <:+: cs := by
  have hleft : trimLeft cs <:+ cs := List.dropWhile_suffix _
  have hright (ds : List Char) : trimRight ds <+: ds := List.rdropWhile_prefix isBlank ds
  exact (hright _).isInfix.trans hleft.isInfix

theorem trim_trim (cs : List Char) : trim (trim cs) = trim cs := by
  have hleft : trimLeft (trim cs) = trim cs := by
    refine List.dropWhile_eq_self_iff.mpr fun hpos => ?_
    -- trimming at the end leaves the first character in place
    have hfirst : trim cs <+: trimLeft cs := List.rdropWhile_prefix isBlank _
    rw [List.IsPrefix.getElem hfirst hpos]
    exact List.dropWhile_get_zero_not _ _ (Nat.lt_of_lt_of_le hpos hfirst.length_le)
  calc trim (trim cs) = trimRight (trim cs) := congrArg trimRight hleft
    _ = trim cs := List.rdropWhile_idempotent isBlank (trimLeft cs)

theorem trim_blanks_append {bs : List Char} (hbs : bs.all isBlank = true) (cs : List Char) :
    trim (bs ++ cs) = trim cs := by
  have hdrop : trimLeft (bs ++ cs) = trimLeft cs :=
    List.dropWhile_append_of_pos (List.all_eq_true.mp hbs)
  rw [trim, hdrop, trim]

theorem exists_blanks (cs : List Char) : ∃ before after : List Char,
    before.all isBlank = true ∧ after.all isBlank = true ∧ cs = before ++ trim cs ++ after := by
  refine ⟨cs.takeWhile isBlank, (trimLeft cs).rtakeWhile isBlank, List.all_takeWhile, ?_, ?_⟩
  · rw [List.rtakeWhile, List.all_reverse]
    exact List.all_takeWhile
  · have hright : trim cs ++ (trimLeft cs).rtakeWhile isBlank = trimLeft cs :=
      List.rdropWhile_append_rtakeWhile
    rw [List.append_assoc, hright]
    exact (List.takeWhile_append_dropWhile).symm

theorem trim_eq_self {c d : Char} {cs ds : List Char} (hhead : cs.head? = some c)
    (hc : isBlank c = false) (hlast : cs = ds ++ [d]) (hd : isBlank d = false) : trim cs = cs := by
  have hleft : trimLeft cs = cs := by
    obtain ⟨rest, rfl⟩ := List.head?_eq_some_iff.mp hhead
    exact List.dropWhile_cons_of_neg (by simp [hc])
  rw [trim, hleft, trimRight, hlast, List.reverse_append, List.reverse_singleton,
    List.singleton_append, List.dropWhile_cons_of_neg (by simp [hd])]
  simp

section Stop

variable {stop : Char} {before : List Char} (h : stop ∉ before) (after : List Char)
include h

theorem takeWhile_ne_append : (before ++ stop :: after).takeWhile (· != stop) = before := by
  have hpass : ∀ c ∈ before, (c != stop) = true := fun c hc =>
    bne_iff_ne.mpr fun heq => h (heq ▸ hc)
  rw [List.takeWhile_append_of_pos hpass, List.takeWhile_cons_of_neg (by simp), List.append_nil]

theorem dropWhile_ne_append : (before ++ stop :: after).dropWhile (· != stop) = stop :: after := by
  have hpass : ∀ c ∈ before, (c != stop) = true := fun c hc =>
    bne_iff_ne.mpr fun heq => h (heq ▸ hc)
  rw [List.dropWhile_append_of_pos hpass, List.dropWhile_cons_of_neg (by simp)]

end Stop

end RustScript.Text
