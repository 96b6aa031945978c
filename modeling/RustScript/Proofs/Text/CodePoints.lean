/-
  Inclusion between sets of code points.

  Two sets given by their boundaries are compared in one pass over both lists (`within`), so that an
  inclusion between two large classes is settled by computation.
-/
import RustScript.Text.Identifier

namespace RustScript.Text

/-- Whether each point of the first set lies in the second, as far as the lists are gone through
    within the bound; the flags say on which side of the first boundaries membership starts. -/
def within : (bound : Nat) → (inA inB : Bool) → (as bs : List Nat) → Bool
  | 0, _, _, _, _ => false
  | _ + 1, inA, inB, [], [] => !inA || inB
  | n + 1, inA, inB, _ :: as, [] => (!inA || inB) && within n (!inA) inB as []
  | n + 1, inA, inB, [], _ :: bs => (!inA || inB) && within n inA (!inB) [] bs
  | n + 1, inA, inB, a :: as, b :: bs =>
    (!inA || inB) &&
      if a < b then within n (!inA) inB as (b :: bs)
      else if b < a then within n inA (!inB) (a :: as) bs
      else within n (!inA) (!inB) as bs

theorem memberFrom_of_within {bound : Nat} {inA inB : Bool} {as bs : List Nat}
    (h : within bound inA inB as bs) {n : Nat} (ha : memberFrom n inA as) :
    memberFrom n inB bs := by
  -- Below the least boundary left both sets are decided by their flags; otherwise the pass goes on.
  fun_induction within bound inA inB as bs with
  | case1 => simp at h
  | case2 => simp_all [memberFrom]
  | case3 k inA inB a as ih =>
    simp only [Bool.and_eq_true] at h
    rw [memberFrom] at ha
    split at ha
    · simp_all [memberFrom]
    · exact ih h.2 ha
  | case4 k inA inB b bs ih =>
    simp only [Bool.and_eq_true] at h
    rw [memberFrom]
    split
    · simp_all [memberFrom]
    · exact ih h.2 ha
  | case5 k inA inB a as b bs ih₁ ih₂ ih₃ =>
    simp only [Bool.and_eq_true] at h
    obtain ⟨hflags, h⟩ := h
    have hflag (h : inA) : inB := by simpa [h] using hflags
    split at h
    · next hab =>
      rw [memberFrom] at ha
      split at ha
      · rw [memberFrom, if_pos (by omega)]
        exact hflag ha
      · exact ih₁ h ha
    · split at h
      · next hba =>
        rw [memberFrom]
        split
        · rw [memberFrom, if_pos (by omega)] at ha
          exact hflag ha
        · exact ih₂ h ha
      · rw [memberFrom] at ha ⊢
        obtain rfl : a = b := by omega
        split
        · next hna =>
          rw [if_pos hna] at ha
          exact hflag ha
        · next hna =>
          rw [if_neg hna] at ha
          exact ih₃ h ha

theorem isNameContinue_of_isNameStart {c : Char} (h : isNameStart c) : isNameContinue c := by
  simp [isNameContinue, h]

theorem memberFrom_first {n a b : Nat} {bounds : List Nat} (h : a ≤ n ∧ n < b) :
    memberFrom n false (a :: b :: bounds) = true :=
  (if_neg (Nat.not_lt_of_le h.1)).trans (if_pos h.2)

section Digit

variable {c : Char} (h : c.isDigit)

include h

theorem toNat_of_isDigit : 48 ≤ c.toNat ∧ c.toNat < 58 := by
  simp only [Char.isDigit, Bool.and_eq_true, decide_eq_true_eq] at h
  exact ⟨h.1, Nat.lt_succ_of_le h.2⟩

theorem isNameStart_of_isDigit : isNameStart c = false := by
  have halnum : isAlnum c = true := memberFrom_first (toNat_of_isDigit h)
  have hexcept : inBounds nameStartExceptions c = true := memberFrom_first (toNat_of_isDigit h)
  simp [isNameStart, halnum, hexcept]

theorem isNameContinue_of_isDigit : isNameContinue c = true := by
  have hmore : inBounds nameMoreBounds c = true := memberFrom_first (toNat_of_isDigit h)
  simp [isNameContinue, hmore]

end Digit

end RustScript.Text
