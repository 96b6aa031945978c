/-
  The search for a free target.

  Different numbers make different targets and only finitely many targets are live, so one of the
  numbers tried is free (`Scopes.exists_free`) and the search ends with the first such
  (`Scopes.firstFree_least`).
-/
import Mathlib.Data.List.Nodup
import Mathlib.Data.List.Perm.Subperm
import RustScript.Proofs.Scope.Targets

namespace RustScript.Scopes

variable {s : Scopes}

theorem isLive_iff {t : String} : s.isLive t = true ↔ ∃ l ∈ s.layers, t ∈ l.taken := by
  simp [isLive, taken]

theorem suffixed_injective (base : String) : Function.Injective (suffixed base) := by
  intro i j h
  by_contra hne
  exact Js.numbered_ne (base ++ "_") hne h

theorem exists_free (s : Scopes) (base : String) (n : Nat) :
    ∃ k ≤ s.taken.length, s.isLive (suffixed base (n + k)) = false := by
  by_contra hnone
  have hlive : ∀ k ≤ s.taken.length, suffixed base (n + k) ∈ s.taken := by
    intro k hk
    by_contra hfree
    exact hnone ⟨k, hk, by simpa [isLive] using hfree⟩
  have hnodup : ((List.range (s.taken.length + 1)).map fun k => suffixed base (n + k)).Nodup :=
    List.nodup_range.map fun i j h => Nat.add_left_cancel (suffixed_injective base h)
  have hsub : ((List.range (s.taken.length + 1)).map fun k => suffixed base (n + k)) ⊆ s.taken := by
    intro t ht
    obtain ⟨k, hk, rfl⟩ := List.mem_map.mp ht
    exact hlive k (Nat.le_of_lt_succ (List.mem_range.mp hk))
  have hlen := (List.subperm_of_subset hnodup hsub).length_le
  rw [List.length_map, List.length_range] at hlen
  omega

/-- The search stops at the first free number, provided that there is one among those tried. -/
theorem firstFree_least (s : Scopes) (base : String) (tries n : Nat)
    (h : ∃ k ≤ tries, s.isLive (suffixed base (n + k)) = false) :
    ∃ k, s.firstFree base n tries = suffixed base (n + k) ∧
      s.isLive (suffixed base (n + k)) = false ∧
      ∀ j < k, s.isLive (suffixed base (n + j)) = true := by
  induction tries generalizing n with
  | zero =>
    obtain ⟨k, hk, hfree⟩ := h
    obtain rfl : k = 0 := by omega
    exact ⟨0, rfl, hfree, fun j hj => absurd hj (Nat.not_lt_zero j)⟩
  | succ tries ih =>
    rw [firstFree]
    cases hlive : s.isLive (suffixed base n) with
    | false => exact ⟨0, rfl, hlive, fun j hj => absurd hj (Nat.not_lt_zero j)⟩
    | true =>
      -- the first number is live, so the free one comes later
      have hlater : ∃ k ≤ tries, s.isLive (suffixed base (n + 1 + k)) = false := by
        obtain ⟨k, hk, hfree⟩ := h
        cases k with
        | zero => simp [hlive] at hfree
        | succ k => exact ⟨k, by omega, by rwa [Nat.add_assoc, Nat.add_comm 1 k]⟩
      obtain ⟨k, hfound, hfree, hbefore⟩ := ih (n + 1) hlater
      rw [show n + 1 + k = n + (k + 1) by omega] at hfound hfree
      refine ⟨k + 1, hfound, hfree, fun j hj => ?_⟩
      cases j with
      | zero => exact hlive
      | succ j =>
        rw [show n + (j + 1) = n + 1 + j by omega]
        exact hbefore j (by omega)

/-- The target that `name` gets next: its own if that is free, and otherwise its own with the least
    number from one on that makes it free. -/
def IsNext (s : Scopes) (name target : String) : Prop :=
  if s.isLive (Name.target name) then
    ∃ n, 1 ≤ n ∧ target = suffixed (Name.target name) n ∧ s.isLive target = false ∧
      ∀ m, 1 ≤ m → m < n → s.isLive (suffixed (Name.target name) m) = true
  else target = Name.target name

theorem isNext_fresh (s : Scopes) (name : String) : s.IsNext name (s.fresh name) := by
  unfold IsNext fresh
  dsimp only
  split
  · obtain ⟨k, hfound, hfree, hbefore⟩ :=
      firstFree_least s (Name.target name) _ 1 (exists_free s _ 1)
    rw [hfound]
    refine ⟨1 + k, by omega, rfl, hfree, fun m hm hlt => ?_⟩
    obtain ⟨j, rfl⟩ := Nat.exists_eq_add_of_le hm
    exact hbefore j (by omega)
  · rfl

variable {name target : String}

theorem IsNext.isLive_eq_false (h : s.IsNext name target) : s.isLive target = false := by
  unfold IsNext at h
  split at h
  · obtain ⟨n, -, -, hfree, -⟩ := h
    exact hfree
  · next hlive => rw [h]; simpa using hlive

theorem IsNext.notMem_reserved (h : s.IsNext name target) : target ∉ Name.reserved := by
  unfold IsNext at h
  split at h
  · obtain ⟨n, -, rfl, -⟩ := h
    exact suffixed_notMem_reserved _ n
  · exact h ▸ Name.target_notMem_reserved name

end RustScript.Scopes
