/-
  The targets of names are names that JavaScript can bind.

  Whatever an identifier is resolved to in scopes that are made of identifiers is a word that
  JavaScript reads as a name (`Scopes.Reached.isOperand_resolve`).
-/
import RustScript.Proofs.Js.Written
import RustScript.Scope

namespace RustScript

open Js (isName isOperand isWordChar isWordStart)

namespace Name

/-- An identifier of the source, with or without its raw mark. -/
def isIdentifier (name : String) : Bool :=
  match (unraw name).toList with
  | c :: cs => (Text.isNameStart c || c == '_') && cs.all Text.isNameContinue
  | [] => false

/-- A word that JavaScript can bind. -/
def isBindable (w : String) : Bool := isName w && !reserved.contains w

theorem isOperand_of_isBindable {w : String} (h : isBindable w) : isOperand w := by
  obtain ⟨hname, hfree⟩ := Bool.and_eq_true_iff.mp h
  simp only [isOperand, hname, hfree, Bool.true_or, Bool.and_self]

theorem isName_append {w v : String} (h : isName w) (hv : v.toList.all isWordChar) :
    isName (w ++ v) := by
  unfold isName at h ⊢
  rw [String.toList_append]
  match hw : w.toList with
  | [] => simp [hw] at h
  | c :: cs =>
    simp only [hw, Bool.and_eq_true, List.all_eq_true] at h
    simp only [List.cons_append, List.all_append, Bool.and_eq_true, List.all_eq_true]
    exact ⟨h.1, h.2, List.all_eq_true.mp hv⟩

theorem isName_unraw {name : String} (h : isIdentifier name) : isName (unraw name) := by
  unfold isIdentifier at h
  unfold isName
  cases hcs : (unraw name).toList with
  | nil =>
    rw [hcs] at h
    cases h
  | cons c cs =>
    simp only [hcs, Bool.and_eq_true, List.all_eq_true, Bool.or_eq_true] at h
    simp only [Bool.and_eq_true, List.all_eq_true, isWordStart, isWordChar, Bool.or_eq_true]
    exact ⟨.inl h.1, fun d hd => .inl (h.2 d hd)⟩

theorem target_notMem_reserved (name : String) : target name ∉ reserved := by
  have hmarked : ∀ w ∈ reserved, (w ++ "_") ∉ reserved := by decide
  unfold target
  dsimp only
  split
  · next hres => exact hmarked _ (List.contains_iff_mem.mp hres)
  · next hres => exact fun hmem => hres (List.contains_iff_mem.mpr hmem)

theorem isBindable_target {name : String} (h : isIdentifier name) : isBindable (target name) := by
  have hname : isName (target name) := by
    unfold target
    dsimp only
    split
    · exact isName_append (isName_unraw h) (by decide)
    · exact isName_unraw h
  simp [isBindable, hname, target_notMem_reserved]

end Name

namespace Scopes

theorem suffixed_notMem_reserved (base : String) (n : Nat) : suffixed base n ∉ Name.reserved := by
  have hplain : ∀ w ∈ Name.reserved, w.toList.any Char.isDigit = false := by decide
  intro hmem
  obtain ⟨c, hc⟩ := List.exists_mem_of_ne_nil _ (Js.toString_chars n).1
  have hin : c ∈ (suffixed base n).toList := by
    rw [suffixed, String.toList_append]
    exact List.mem_append_right _ hc
  exact List.any_eq_false.mp (hplain _ hmem) c hin (Js.isDigit_of_mem_toString hc)

variable {base : String}

theorem isBindable_suffixed (h : isName base) (n : Nat) : Name.isBindable (suffixed base n) := by
  have hname : isName (suffixed base n) :=
    Name.isName_append (Name.isName_append h (by decide))
      (List.all_eq_true.mpr (Js.toString_chars n).2)
  simp [Name.isBindable, hname, suffixed_notMem_reserved]

theorem isBindable_firstFree (s : Scopes) (h : isName base) :
    ∀ (tries n : Nat), Name.isBindable (s.firstFree base n tries)
  | 0, n => isBindable_suffixed h n
  | tries + 1, n => by
    rw [firstFree]
    split
    · exact isBindable_firstFree s h tries (n + 1)
    · exact isBindable_suffixed h n

variable {name : String}

theorem isBindable_fresh (s : Scopes) (h : Name.isIdentifier name) :
    Name.isBindable (s.fresh name) := by
  have htarget := Name.isBindable_target h
  unfold fresh
  simp only
  split
  · exact isBindable_firstFree s (Bool.and_eq_true_iff.mp htarget).1 _ _
  · exact htarget

/-- Scopes that come about when identifiers are declared. A target that was handed out can be bound
    later, in whatever scope is then the innermost. -/
inductive Reached : Scopes → Prop where
  | start : Reached {}
  | push {s : Scopes} : Reached s → Reached s.push
  | pop {s : Scopes} : Reached s → Reached s.pop
  | reserve {s : Scopes} (name : String) : Reached s → Reached (s.reserve name).2
  | bind {s : Scopes} {name : String} (t : Scopes) :
      Reached s → Name.isIdentifier name → Reached (s.bind name (t.fresh name))

variable {s : Scopes}

theorem Reached.declare (h : Reached s) (hname : Name.isIdentifier name) :
    Reached (s.declare name).2 :=
  (h.reserve name).bind s hname

/-- Every target bound in a layer can stand as a name. -/
def Named (layers : List Layer) : Prop := ∀ l ∈ layers, ∀ b ∈ l.bindings, Name.isBindable b.2

theorem Reached.named (h : Reached s) : Named s.layers := by
  induction h with
  | start => simp [Named, layers]
  | push _ ih =>
    intro l hl
    rcases List.mem_cons.mp hl with rfl | hl
    · exact fun b hb => absurd hb List.not_mem_nil
    · exact ih l hl
  | @pop s _ ih =>
    unfold Scopes.pop Scopes.pop?
    split
    · exact ih
    · next l ls hout =>
      intro k hk
      exact ih k (List.mem_cons_of_mem _ (hout ▸ hk))
  | @reserve s name _ ih =>
    intro l hl
    rcases List.mem_cons.mp hl with rfl | hl
    · exact fun b hb => ih s.inner List.mem_cons_self b hb
    · exact ih l (List.mem_cons_of_mem _ hl)
  | @bind s name t _ hname ih =>
    intro l hl
    rcases List.mem_cons.mp hl with rfl | hl
    · intro b hb
      rcases List.mem_cons.mp hb with rfl | hb
      · exact isBindable_fresh t hname
      · exact ih _ List.mem_cons_self b hb
    · exact ih l (List.mem_cons_of_mem _ hl)

theorem isBindable_lookup {name target : String} :
    ∀ {ls : List Layer}, Named ls → lookup name ls = some target → Name.isBindable target
  | [], _, h => by simp [lookup] at h
  | l :: ls, hn, h => by
    rw [lookup] at h
    split at h
    · next t ht =>
      obtain rfl := Option.some.inj h
      obtain ⟨as, bs, hb, -⟩ := List.lookup_eq_some_iff.mp ht
      exact hn l List.mem_cons_self (name, t) (by simp [hb])
    · exact isBindable_lookup (fun k hk => hn k (List.mem_cons_of_mem _ hk)) h

/-- An identifier stands for a word that JavaScript reads as a name. -/
theorem Reached.isOperand_resolve (h : Reached s) (hname : Name.isIdentifier name) :
    isOperand (s.resolve name) := by
  refine Name.isOperand_of_isBindable ?_
  unfold resolve
  cases hl : lookup name s.layers with
  | none => exact Name.isBindable_target hname
  | some target => exact isBindable_lookup h.named hl

end Scopes

end RustScript
