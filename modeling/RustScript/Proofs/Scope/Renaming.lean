/-
  Renaming over whole runs.

  A session is a chain of scopes together with what was handed out in each of its layers. In every
  session that can be reached, a layer has taken what was handed out in it and binds nothing else,
  and nothing was handed out twice (`Session.Orderly`).
-/
import Mathlib.Data.List.Forall2
import Mathlib.Logic.Relation
import RustScript.Proofs.Context.Restore
import RustScript.Proofs.Scope.Fresh

namespace RustScript

/-- A name and the target that was handed out for it. -/
abbrev Grant := String × String

/-- A chain of scopes and what was handed out in its layers. -/
structure Session where
  scopes : Scopes := {}
  /-- What was handed out in the innermost layer, newest first. -/
  inner : List Grant := []
  /-- What was handed out in the layers around it, innermost first. -/
  outer : List (List Grant) := []

namespace Session

/-- What was handed out, layer by layer. -/
def grants (a : Session) : List (List Grant) := a.inner :: a.outer

/-- All targets that were handed out and not given back. -/
def targets (a : Session) : List String := a.grants.flatten.map Prod.snd

def push (a : Session) : Session := ⟨a.scopes.push, [], a.grants⟩

def reserve (a : Session) (name : String) : Session :=
  { a with
    scopes := (a.scopes.reserve name).2
    inner := (name, (a.scopes.reserve name).1) :: a.inner }

def bind (a : Session) (name target : String) : Session :=
  { a with scopes := a.scopes.bind name target }

def declare (a : Session) (name : String) : Session :=
  { a with
    scopes := (a.scopes.declare name).2
    inner := (name, (a.scopes.declare name).1) :: a.inner }

def seed (a : Session) (names : List String) : Session :=
  { a with
    scopes := (a.scopes.seed names).2
    inner := (names.zip (a.scopes.seed names).1).reverse ++ a.inner }

/-- One operation. What is bound was handed out for its name in the innermost layer. -/
inductive Step : Session → Session → Prop where
  | push (a : Session) : Step a a.push
  | pop {a : Session} {s : Scopes} (h : a.scopes.pop? = some s) :
      Step a ⟨s, a.outer.headD [], a.outer.tail⟩
  | declare (a : Session) (name : String) : Step a (a.declare name)
  | seed (a : Session) (names : List String) : Step a (a.seed names)
  | reserve (a : Session) (name : String) : Step a (a.reserve name)
  | bind {a : Session} {name target : String} (h : (name, target) ∈ a.inner) :
      Step a (a.bind name target)

/-- A session that operations on an empty scope lead to. -/
def Reachable (a : Session) : Prop := Relation.ReflTransGen Step {} a

/-- Operations that leave the lowest `depth` layers and the one above them in place. -/
def Within (depth : Nat) : Session → Session → Prop :=
  Relation.ReflTransGen fun a b => Step a b ∧ depth ≤ b.scopes.outer.length

theorem seed_cons (a : Session) (name : String) (names : List String) :
    a.seed (name :: names) = (a.declare name).seed names := by
  simp [seed, declare, Scopes.seed]

end Session

/-! ## What is handed out -/

/-- The layer has taken what was handed out in it, and binds nothing else. -/
structure Layer.Holds (l : Layer) (grants : List Grant) : Prop where
  taken : ∀ t, t ∈ l.taken ↔ t ∈ grants.map Prod.snd
  bound : ∀ b ∈ l.bindings, b ∈ grants

theorem Layer.holds_nil : Layer.Holds {} [] := ⟨by simp, by simp⟩

namespace Session

/-- Each layer holds what was handed out in it, no target was handed out twice, and none is a
    reserved word. -/
structure Orderly (a : Session) : Prop where
  layers : List.Forall₂ Layer.Holds a.scopes.layers a.grants
  distinct : a.targets.Nodup
  unreserved : ∀ t ∈ a.targets, t ∉ Name.reserved

theorem live_iff_of_holds {ls : List Layer} {gs : List (List Grant)}
    (h : List.Forall₂ Layer.Holds ls gs) (t : String) :
    (∃ l ∈ ls, t ∈ l.taken) ↔ t ∈ gs.flatten.map Prod.snd := by
  induction h with
  | nil => simp
  | cons hl _ ih =>
    rw [List.flatten_cons, List.map_append, List.mem_append, ← ih, ← hl.taken t]
    simp

namespace Orderly

variable {a : Session}

theorem isLive_iff (h : Orderly a) {t : String} : a.scopes.isLive t = true ↔ t ∈ a.targets :=
  Scopes.isLive_iff.trans (live_iff_of_holds h.layers t)

theorem start : Orderly {} where
  layers := .cons Layer.holds_nil .nil
  distinct := List.nodup_nil
  unreserved := by simp [targets, grants]

section

variable (h : Orderly a)

include h

theorem push : Orderly a.push where
  layers := .cons Layer.holds_nil h.layers
  distinct := h.distinct
  unreserved := h.unreserved

theorem pop {s : Scopes} (hs : a.scopes.pop? = some s) :
    Orderly ⟨s, a.outer.headD [], a.outer.tail⟩ := by
  obtain ⟨⟨inner, outer, renames⟩, g, gs⟩ := a
  obtain ⟨hlayers, hdistinct, hunreserved⟩ := h
  cases hlayers with
  | cons hinner houter =>
    cases houter with
    | nil => cases hs
    | @cons l g' ls gs' hl hls =>
      cases hs
      rw [targets, grants, List.flatten_cons, List.map_append] at hdistinct hunreserved
      exact ⟨.cons hl hls, hdistinct.of_append_right,
        fun t ht => hunreserved t (List.mem_append_right _ ht)⟩

/-- A target that is handed out was not live, so it is new. -/
theorem reserve (name : String) : Orderly (a.reserve name) := by
  have hnext := a.scopes.isNext_fresh name
  have hnew : a.scopes.fresh name ∉ a.targets := by
    rw [← h.isLive_iff, hnext.isLive_eq_false]
    exact Bool.false_ne_true
  refine ⟨?_, List.nodup_cons.mpr ⟨hnew, h.distinct⟩, ?_⟩
  · cases h.layers with
    | cons hinner houter =>
      refine .cons ⟨fun t => ?_, fun b hb => ?_⟩ houter
      · exact (List.mem_cons.trans (or_congr_right (hinner.taken t))).trans List.mem_cons.symm
      · exact List.mem_cons_of_mem _ (hinner.bound b hb)
  · intro t ht
    rcases List.mem_cons.mp ht with rfl | ht
    · exact hnext.notMem_reserved
    · exact h.unreserved t ht

theorem bind {name target : String} (hgrant : (name, target) ∈ a.inner) :
    Orderly (a.bind name target) := by
  refine ⟨?_, h.distinct, h.unreserved⟩
  cases h.layers with
  | cons hinner houter =>
    refine .cons ⟨fun t => ?_, fun b hb => ?_⟩ houter
    · refine ⟨fun ht => ?_, fun ht => List.mem_cons_of_mem _ ((hinner.taken t).mpr ht)⟩
      rcases List.mem_cons.mp ht with rfl | ht
      · exact List.mem_map_of_mem hgrant
      · exact (hinner.taken t).mp ht
    · rcases List.mem_cons.mp hb with rfl | hb
      · exact hgrant
      · exact hinner.bound b hb

theorem declare (name : String) : Orderly (a.declare name) :=
  (h.reserve name).bind List.mem_cons_self

theorem seed (names : List String) : Orderly (a.seed names) := by
  induction names generalizing a with
  | nil => exact h
  | cons name names ih => exact seed_cons a name names ▸ ih (h.declare name)

theorem step {b : Session} (hstep : Step a b) : Orderly b := by
  cases hstep with
  | push => exact h.push
  | pop hs => exact h.pop hs
  | declare name => exact h.declare name
  | seed names => exact h.seed names
  | reserve name => exact h.reserve name
  | bind hgrant => exact h.bind hgrant

end

end Orderly

theorem Reachable.orderly {a : Session} (h : Reachable a) : Orderly a := by
  induction h with
  | refl => exact Orderly.start
  | tail _ hstep ih => exact ih.step hstep

end Session

/-! ## Different names have different targets -/

/-- In the layer with this number, counted from the innermost, the name stands for the target. -/
def Scopes.Binds (s : Scopes) (layer : Nat) (name target : String) : Prop :=
  ∃ l, s.layers[layer]? = some l ∧ l.bindings.lookup name = some target

/-- One of the layers binds the name. -/
def Scopes.IsBound (s : Scopes) (name : String) : Prop := ∃ layer target, s.Binds layer name target

theorem mem_of_lookup_eq_some {name target : String} {bs : List (String × String)}
    (h : bs.lookup name = some target) : (name, target) ∈ bs := by
  obtain ⟨before, after, rfl, -⟩ := List.lookup_eq_some_iff.mp h
  exact List.mem_append_right _ List.mem_cons_self

namespace Session

/-- A target occurs once among all that was handed out, so it tells the layer and the name. -/
theorem eq_of_grant {gs : List (List Grant)} (h : (gs.flatten.map Prod.snd).Nodup) {i j : Nat}
    {g g' : List Grant} {name name' target : String} (hi : gs[i]? = some g) (hj : gs[j]? = some g')
    (hmem : (name, target) ∈ g) (hmem' : (name', target) ∈ g') : i = j ∧ name = name' := by
  induction gs generalizing i j with
  | nil => simp at hi
  | cons g₀ gs ih =>
    rw [List.flatten_cons, List.map_append] at h
    have hdisjoint := List.disjoint_of_nodup_append h
    -- a grant of a later layer cannot have a target of the first
    have hlater : ∀ {k : Nat} {g : List Grant} {name : String},
        gs[k]? = some g → (name, target) ∈ g → target ∈ gs.flatten.map Prod.snd :=
      fun hk hg => List.mem_map_of_mem
        (List.mem_flatten.mpr ⟨_, List.mem_of_getElem? hk, hg⟩)
    cases i with
    | zero =>
      obtain rfl : g₀ = g := by simpa using hi
      cases j with
      | zero =>
        obtain rfl : g₀ = g' := by simpa using hj
        have heq := List.inj_on_of_nodup_map h.of_append_left hmem hmem' rfl
        exact ⟨rfl, congrArg Prod.fst heq⟩
      | succ j =>
        exact absurd (hlater (by simpa using hj) hmem')
          (hdisjoint (List.mem_map_of_mem hmem))
    | succ i =>
      cases j with
      | zero =>
        obtain rfl : g₀ = g' := by simpa using hj
        exact absurd (hlater (by simpa using hi) hmem)
          (hdisjoint (List.mem_map_of_mem hmem'))
      | succ j =>
        obtain ⟨rfl, hname⟩ := ih h.of_append_right (by simpa using hi) (by simpa using hj)
        exact ⟨rfl, hname⟩

namespace Orderly

variable {a : Session} {i j : Nat} {name name' target : String}

theorem exists_grant (h : Orderly a) (hb : a.scopes.Binds i name target) :
    ∃ l g, a.scopes.layers[i]? = some l ∧ a.grants[i]? = some g ∧ l.Holds g ∧
      (name, target) ∈ g := by
  obtain ⟨l, hl, hlookup⟩ := hb
  have hlen := h.layers.length_eq
  obtain ⟨hi, rfl⟩ := List.getElem?_eq_some_iff.mp hl
  have hholds := h.layers.get hi (hlen ▸ hi)
  exact ⟨_, _, hl, List.getElem?_eq_getElem (hlen ▸ hi), hholds,
    hholds.bound _ (mem_of_lookup_eq_some hlookup)⟩

theorem eq_of_binds (h : Orderly a) (hb : a.scopes.Binds i name target)
    (hb' : a.scopes.Binds j name' target) : i = j ∧ name = name' := by
  obtain ⟨-, g, -, hg, -, hmem⟩ := h.exists_grant hb
  obtain ⟨-, g', -, hg', -, hmem'⟩ := h.exists_grant hb'
  exact eq_of_grant h.distinct hg hg' hmem hmem'

theorem taken_of_binds (h : Orderly a) (hb : a.scopes.Binds i name target) :
    ∃ l, a.scopes.layers[i]? = some l ∧ target ∈ l.taken := by
  obtain ⟨l, g, hl, -, hholds, hmem⟩ := h.exists_grant hb
  exact ⟨l, hl, (hholds.taken target).mpr (List.mem_map_of_mem hmem)⟩

end Orderly

end Session

namespace Scopes

variable {name target : String}

theorem binds_of_lookup :
    ∀ {ls : List Layer}, lookup name ls = some target →
      ∃ (i : Nat) (l : Layer), ls[i]? = some l ∧ l.bindings.lookup name = some target
  | l :: ls, h => by
    rw [lookup] at h
    split at h
    · next t ht => exact ⟨0, l, rfl, h ▸ ht⟩
    · obtain ⟨i, k, hk, hlookup⟩ := binds_of_lookup h
      exact ⟨i + 1, k, hk, hlookup⟩

theorem isSome_lookup_of_binds :
    ∀ {ls : List Layer} {i : Nat} {l : Layer}, ls[i]? = some l →
      l.bindings.lookup name = some target → (lookup name ls).isSome
  | l₀ :: ls, i, l, hl, h => by
    rw [lookup]
    split
    · rfl
    · next hnone =>
      cases i with
      | zero =>
        obtain rfl : l₀ = l := by simpa using hl
        rw [h] at hnone
        cases hnone
      | succ i => exact isSome_lookup_of_binds (by simpa using hl) h

theorem IsBound.binds_resolve {s : Scopes} {name : String} (h : s.IsBound name) :
    ∃ layer, s.Binds layer name (s.resolve name) := by
  obtain ⟨layer, target, l, hl, hlookup⟩ := h
  obtain ⟨found, hfound⟩ := Option.isSome_iff_exists.mp (isSome_lookup_of_binds hl hlookup)
  obtain ⟨i, k, hk, hbound⟩ := binds_of_lookup hfound
  refine ⟨i, k, hk, ?_⟩
  rw [resolve, hfound]
  exact hbound

end Scopes

/-! ## How long a target lives -/

theorem Scopes.outer_of_pop? {s t : Scopes} (h : s.pop? = some t) : s.outer = t.layers := by
  unfold pop? at h
  split at h
  · cases h
  · next l ls hout =>
    cases h
    exact hout

namespace Session

/-- Among the layers there is one on top of `below` that has taken the target. -/
def HeldAbove (below : List Layer) (target : String) (a : Session) : Prop :=
  ∃ above l, a.scopes.layers = above ++ l :: below ∧ target ∈ l.taken

theorem taken_subset_seed (s : Scopes) (names : List String) :
    s.inner.taken ⊆ (s.seed names).2.inner.taken := by
  induction names generalizing s with
  | nil => exact List.Subset.refl _
  | cons name names ih =>
    intro t ht
    exact ih (s.declare name).2 (List.mem_cons_of_mem _ (List.mem_cons_of_mem _ ht))

variable {a b : Session} {below : List Layer} {target : String}

theorem Step.layers_cases (h : Step a b) :
    b.scopes.layers = {} :: a.scopes.layers ∨
    (∃ l, a.scopes.layers = l :: b.scopes.layers) ∨
    ∃ l, b.scopes.layers = l :: a.scopes.outer ∧ a.scopes.inner.taken ⊆ l.taken := by
  cases h with
  | push => exact .inl rfl
  | pop hs => exact .inr (.inl ⟨a.scopes.inner, congrArg (_ :: ·) (Scopes.outer_of_pop? hs)⟩)
  | declare name =>
    refine .inr (.inr ⟨_, rfl, fun t ht => ?_⟩)
    exact List.mem_cons_of_mem _ (List.mem_cons_of_mem _ ht)
  | seed names =>
    refine .inr (.inr ⟨(a.scopes.seed names).2.inner, ?_, taken_subset_seed _ names⟩)
    exact congrArg (_ :: ·) (a.scopes.seed_outer names)
  | reserve => exact .inr (.inr ⟨_, rfl, List.subset_cons_self _ _⟩)
  | bind => exact .inr (.inr ⟨_, rfl, List.subset_cons_self _ _⟩)

section

variable (h : HeldAbove below target a)

include h

theorem HeldAbove.step (hstep : Step a b)
    (hdepth : below.length ≤ b.scopes.outer.length) : HeldAbove below target b := by
  obtain ⟨above, l, hlayers, hmem⟩ := h
  rcases hstep.layers_cases with hb | ⟨top, ha⟩ | ⟨top, hb, hsub⟩
  · exact ⟨{} :: above, l, by rw [hb, hlayers]; rfl, hmem⟩
  · cases above with
    | nil =>
      -- the layer itself cannot go, since it is the lowest that has to stay
      rw [ha, List.nil_append] at hlayers
      have hlen := congrArg List.length (List.cons.inj hlayers).2
      simp only [Scopes.layers, List.length_cons] at hlen
      omega
    | cons k above =>
      rw [ha] at hlayers
      exact ⟨above, l, (List.cons.inj hlayers).2, hmem⟩
  · cases above with
    | nil =>
      obtain ⟨rfl, hout⟩ := List.cons.inj hlayers
      exact ⟨[], top, by rw [hb, hout]; rfl, hsub hmem⟩
    | cons k above => exact ⟨top :: above, l, by rw [hb, (List.cons.inj hlayers).2]; rfl, hmem⟩

theorem HeldAbove.within (hrun : Within below.length a b) : HeldAbove below target b := by
  induction hrun with
  | refl => exact h
  | tail _ hstep ih => exact ih.step hstep.1 hstep.2

theorem HeldAbove.isLive : a.scopes.isLive target = true := by
  obtain ⟨above, l, hlayers, hmem⟩ := h
  exact Scopes.isLive_iff.mpr ⟨l, hlayers ▸ List.mem_append_right _ List.mem_cons_self, hmem⟩

theorem HeldAbove.layers_pop {s : Scopes} (hdepth : a.scopes.outer.length = below.length)
    (hs : a.scopes.pop? = some s) : s.layers = below := by
  obtain ⟨above, l, hlayers, -⟩ := h
  have hlen := congrArg List.length hlayers
  simp only [Scopes.layers, List.length_append, List.length_cons] at hlen
  obtain rfl : above = [] := List.eq_nil_of_length_eq_zero (by omega)
  rw [← Scopes.outer_of_pop? hs]
  exact (List.cons.inj hlayers).2

end

theorem heldAbove_reserve (a : Session) (name : String) :
    HeldAbove a.scopes.outer (a.scopes.reserve name).1 (a.reserve name) :=
  ⟨[], _, rfl, List.mem_cons_self⟩

theorem heldAbove_declare (a : Session) (name : String) :
    HeldAbove a.scopes.outer (a.scopes.reserve name).1 (a.declare name) :=
  ⟨[], _, rfl, List.mem_cons_self⟩

/-- After any run the targets bound in all layers are pairwise distinct and taken in their layers,
    so that bound names are resolved to different targets, and no target is a reserved word. The
    next target of a name is its own if that is free, else the one with the least free number. It
    was not live before, it stays live for as long as its layer is open, and it is free again once
    that layer is closed. -/
theorem renaming_is_injective {a : Session} (h : Reachable a) :
    (∀ i j name name' target, a.scopes.Binds i name target → a.scopes.Binds j name' target →
      i = j ∧ name = name') ∧
    (∀ i name target, a.scopes.Binds i name target →
      ∃ l, a.scopes.layers[i]? = some l ∧ target ∈ l.taken) ∧
    (∀ name name', a.scopes.IsBound name → a.scopes.IsBound name' →
      a.scopes.resolve name = a.scopes.resolve name' → name = name') ∧
    (∀ l ∈ a.scopes.layers, ∀ target ∈ l.taken, target ∉ Name.reserved) ∧
    ∀ name,
      let target := (a.scopes.reserve name).1
      (a.scopes.declare name).1 = target ∧
      a.scopes.IsNext name target ∧
      a.scopes.isLive target = false ∧
      ∀ b c, b = a.reserve name ∨ b = a.declare name → Within a.scopes.outer.length b c →
        c.scopes.isLive target = true ∧
        ∀ s, c.scopes.outer.length = a.scopes.outer.length → c.scopes.pop? = some s →
          s.isLive target = false := by
  have hord := h.orderly
  refine ⟨fun i j name name' target => hord.eq_of_binds, fun i name target => hord.taken_of_binds,
    ?_, ?_, fun name => ?_⟩
  · intro name name' hname hname' heq
    obtain ⟨i, hi⟩ := hname.binds_resolve
    obtain ⟨j, hj⟩ := hname'.binds_resolve
    exact (hord.eq_of_binds hi (heq ▸ hj)).2
  · intro l hl target htarget
    exact hord.unreserved target (hord.isLive_iff.mp (Scopes.isLive_iff.mpr ⟨l, hl, htarget⟩))
  · have hnext := a.scopes.isNext_fresh name
    refine ⟨rfl, hnext, hnext.isLive_eq_false, fun b c hb hrun => ?_⟩
    have hheld : HeldAbove a.scopes.outer (a.scopes.reserve name).1 b := by
      rcases hb with rfl | rfl
      · exact heldAbove_reserve a name
      · exact heldAbove_declare a name
    have hc := hheld.within hrun
    refine ⟨hc.isLive, fun s hdepth hs => ?_⟩
    -- the layers that are left were there before, when the target was free
    have hlayers := hc.layers_pop hdepth hs
    have hfree := hnext.isLive_eq_false
    rw [← Bool.not_eq_true, Scopes.isLive_iff] at hfree ⊢
    rintro ⟨l, hl, hmem⟩
    exact hfree ⟨l, List.mem_cons_of_mem _ (hlayers ▸ hl), hmem⟩

/-- A target is reserved for `x`, a nested `x` comes and goes, and only then the target is bound.
    `x_1` is also a name of the source, and a raw `x` has the same target as the plain one. -/
theorem renaming_is_injective_around_nesting :
    let nested := (({} : Session).reserve "x").push.declare "x"
    let back : Session := ⟨nested.scopes.pop, nested.outer.headD [], nested.outer.tail⟩
    let a := ((back.bind "x" "x").declare "x_1").declare "r#x"
    Reachable a ∧ a.scopes.IsBound "x" ∧ a.scopes.IsBound "r#x" ∧
      a.scopes.resolve "r#x" = "x_2" ∧ a.scopes.resolve "x" ≠ a.scopes.resolve "r#x" ∧
      a.scopes.IsNext "x" "x_3" := by
  intro nested back a
  have hnested : Reachable nested :=
    ((Relation.ReflTransGen.refl.tail (.reserve _ "x")).tail (.push _)).tail (.declare _ "x")
  have hbound : Reachable (back.bind "x" "x") :=
    (hnested.tail (.pop rfl)).tail (.bind (by decide +kernel))
  have ha : Reachable a := (hbound.tail (.declare _ "x_1")).tail (.declare _ "r#x")
  have hx : a.scopes.IsBound "x" := ⟨0, "x", _, rfl, by decide +kernel⟩
  have hraw : a.scopes.IsBound "r#x" := ⟨0, "x_2", _, rfl, by decide +kernel⟩
  have hnext : (a.scopes.reserve "x").1 = "x_3" := by decide +kernel
  obtain ⟨-, -, hinj, -, hreserve⟩ := renaming_is_injective ha
  refine ⟨ha, hx, hraw, by decide +kernel, fun h => ?_, hnext ▸ (hreserve "x").2.1⟩
  exact absurd (hinj "x" "r#x" hx hraw h) (by decide)

end Session

end RustScript
