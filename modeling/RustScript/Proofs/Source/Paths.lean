/-
  Generic arguments in paths.

  Passes over the text drop the innermost generic arguments until a pass changes nothing. All passes
  together come to one pass with a stack, which each of them leaves as it is. What is left of a path
  are its segments, and empty pieces where arguments stood on their own.
-/
import Mathlib.Logic.Function.Iterate
import RustScript.Proofs.Text.Trim
import RustScript.Source.Path

namespace RustScript.Source

open List (append_assoc mem_cons_self append_nil cons_append)

/-! ## One pass with a stack -/

/-- The text without its angle brackets and what stands between them; `out` is what is kept so far,
    backwards. A bracket without a partner stays. -/
def dropGenericsFrom (out : List Char) : List Char → List Char
  | [] => out.reverse
  | c :: cs =>
    if c == '>' && out.contains '<' then dropGenericsFrom (out.dropWhile (· != '<')).tail cs
    else dropGenericsFrom (c :: out) cs

theorem dropGenericsFrom_plain (h : '>' ∉ cs) (out rest : List Char) :
    dropGenericsFrom out (cs ++ rest) = dropGenericsFrom (cs.reverse ++ out) rest := by
  induction cs generalizing out with
  | nil => rfl
  | cons c cs ih =>
    have hc : (c == '>') = false := beq_false_of_ne fun heq => h (heq ▸ mem_cons_self)
    rw [cons_append, dropGenericsFrom, hc, Bool.false_and, if_neg Bool.false_ne_true,
      ih fun hmem => h (List.mem_cons_of_mem c hmem), List.reverse_cons, append_assoc]
    rfl

theorem dropGenericsFrom_close {held : List Char} (h : '<' ∉ held) (out rest : List Char) :
    dropGenericsFrom (held ++ '<' :: out) ('>' :: rest) = dropGenericsFrom out rest := by
  have hopen : (held ++ '<' :: out).contains '<' = true :=
    List.contains_iff_mem.mpr (List.mem_append_right held mem_cons_self)
  rw [dropGenericsFrom, if_pos (by rw [hopen]; rfl), Text.dropWhile_ne_append h, List.tail_cons]

theorem dropGenericsFrom_bracketed {inside held : List Char} (hheld : '<' ∉ held)
    (hpass : ∀ out rest,
      dropGenericsFrom out (inside ++ rest) = dropGenericsFrom (held ++ out) rest)
    (out rest : List Char) :
    dropGenericsFrom out ('<' :: (inside ++ '>' :: rest)) = dropGenericsFrom out rest := by
  rw [← List.singleton_append, dropGenericsFrom_plain (by decide), hpass, List.reverse_singleton,
    List.singleton_append, dropGenericsFrom_close hheld]

theorem dropGenericsFrom_of_not_sublist {out : List Char}
    (h : ¬['<', '>'].Sublist (out.reverse ++ cs)) :
    dropGenericsFrom out cs = out.reverse ++ cs := by
  induction cs generalizing out with
  | nil => exact (append_nil _).symm
  | cons c cs ih =>
    have hkept : ¬(c == '>' && out.contains '<') = true := by
      simp only [Bool.and_eq_true, beq_iff_eq, List.contains_iff_mem]
      rintro ⟨rfl, hopen⟩
      have hfront : ['<'].Sublist out.reverse := by simpa using hopen
      exact h (hfront.append (List.singleton_sublist.mpr mem_cons_self))
    rw [List.append_cons, ← List.reverse_cons] at h
    rw [dropGenericsFrom, if_neg hkept, ih h, List.reverse_cons, ← List.append_cons]

/-! ## The passes -/

/-- In a text that a pass leaves as it is no bracket opens before one that closes. -/
theorem not_sublist_of_dropInnermost_eq {held : Option (List Char)}
    (h : dropInnermost held cs = heldText held ++ cs) :
    (held.isSome → '>' ∉ cs) ∧ ¬['<', '>'].Sublist cs := by
  have hnone {cs : List Char} (hclose : '>' ∉ cs) : ¬['<', '>'].Sublist cs := fun hsub =>
    hclose (hsub.mem (List.mem_cons_of_mem _ mem_cons_self))
  fun_induction dropInnermost held cs with
  | case1 => exact ⟨fun _ => List.not_mem_nil, by decide⟩
  | case2 cs ih =>
    have hclose := (ih h).1 rfl
    exact ⟨fun hsome => absurd hsome Bool.false_ne_true, hnone (by simpa using hclose)⟩
  | case3 c cs hc ih =>
    have hrest := (ih (List.cons.inj h).2).2
    exact ⟨fun hsome => absurd hsome Bool.false_ne_true,
      fun hsub => hrest (hsub.of_cons_of_ne (Ne.symm hc))⟩
  | case4 held => exact ⟨fun _ => List.not_mem_nil, by decide⟩
  | case5 held cs ih =>
    have hrest := (ih (by simpa [heldText] using h)).1 rfl
    have hclose : '>' ∉ '<' :: cs := by simpa using hrest
    exact ⟨fun _ => hclose, hnone hclose⟩
  | case6 held cs ih =>
    -- the group is gone, so the text has become shorter
    have hle : (dropInnermost none cs).length ≤ cs.length :=
      (dropInnermost_eq_or_lt none cs).elim (fun heq => heq ▸ Nat.le_refl _) Nat.le_of_lt
    rw [h, List.length_append, List.length_cons] at hle
    omega
  | case7 held c cs _ hc ih =>
    have hrest := (ih (by simpa [heldText] using h)).1 rfl
    have hclose : '>' ∉ c :: cs := by simpa [hrest] using Ne.symm hc
    exact ⟨fun _ => hclose, hnone hclose⟩

/-- What is held back counts as read. -/
theorem dropGenericsFrom_dropInnermost (held : Option (List Char)) (cs out : List Char)
    (h : ∀ inside ∈ held, '<' ∉ inside ∧ '>' ∉ inside) :
    dropGenericsFrom out (dropInnermost held cs) =
      dropGenericsFrom ((heldText held).reverse ++ out) cs := by
  have hclose (inside : List Char) (h : ∀ held ∈ some inside, '<' ∉ held ∧ '>' ∉ held) :
      '>' ∉ heldText (some inside) := by simpa [heldText] using (h inside rfl).2
  fun_induction dropInnermost held cs generalizing out with
  | case1 => rfl
  | case2 cs ih => exact ih out (by simp)
  | case3 c cs hc ih =>
    simp only [dropGenericsFrom, heldText, ih _ h]
    rfl
  | case4 held =>
    have hplain := dropGenericsFrom_plain (hclose held h) out []
    rwa [append_nil] at hplain
  | case5 held cs ih =>
    have hplain := dropGenericsFrom_plain (hclose held h) out (dropInnermost (some []) cs)
    exact hplain.trans (ih _ (by simp))
  | case6 held cs ih =>
    have hgone := dropGenericsFrom_close (h held rfl).1 out cs
    rw [ih out (by simp)]
    simpa [heldText] using hgone.symm
  | case7 held c cs hopen hclose ih =>
    have hc : (c == '>') = false := beq_false_of_ne hclose
    have hheld : '<' ∉ c :: held ∧ '>' ∉ c :: held := by
      simpa [h held rfl] using ⟨Ne.symm hopen, Ne.symm hclose⟩
    rw [ih out (by simpa using hheld)]
    simp [dropGenericsFrom, heldText, hc]

theorem dropGenerics_eq (cs : List Char) : dropGenerics cs = dropGenericsFrom [] cs := by
  fun_induction dropGenerics cs with
  | case1 cs h =>
    have hfixed := (@not_sublist_of_dropInnermost_eq cs none h).2
    exact (@dropGenericsFrom_of_not_sublist cs [] hfixed).symm
  | case2 cs _ ih => exact ih.trans (dropGenericsFrom_dropInnermost none cs [] (by simp))

theorem exists_iterate_dropInnermost (cs : List Char) :
    ∃ n ≤ cs.length, Nat.iterate (dropInnermost none) n cs = dropGenerics cs := by
  fun_induction dropGenerics cs with
  | case1 cs h => exact ⟨0, Nat.zero_le _, rfl⟩
  | case2 cs h ih =>
    obtain ⟨n, hn, hiter⟩ := ih
    have hlt := (dropInnermost_eq_or_lt none cs).resolve_left h
    exact ⟨n + 1, Nat.lt_of_le_of_lt hn hlt, hiter⟩

theorem dropInnermost_dropGenerics (cs : List Char) :
    dropInnermost none (dropGenerics cs) = dropGenerics cs := by
  fun_induction dropGenerics cs with
  | case1 cs h => exact h
  | case2 cs h ih => exact ih

/-! ## Paths as they are written -/

/-- A text in which the angle brackets are nested properly. -/
inductive Nested : List Char → Prop where
  | nil : Nested []
  | char {c : Char} {cs : List Char} (hopen : c ≠ '<') (hclose : c ≠ '>') (h : Nested cs) :
      Nested (c :: cs)
  | group {inside cs : List Char} (hinside : Nested inside) (h : Nested cs) :
      Nested ('<' :: (inside ++ '>' :: cs))

theorem Nested.exists_kept (h : Nested cs) :
    ∃ kept, '<' ∉ kept ∧
      ∀ out rest, dropGenericsFrom out (cs ++ rest) = dropGenericsFrom (kept ++ out) rest := by
  induction h with
  | nil => exact ⟨[], List.not_mem_nil, fun _ _ => rfl⟩
  | @char c cs hopen hclose _ ih =>
    obtain ⟨kept, hkept, hpass⟩ := ih
    refine ⟨kept ++ [c], by simp [hkept, Ne.symm hopen], fun out rest => ?_⟩
    rw [← List.singleton_append, append_assoc, dropGenericsFrom_plain (by simp [Ne.symm hclose]),
      hpass, append_assoc, List.reverse_singleton]
  | @group inside cs _ _ ihinside ih =>
    obtain ⟨held, hheld, hinside⟩ := ihinside
    obtain ⟨kept, hkept, hpass⟩ := ih
    refine ⟨kept, hkept, fun out rest => ?_⟩
    rw [cons_append, append_assoc, cons_append,
      dropGenericsFrom_bracketed hheld hinside, hpass]

/-- The generic arguments behind a name, with or without a double colon before them. -/
inductive Arguments where
  | none
  | direct (text : List Char) (nested : Nested text)
  | turbofish (text : List Char) (nested : Nested text)

namespace Arguments

def chars : Arguments → List Char
  | none => []
  | direct text _ => '<' :: (text ++ ['>'])
  | turbofish text _ => ':' :: ':' :: '<' :: (text ++ ['>'])

def bare : Arguments → List Char
  | turbofish _ _ => [':', ':']
  | _ => []

theorem dropGenericsFrom_chars (args : Arguments) (out rest : List Char) :
    dropGenericsFrom out (args.chars ++ rest) = dropGenericsFrom (args.bare ++ out) rest := by
  cases args with
  | none => rfl
  | direct text nested =>
    obtain ⟨held, hheld, hpass⟩ := nested.exists_kept
    rw [chars, cons_append, append_assoc, List.singleton_append,
      dropGenericsFrom_bracketed hheld hpass]
    rfl
  | turbofish text nested =>
    obtain ⟨held, hheld, hpass⟩ := nested.exists_kept
    have hcolons : dropGenericsFrom out ([':', ':'] ++ ('<' :: (text ++ '>' :: rest))) =
        dropGenericsFrom ([':', ':'] ++ out) ('<' :: (text ++ '>' :: rest)) :=
      dropGenericsFrom_plain (by decide) out _
    rw [dropGenericsFrom_bracketed hheld hpass] at hcolons
    rw [chars, bare, ← hcolons]
    simp

end Arguments

/-- A segment of a path: a name, and perhaps generic arguments behind it. -/
structure Segment where
  name : String
  arguments : Arguments := .none
  nonempty : name.toList ≠ []
  plain : ∀ c ∈ name.toList, c ≠ '<' ∧ c ≠ '>' ∧ c ≠ ':' ∧ Text.isBlank c = false

namespace Segment

def chars (s : Segment) : List Char := s.name.toList ++ s.arguments.chars

def bare (s : Segment) : List Char := s.name.toList ++ s.arguments.bare

/-- The segments with two colons between them. -/
def joined (f : Segment → List Char) : List Segment → List Char
  | [] => []
  | [s] => f s
  | s :: t :: path => f s ++ ':' :: ':' :: joined f (t :: path)

/-- A path as it is written. -/
def pathText (path : List Segment) : String := String.ofList (joined chars path)

theorem dropGenericsFrom_chars (s : Segment) (out rest : List Char) :
    dropGenericsFrom out (s.chars ++ rest) = dropGenericsFrom (s.bare.reverse ++ out) rest := by
  have hclose : '>' ∉ s.name.toList := fun hmem => (s.plain _ hmem).2.1 rfl
  have hbare : s.arguments.bare.reverse = s.arguments.bare := by cases s.arguments <;> rfl
  rw [chars, append_assoc, dropGenericsFrom_plain hclose, Arguments.dropGenericsFrom_chars,
    bare, List.reverse_append, hbare, append_assoc]

theorem dropGenericsFrom_joined (path : List Segment) (out : List Char) :
    dropGenericsFrom out (joined chars path) = out.reverse ++ joined bare path := by
  fun_induction joined chars path generalizing out with
  | case1 => rw [dropGenericsFrom, joined, append_nil]
  | case2 s =>
    have hend := s.dropGenericsFrom_chars out []
    rw [append_nil] at hend
    rw [hend, dropGenericsFrom, List.reverse_append, List.reverse_reverse, joined]
  | case3 s t path ih =>
    have hcolons : dropGenericsFrom (s.bare.reverse ++ out)
        ([':', ':'] ++ joined chars (t :: path)) = _ := dropGenericsFrom_plain (by decide) _ _
    rw [dropGenericsFrom_chars]
    refine hcolons.trans ?_
    rw [ih, joined]
    simp

/-- Pieces without blanks at their ends and without empty ones. -/
def trimmed (pieces : List (List Char)) : List (List Char) :=
  (pieces.map Text.trim).filter fun p => !p.isEmpty

theorem splitColons_plain {cs : List Char} (h : ':' ∉ cs) (piece rest : List Char) :
    splitColons piece (cs ++ rest) = splitColons (cs.reverse ++ piece) rest := by
  induction cs generalizing piece with
  | nil => rfl
  | cons c cs ih =>
    have hc : c ≠ ':' := fun heq => h (heq ▸ mem_cons_self)
    rw [cons_append, splitColons, ih fun hmem => h (List.mem_cons_of_mem c hmem),
      List.reverse_cons, append_assoc, List.singleton_append]
    intro _ heq
    exact absurd heq hc

theorem trim_eq_self_of_plain {cs : List Char} (h : ∀ c ∈ cs, Text.isBlank c = false) :
    Text.trim cs = cs := by
  rcases List.eq_nil_or_concat' cs with rfl | ⟨front, d, rfl⟩
  · rfl
  · obtain ⟨c, hc⟩ : ∃ c, (front ++ [d]).head? = some c := by cases front <;> exact ⟨_, rfl⟩
    exact Text.trim_eq_self hc (h c (List.mem_of_mem_head? hc)) rfl
      (h d (List.mem_append_right front mem_cons_self))

theorem trimmed_name_cons (s : Segment) (pieces : List (List Char)) :
    trimmed (s.name.toList :: pieces) = s.name.toList :: trimmed pieces := by
  have htrim := trim_eq_self_of_plain fun c hc => (s.plain c hc).2.2.2
  have hfull : (!s.name.toList.isEmpty) = true := by simpa using s.nonempty
  rw [trimmed, List.map_cons, htrim, List.filter_cons, if_pos hfull, trimmed]

theorem splitColons_name (s : Segment) (rest : List Char) :
    splitColons [] (s.name.toList ++ rest) = splitColons s.name.toList.reverse rest := by
  have hcolon : ':' ∉ s.name.toList := fun hmem => (s.plain _ hmem).2.2.1 rfl
  rw [splitColons_plain hcolon, append_nil]

theorem trimmed_splitColons_bare (s : Segment) :
    trimmed (splitColons [] s.bare) = [s.name.toList] ∧
    ∀ rest, trimmed (splitColons [] (s.bare ++ ':' :: ':' :: rest)) =
      s.name.toList :: trimmed (splitColons [] rest) := by
  have hname : ∀ pieces, trimmed (s.name.toList.reverse.reverse :: pieces) =
      s.name.toList :: trimmed pieces := by
    rw [List.reverse_reverse]
    exact s.trimmed_name_cons
  have hempty : ∀ pieces, trimmed ([] :: pieces) = trimmed pieces := fun _ => rfl
  rw [bare]
  simp only [append_assoc, splitColons_name]
  cases s.arguments with
  | turbofish => exact ⟨hname [[]], fun rest => (hname _).trans (congrArg _ (hempty _))⟩
  | _ => exact ⟨hname [], fun rest => hname _⟩

theorem trimmed_splitColons_joined (path : List Segment) :
    trimmed (splitColons [] (joined bare path)) = path.map fun s => s.name.toList := by
  fun_induction joined bare path with
  | case1 => rfl
  | case2 s => exact s.trimmed_splitColons_bare.1
  | case3 s t path ih =>
    rw [s.trimmed_splitColons_bare.2, ih]
    rfl

theorem segments_pathText (path : List Segment) :
    segments (pathText path) = dropOwnModules (path.map name) := by
  have hbare : dropGenerics (pathText path).toList = joined bare path := by
    rw [pathText, String.toList_ofList, dropGenerics_eq]
    exact dropGenericsFrom_joined path []
  have hnames := trimmed_splitColons_joined path
  rw [trimmed, ← hbare] at hnames
  rw [segments, hnames, List.map_map]
  refine congrArg dropOwnModules (List.map_congr_left fun s _ => ?_)
  exact String.ofList_toList

end Segment

/-- The names without the own modules in front; if all are, the last stays. -/
def withoutOwnModules (names : List String) : List String :=
  if names.all isOwnModule then names.drop (names.length - 1) else names.dropWhile isOwnModule

theorem dropOwnModules_eq (names : List String) :
    dropOwnModules names = withoutOwnModules names := by
  induction names with
  | nil => rfl
  | cons s rest ih =>
    cases rest with
    | nil => cases hs : isOwnModule s <;> simp [withoutOwnModules, dropOwnModules, hs]
    | cons t rest =>
      rw [dropOwnModules]
      cases hs : isOwnModule s with
      | true =>
        have hall : (s :: t :: rest).all isOwnModule = (t :: rest).all isOwnModule := by
          rw [List.all_cons, hs, Bool.true_and]
        rw [if_pos rfl, ih, withoutOwnModules, withoutOwnModules, hall,
          List.dropWhile_cons_of_pos hs]
        rfl
      | false => simp [withoutOwnModules, hs]

/-- The segments of a written path are its names in order, without the own modules in front.
    Whatever the text, after at most as many passes as it has characters a further one changes
    nothing, and then no bracket that is left opens before one that closes. -/
theorem generic_arguments_vanish :
    (∀ path : List Segment,
      segments (Segment.pathText path) = withoutOwnModules (path.map Segment.name)) ∧
    ∀ cs : List Char,
      (∃ n ≤ cs.length, Nat.iterate (dropInnermost none) n cs = dropGenerics cs) ∧
        dropInnermost none (dropGenerics cs) = dropGenerics cs ∧
        ¬['<', '>'].Sublist (dropGenerics cs) := by
  refine ⟨fun path => (Segment.segments_pathText path).trans (dropOwnModules_eq _), fun cs => ?_⟩
  have hfixed := dropInnermost_dropGenerics cs
  exact ⟨exists_iterate_dropInnermost cs, hfixed, (not_sublist_of_dropInnermost_eq hfixed).2⟩

example : segments "self::Vec::<Map<K, V>>::new<A<B>>" = ["Vec", "new"] := by
  rw [segments, dropGenerics_eq]
  decide

end RustScript.Source
