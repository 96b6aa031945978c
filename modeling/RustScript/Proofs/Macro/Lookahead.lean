/-
  Literals among tokens, found by looking ahead.

  A literal that ends inside a stretch is found whatever follows the stretch (`Starts.append`), and
  where none starts, none starts when a comma and a space follow, or nothing (`Starts.append_none`).
-/
import RustScript.Macro.Arguments
import RustScript.Proofs.Text.Trim

namespace RustScript.Arguments

open List (length_nil cons_append length_cons length_drop takeWhile_append length_append)

section Lookahead

variable {a b b' : List Char} {n : Nat} {pattern : List Char}

theorem isPrefixOf_append (h : pattern.length ≤ a.length) :
    pattern.isPrefixOf (a ++ b) = pattern.isPrefixOf (a ++ b') := by
  have hinto {b b' : List Char} (hb : pattern <+: a ++ b) : pattern <+: a ++ b' :=
    (List.prefix_of_prefix_length_le hb (List.prefix_append a b) h).trans (List.prefix_append a b')
  rw [Bool.eq_iff_iff, List.isPrefixOf_iff_prefix, List.isPrefixOf_iff_prefix]
  exact ⟨hinto, hinto⟩

theorem find?_append (h : find? pattern (a ++ b) = some n) (hn : n + pattern.length ≤ a.length) :
    find? pattern (a ++ b') = some n := by
  induction a generalizing n with
  | nil =>
    obtain ⟨rfl, hempty⟩ : n = 0 ∧ pattern = [] := by
      rw [length_nil] at hn
      exact ⟨by omega, List.eq_nil_of_length_eq_zero (by omega)⟩
    subst hempty
    cases b' <;> rfl
  | cons c a ih =>
    rw [cons_append, find?] at h ⊢
    rw [← cons_append, ← isPrefixOf_append (show pattern.length ≤ (c :: a).length by omega)]
    rw [← cons_append] at h
    split at h
    · next hfirst =>
      rw [if_pos hfirst]
      exact h
    · next hfirst =>
      obtain ⟨m, hm, rfl⟩ := Option.map_eq_some_iff.mp h
      have hlength : m + pattern.length ≤ a.length := by
        rw [length_cons] at hn
        omega
      rw [if_neg hfirst, ih hm hlength]
      rfl

theorem prefix_of_find? {pattern cs : List Char} (h : find? pattern cs = some n) :
    pattern <+: cs.drop n := by
  induction cs generalizing n with
  | nil =>
    rw [find?] at h
    split at h
    · next hempty =>
      rw [List.isEmpty_iff.mp hempty]
      exact List.nil_prefix
    · cases h
  | cons c cs ih =>
    rw [find?] at h
    split at h
    · next hfirst =>
      cases h
      exact List.isPrefixOf_iff_prefix.mp hfirst
    · obtain ⟨m, hm, rfl⟩ := Option.map_eq_some_iff.mp h
      exact ih hm

theorem stringTail?_spec {cs : List Char} (h : stringTail? cs = some n) :
    0 < n ∧ cs[n - 1]? = some '"' := by
  fun_induction stringTail? cs generalizing n with
  | case1 => cases h
  | case2 d cs ih =>
    obtain ⟨m, hm, rfl⟩ := Option.map_eq_some_iff.mp h
    obtain ⟨hpos, hlast⟩ := ih hm
    refine ⟨by omega, ?_⟩
    rw [show m + 2 - 1 = m - 1 + 1 + 1 by omega]
    exact hlast
  | case3 => cases h
  | case4 c cs _ _ hc =>
    cases h
    exact ⟨Nat.one_pos, congrArg some (beq_iff_eq.mp hc)⟩
  | case5 c cs _ _ _ ih =>
    obtain ⟨m, hm, rfl⟩ := Option.map_eq_some_iff.mp h
    obtain ⟨hpos, hlast⟩ := ih hm
    refine ⟨by omega, ?_⟩
    rw [show m + 1 - 1 = m - 1 + 1 by omega]
    exact hlast

theorem stringTail?_append (h : stringTail? (a ++ b) = some n) (hn : n ≤ a.length) :
    stringTail? (a ++ b') = some n := by
  fun_induction stringTail? a generalizing n with
  | case1 =>
    have hpos := (stringTail?_spec h).1
    rw [length_nil] at hn
    omega
  | case2 d cs ih =>
    rw [cons_append, cons_append, stringTail?] at h ⊢
    obtain ⟨m, hm, rfl⟩ := Option.map_eq_some_iff.mp h
    rw [ih hm (by simpa using hn)]
    rfl
  | case3 =>
    -- the character after the backslash is taken along with it
    cases b with
    | nil => cases h
    | cons d b =>
      obtain ⟨m, -, rfl⟩ := Option.map_eq_some_iff.mp h
      rw [length_cons, length_nil] at hn
      omega
  | case4 c cs hescape hlast hc =>
    obtain rfl := beq_iff_eq.mp hc
    simpa [stringTail?] using h
  | case5 c cs hescape hlast hc ih =>
    have hne : c ≠ '\\' := by
      intro heq
      cases cs with
      | nil => exact hlast heq rfl
      | cons d cs => exact hescape d cs heq rfl
    have hplain (ds : List Char) : stringTail? (c :: ds) = (stringTail? ds).map (· + 1) := by
      rw [stringTail?, if_neg hc]
      · exact fun _ _ heq => absurd heq hne
      · exact fun heq => absurd heq hne
    rw [cons_append, hplain] at h ⊢
    obtain ⟨m, hm, rfl⟩ := Option.map_eq_some_iff.mp h
    rw [ih hm (by simpa using hn)]
    rfl

theorem isCharTail_cons_cons (x y : Char) (cs : List Char) :
    isCharTail (x :: y :: cs) = (x == '\\' || y == '\'') := by
  unfold isCharTail
  split <;> simp_all

theorem charLength_cons (x : Char) (cs : List Char) :
    charLength (x :: cs) =
      if x = '\\' then ((cs.drop 1).takeWhile (· != '\'')).length + 4
      else ((x :: cs).takeWhile (· != '\'')).length + 2 := by
  by_cases hx : x = '\\'
  · subst hx
    simp only [charLength, List.head?_cons, beq_self_eq_true, if_true, List.drop_succ_cons]
    omega
  · have hhead : ((x :: cs).head? == some '\\') = false := by simpa using hx
    simp only [charLength, hhead, Bool.false_eq_true, if_false, List.drop_zero, if_neg hx]
    omega

end Lookahead

/-- The number of hashes at the front. -/
def hashes (cs : List Char) : Nat := (cs.takeWhile (· == '#')).length

/-- The mark at the end of a raw literal. -/
def rawEnd (count : Nat) : List Char := '"' :: List.replicate count '#'

/-- What starts with a character before which `previous` stands: a literal with so many characters,
    or none. -/
inductive Starts (previous : Option Char) : Char → List Char → Nat → Prop
  | string {cs : List Char} {n : Nat} (h : stringTail? cs = some n) : Starts previous '"' cs (n + 1)
  | raw {cs : List Char} {n : Nat} (hword : previous.any isWordChar = false)
      (hopens : opensRaw cs = true)
      (h : find? (rawEnd (hashes cs)) (cs.drop (hashes cs + 1)) = some n) :
      Starts previous 'r' cs (hashes cs + 1 + n + (hashes cs + 1) + 1)
  | char {cs : List Char} (h : isCharTail cs = true) : Starts previous '\'' cs (charLength cs)
  | none {c : Char} {cs : List Char} (hstring : c ≠ '"')
      (hraw : c = 'r' → previous.any isWordChar = false → opensRaw cs = false)
      (hchar : c = '\'' → isCharTail cs = false) : Starts previous c cs 0

variable {cs : List Char}

theorem Starts.plain {previous : Option Char} {c : Char} (h : c ≠ '"' ∧ c ≠ 'r' ∧ c ≠ '\'') :
    Starts previous c cs 0 :=
  .none h.1 (fun hraw => absurd hraw h.2.1) fun hchar => absurd hchar h.2.2

theorem literalLength_eq_ok_iff {tokens : String} {previous : Option Char} {c : Char} {m : Nat} :
    literalLength tokens previous c cs = .ok m ↔ Starts previous c cs m := by
  constructor
  · intro h
    unfold literalLength at h
    split at h
    · next hc =>
      obtain rfl := beq_iff_eq.mp hc
      unfold stringLength at h
      split at h
      · next n hn =>
        cases h
        rw [Nat.add_comm]
        exact .string hn
      · cases h
    · next hstring =>
      split at h
      · next hc =>
        simp only [Bool.and_eq_true, beq_iff_eq, Bool.not_eq_true'] at hc
        obtain ⟨⟨rfl, hword⟩, hopens⟩ := hc
        unfold rawLength at h
        dsimp only at h
        split at h
        · next n hn =>
          have hm : m = hashes cs + 1 + n + (hashes cs + 1) + 1 := by
            rw [← Except.ok.inj h, length_cons, List.length_replicate, hashes]
            omega
          rw [hm]
          exact .raw hword hopens hn
        · cases h
      · next hraw =>
        simp only [Bool.and_eq_true, beq_iff_eq, Bool.not_eq_true', not_and,
          Bool.not_eq_true] at hraw hstring
        split at h
        · next hc =>
          simp only [Bool.and_eq_true, beq_iff_eq] at hc
          obtain ⟨rfl, htail⟩ := hc
          cases h
          exact .char htail
        · next hchar =>
          simp only [Bool.and_eq_true, beq_iff_eq, not_and, Bool.not_eq_true] at hchar
          cases h
          exact .none hstring (fun hc hword => hraw ⟨hc, hword⟩) hchar
  · intro h
    unfold literalLength
    cases h with
    | @string cs n hn =>
      rw [if_pos (by decide), stringLength, hn]
      exact congrArg Except.ok (Nat.add_comm 1 n)
    | @raw cs n hword hopens hn =>
      rw [if_neg (by decide), if_pos (by simp [hword, hopens]), rawLength]
      rw [hashes, rawEnd] at hn
      rw [hn]
      refine congrArg Except.ok ?_
      rw [length_cons, List.length_replicate, hashes]
      omega
    | @char cs htail => rw [if_neg (by decide), if_neg (by simp), if_pos (by simp [htail])]
    | none hstring hraw hchar =>
      have hnoRaw : ¬(c == 'r' && !previous.any isWordChar && opensRaw cs) = true := by
        simp only [Bool.and_eq_true, beq_iff_eq, Bool.not_eq_true', not_and, Bool.not_eq_true]
        exact fun hc => hraw hc.1 hc.2
      have hnoChar : ¬(c == '\'' && isCharTail cs) = true := by
        simp only [Bool.and_eq_true, beq_iff_eq, not_and, Bool.not_eq_true]
        exact hchar
      rw [if_neg (by simpa using hstring), if_neg hnoRaw, if_neg hnoChar]

namespace Starts

variable {previous previous' : Option Char} {c : Char} {a b b' : List Char} {n : Nat}

theorem takeWhile_ne_cases (cs : List Char) :
    cs[(cs.takeWhile (· != '\'')).length]? = some '\'' ∨
      '\'' ∉ cs ∧ (cs.takeWhile (· != '\'')).length = cs.length := by
  have hsplit : cs.takeWhile (· != '\'') ++ cs.dropWhile (· != '\'') = cs :=
    List.takeWhile_append_dropWhile
  cases hdrop : cs.dropWhile (· != '\'') with
  | nil =>
    rw [hdrop, List.append_nil] at hsplit
    refine .inr ⟨fun hmem => ?_, congrArg List.length hsplit⟩
    rw [← hsplit] at hmem
    have hne := List.all_eq_true.mp List.all_takeWhile _ hmem
    exact absurd hne (by decide)
  | cons d ds =>
    have hd : d = '\'' := by
      have hne : cs.dropWhile (· != '\'') ≠ [] := by
        rw [hdrop]
        exact List.cons_ne_nil _ _
      simpa [hdrop] using List.head_dropWhile_not (· != '\'') hne
    refine .inl ?_
    rw [hd] at hdrop
    conv => lhs; arg 1; rw [← hsplit, hdrop]
    exact List.getElem?_append_right (Nat.le_refl _) |>.trans (by simp)

/-- A literal does not end in a blank. The one that may miss its end is a character after a
    backslash. -/
theorem last {cs : List Char} (h : Starts previous c cs (n + 1)) :
    (0 < n ∧ ∃ d, cs[n - 1]? = some d ∧ Text.isBlank d = false) ∨
      c = '\'' ∧ cs.head? = some '\\' ∧ '\'' ∉ cs.drop 2 ∧ cs.length < n := by
  generalize hm : n + 1 = m at h
  cases h with
  | @string cs k hk =>
    obtain rfl : n = k := by omega
    obtain ⟨hpos, hlast⟩ := stringTail?_spec hk
    exact .inl ⟨hpos, '"', hlast, by decide⟩
  | @raw cs k hword hopens hk =>
    obtain ⟨rest, hrest⟩ := prefix_of_find? hk
    refine .inl ⟨by omega, ?_⟩
    have hindex : cs[n - 1]? = (rawEnd (hashes cs))[hashes cs]? := by
      rw [List.drop_drop] at hrest
      have hat : (cs.drop (hashes cs + 1 + k))[hashes cs]? = (rawEnd (hashes cs))[hashes cs]? := by
        rw [← hrest, List.getElem?_append_left (by simp [rawEnd])]
      rw [List.getElem?_drop] at hat
      rw [← hat]
      congr 1
      omega
    rw [hindex, rawEnd]
    cases hashes cs with
    | zero => exact ⟨'"', rfl, by decide⟩
    | succ k => exact ⟨'#', by simp, by decide⟩
  | @char cs htail =>
    cases cs with
    | nil => cases htail
    | cons x cs =>
      rw [charLength_cons] at hm
      by_cases hx : x = '\\'
      · rw [if_pos hx] at hm
        rcases takeWhile_ne_cases (cs.drop 1) with hat | ⟨hno, hall⟩
        · refine .inl ⟨by omega, '\'', ?_, by decide⟩
          rw [show n - 1 = ((cs.drop 1).takeWhile (· != '\'')).length + 1 + 1 by omega,
            List.getElem?_cons_succ, ← hat, List.getElem?_drop, Nat.add_comm]
        · rw [length_drop] at hall
          exact .inr ⟨rfl, by rw [hx]; rfl, hno, by rw [length_cons]; omega⟩
      · -- without a backslash the closing quote has been seen
        rw [if_neg hx] at hm
        rcases takeWhile_ne_cases (x :: cs) with hat | ⟨hno, -⟩
        · refine .inl ⟨by omega, '\'', ?_, by decide⟩
          rw [← hat]
          congr 1
          omega
        · exfalso
          unfold isCharTail at htail
          split at htail
          · exact hx (List.cons.inj ‹_›).1
          · exact hno (by simp_all)
          · cases htail
  | none => omega

theorem hashes_append (h : hashes (a ++ b) < a.length) : hashes (a ++ b') = hashes (a ++ b) := by
  have hshort : (a.takeWhile (· == '#')).length ≠ a.length := by
    intro hall
    rw [hashes, takeWhile_append, if_pos hall, length_append] at h
    omega
  rw [hashes, hashes, takeWhile_append, if_neg hshort, takeWhile_append, if_neg hshort]

theorem opensRaw_append (h : hashes (a ++ b) < a.length) :
    opensRaw (a ++ b') = opensRaw (a ++ b) := by
  have hne : a.dropWhile (· == '#') ≠ [] := by
    intro hnil
    have hsplit := List.takeWhile_append_dropWhile (p := (· == '#')) (l := a)
    rw [hnil, List.append_nil] at hsplit
    rw [hashes, takeWhile_append, if_pos (congrArg List.length hsplit), length_append] at h
    omega
  have hempty : ¬(a.dropWhile (· == '#')).isEmpty = true := by simpa using hne
  rw [opensRaw, opensRaw, List.dropWhile_append, if_neg hempty, List.dropWhile_append,
    if_neg hempty, List.head?_append_of_ne_nil _ hne, List.head?_append_of_ne_nil _ hne]

theorem charLength_append (h : charLength (a ++ b) ≤ a.length + 1) :
    charLength (a ++ b') = charLength (a ++ b) := by
  have htake {a : List Char} (h : ((a ++ b).takeWhile (· != '\'')).length < a.length) :
      (a ++ b').takeWhile (· != '\'') = (a ++ b).takeWhile (· != '\'') := by
    have hshort : (a.takeWhile (· != '\'')).length ≠ a.length := by
      intro hall
      rw [takeWhile_append, if_pos hall, length_append] at h
      omega
    rw [takeWhile_append, if_neg hshort, takeWhile_append, if_neg hshort]
  cases a with
  | nil =>
    rw [charLength, length_nil] at h
    omega
  | cons x a =>
    rw [cons_append, charLength_cons] at h
    rw [cons_append, charLength_cons, cons_append, charLength_cons]
    by_cases hx : x = '\\'
    · rw [if_pos hx] at h
      rw [if_pos hx, if_pos hx]
      cases a with
      | nil =>
        rw [length_cons, length_nil] at h
        omega
      | cons y a =>
        simp only [cons_append, List.drop_succ_cons, List.drop_zero, length_cons] at h ⊢
        rw [htake (by omega)]
    · rw [if_neg hx] at h
      rw [if_neg hx, if_neg hx]
      rw [← cons_append] at h
      rw [← cons_append, htake (by omega), cons_append]

/-- A literal that ends inside a stretch is there whatever follows the stretch. -/
theorem append (h : Starts previous c (a ++ b) (n + 1)) (hn : n ≤ a.length)
    (hb : b.head? ≠ some '\'') (hprevious : previous'.any isWordChar = previous.any isWordChar) :
    Starts previous' c (a ++ b') (n + 1) := by
  generalize hcs : a ++ b = cs at h
  generalize hm : n + 1 = m at h
  cases h with
  | @string cs k hk =>
    subst hcs
    exact .string (stringTail?_append hk (by omega))
  | @raw cs k hword hopens hk =>
    subst hcs
    have hsame : hashes (a ++ b') = hashes (a ++ b) := hashes_append (by omega)
    rw [← hsame]
    refine .raw (hprevious.trans hword) ?_ ?_
    · exact (opensRaw_append (by omega)).trans hopens
    · rw [hsame, List.drop_append_of_le_length (by omega)]
      rw [List.drop_append_of_le_length (by omega)] at hk
      refine find?_append hk ?_
      rw [length_drop, rawEnd, length_cons, List.length_replicate]
      omega
  | @char cs htail =>
    subst hcs
    have hshort : charLength (a ++ b) ≤ a.length + 1 := by omega
    rw [← charLength_append hshort]
    refine .char ?_
    match a with
    | [] =>
      rw [charLength, length_nil] at hshort
      omega
    | [x] =>
      exfalso
      unfold isCharTail at htail
      split at htail
      · next heq =>
        rw [List.singleton_append, charLength_cons, if_pos (List.cons.inj heq).1,
          List.length_singleton] at hshort
        omega
      · next heq =>
        cases heq
        exact hb rfl
      · cases htail
    | x :: y :: a =>
      rw [cons_append, cons_append, isCharTail_cons_cons] at htail ⊢
      exact htail
  | none => omega

theorem append_none (h : Starts previous c (a ++ b) 0)
    (hb' : b' = [] ∨ ∃ rest, b' = ',' :: ' ' :: rest)
    (hprevious : previous'.any isWordChar = previous.any isWordChar) :
    Starts previous' c (a ++ b') 0 := by
  generalize hcs : a ++ b = cs at h
  generalize hm : 0 = m at h
  cases h with
  | string => omega
  | raw => omega
  | @char cs htail =>
    rw [charLength] at hm
    omega
  | none hstring hraw hchar =>
    subst hcs
    refine .none hstring (fun hc hword => ?_) (fun hc => ?_)
    · have hno := hraw hc (hprevious ▸ hword)
      rw [opensRaw, List.dropWhile_append] at hno ⊢
      split
      · rcases hb' with rfl | ⟨rest, rfl⟩ <;> rfl
      · next hne =>
        rw [if_neg hne] at hno
        have hne : a.dropWhile (· == '#') ≠ [] := by simpa using hne
        rw [List.head?_append_of_ne_nil _ hne] at hno ⊢
        exact hno
    · have hno := hchar hc
      match a with
      | [] => rcases hb' with rfl | ⟨rest, rfl⟩ <;> rfl
      | [x] =>
        have hx : x ≠ '\\' := by
          rintro rfl
          cases hno
        rcases hb' with rfl | ⟨rest, rfl⟩
        · unfold isCharTail
          split <;> simp_all
        · rw [List.singleton_append, isCharTail_cons_cons]
          simpa using hx
      | x :: y :: a =>
        rw [cons_append, cons_append, isCharTail_cons_cons] at hno ⊢
        exact hno

theorem unended {bs : List Char} (hhead : (a ++ bs).head? = some '\\')
    (hno : '\'' ∉ (a ++ bs).drop 2) (hbs : bs.all Text.isBlank = true) :
    ∃ n, Starts previous '\'' a (n + 1) ∧ a.length ≤ n := by
  cases a with
  | nil =>
    have hblank := List.all_eq_true.mp hbs _ (List.mem_of_mem_head? hhead)
    exact absurd hblank (by decide)
  | cons x a =>
    cases hhead
    have hlength : charLength ('\\' :: a) = (a.drop 1).length + 4 := by
      rw [charLength_cons, if_pos rfl]
      rcases takeWhile_ne_cases (a.drop 1) with hat | ⟨-, hall⟩
      · refine absurd ?_ hno
        rw [cons_append, List.drop_succ_cons, List.drop_append]
        exact List.mem_append_left _ (List.mem_of_getElem? hat)
      · rw [hall]
    refine ⟨(a.drop 1).length + 3, ?_, ?_⟩
    · rw [show (a.drop 1).length + 3 + 1 = charLength ('\\' :: a) from hlength.symm]
      exact .char rfl
    · rw [length_cons, length_drop]
      omega

end Starts

end RustScript.Arguments
