/-
  Where the brackets and literals of JavaScript end.

  A text is read character by character, with what is open at that place (`advance?`), and `extent`
  counts up to the character that closes the last thing open. A bracket with a closed text behind it
  ends at the first closing bracket after the text (`extent_bracket`).
-/
import RustScript.Proofs.Layout.Level

namespace RustScript.Js

open Layout (stringTail commentTail closerOf? closersAfter isPlain)
open List (cons_append length_cons)

/-! ## The rules -/

/-- Something that is open. -/
inductive Bracket where
  | round
  | square
  | brace
  | template
  deriving DecidableEq

namespace Bracket

/-- The bracket that a character opens. -/
def opened? (c : Char) : Option Bracket :=
  if c == '(' then some round
  else if c == '[' then some square
  else if c == '\x7b' then some brace
  else if c.toNat == 0x60 then some template
  else none

/-- The character that closes a bracket. -/
def closer : Bracket → Char
  | round => ')'
  | square => ']'
  | brace => '\x7d'
  | template => '\x60'

/-- The bracket that a character closes. -/
def of (closer : Char) : Bracket :=
  if closer == ')' then round else if closer == ']' then square else brace

end Bracket

def isCloser (c : Char) : Bool := c == ')' || c == ']' || c == '\x7d'

/-- What is open after a character of code, if it is a bracket; a closing one has to be that of the
    innermost bracket. -/
def turn? (b : Bracket) (outer : List Bracket) (c : Char) : Option (List Bracket) :=
  match Bracket.opened? c with
  | some inner => some (inner :: b :: outer)
  | none =>
    if isCloser c then if c == b.closer then some outer else none
    else some (b :: outer)

/-- What is open after one character, and the number of characters that belong to it. -/
def advance? (b : Bracket) (outer : List Bracket) (c : Char) (cs : List Char) :
    Option (List Bracket × Nat) :=
  if b = .template then
    if c == '\\' then some (b :: outer, 1)
    else if c.toNat == 0x60 then some (outer, 0)
    else if c == '$' && cs.head? == some '\x7b' then some (.brace :: b :: outer, 1)
    else some (b :: outer, 0)
  else if c == '"' || c == '\'' then some (b :: outer, stringTail c cs)
  else if c == '/' && cs.head? == some '/' then
    some (b :: outer, (cs.takeWhile (· != '\n')).length)
  else if c == '/' && cs.head? == some '*' then some (b :: outer, 1 + commentTail cs.tail)
  else (turn? b outer c).map (·, 0)

/-- The number of characters up to the one that closes the last thing open, that one included;
    `skip` characters belong to the literal, escape or comment just found. -/
def extent : (skip : Nat) → List Bracket → List Char → Option Nat
  | _, [], _ => some 0
  | _, _ :: _, [] => none
  | skip + 1, b :: outer, _ :: cs => (extent skip (b :: outer) cs).map (· + 1)
  | 0, b :: outer, c :: cs =>
    (advance? b outer c cs).bind fun next => (extent next.2 next.1 cs).map (· + 1)

section Extent

variable {b : Bracket} {outer next : List Bracket} {c d : Char} {cs rest : List Char}

theorem map_add_add (o : Option Nat) (m n : Nat) :
    (o.map (· + m)).map (· + n) = o.map (· + (m + n)) := by
  cases o with
  | none => rfl
  | some k => exact congrArg some (Nat.add_assoc k m n)

theorem extent_skip (b : Bracket) (outer : List Bracket) (cs rest : List Char) :
    extent cs.length (b :: outer) (cs ++ rest) =
      (extent 0 (b :: outer) rest).map (· + cs.length) := by
  induction cs with
  | nil => simp
  | cons c cs ih => rw [cons_append, length_cons, extent, ih, map_add_add]

theorem extent_step {skip : Nat} (h : advance? b outer c cs = some (next, skip)) :
    extent 0 (b :: outer) (c :: cs) = (extent skip next cs).map (· + 1) := by
  rw [extent, h]
  rfl

theorem extent_code (hb : b ≠ .template) (hc : c ≠ '"' ∧ c ≠ '\'')
    (hslash : c = '/' → cs.head? ≠ some '/' ∧ cs.head? ≠ some '*')
    (hturn : turn? b outer c = some next) :
    extent 0 (b :: outer) (c :: cs) = (extent 0 next cs).map (· + 1) := by
  apply extent_step
  rw [advance?, if_neg hb, if_neg (by simp [hc]), if_neg (by simpa using fun e => (hslash e).1),
    if_neg (by simpa using fun e => (hslash e).2), hturn]
  rfl

theorem extent_open (hb : b ≠ .template) (hopen : closerOf? c = some d) :
    extent 0 (b :: outer) (c :: cs) = (extent 0 (Bracket.of d :: b :: outer) cs).map (· + 1) := by
  obtain ⟨rfl, rfl⟩ | ⟨rfl, rfl⟩ | ⟨rfl, rfl⟩ := Layout.closerOf?_cases hopen
  all_goals exact extent_code hb (by decide) (fun h => absurd h (by decide)) rfl

theorem extent_close (hopen : closerOf? c = some d) :
    extent 0 (Bracket.of d :: outer) (d :: cs) = (extent 0 outer cs).map (· + 1) := by
  obtain ⟨rfl, rfl⟩ | ⟨rfl, rfl⟩ | ⟨rfl, rfl⟩ := Layout.closerOf?_cases hopen
  all_goals exact extent_code (by decide) (by decide) (fun h => absurd h (by decide)) rfl

theorem extent_plain (hb : b ≠ .template)
    (hc : isPlain c = true ∨ c = '\n' ∨ c = '/' ∧ ∃ e, cs.head? = some e ∧ e ≠ '/' ∧ e ≠ '*') :
    extent 0 (b :: outer) (c :: cs) = (extent 0 (b :: outer) cs).map (· + 1) := by
  rcases hc with hc | rfl | ⟨rfl, e, he, h1, h2⟩
  · obtain ⟨-, h1, h2, h3, -, h4, h5, h6, h7, h8, h9, h10⟩ := Layout.isPlain_iff.mp hc
    refine extent_code hb ⟨h1, h2⟩ (fun h => absurd h h3) ?_
    simp [turn?, Bracket.opened?, isCloser, h4, h5, h6, h7, h8, h9, h10]
  · exact extent_code hb (by decide) (fun h => absurd h (by decide)) rfl
  · refine extent_code hb (by decide) (fun _ => ?_) rfl
    simp [he, h1, h2]

theorem extent_string (hb : b ≠ .template)
    (hbody : stringTail '"' (cs ++ '"' :: rest) = cs.length + 1) :
    extent 0 (b :: outer) ('"' :: (cs ++ '"' :: rest)) =
      (extent 0 (b :: outer) rest).map (· + (cs.length + 2)) := by
  have hstep : advance? b outer '"' (cs ++ '"' :: rest) = some (b :: outer, cs.length + 1) := by
    rw [advance?, if_neg hb, if_pos (by decide), hbody]
  have hskip := extent_skip b outer (cs ++ ['"']) rest
  rw [List.length_append, List.append_assoc] at hskip
  rw [extent_step hstep]
  simp only [List.length_singleton, List.singleton_append] at hskip
  rw [hskip, map_add_add]

end Extent

/-! ## Closed texts -/

/-- In front of any code, the text only moves the end of what is open around it. -/
structure Closed (cs : List Char) : Prop where
  before : ∀ b outer rest, b ≠ .template →
    extent 0 (b :: outer) (cs ++ rest) = (extent 0 (b :: outer) rest).map (· + cs.length)

namespace Closed

variable {cs ds : List Char} {c d : Char} {b : Bracket}

theorem nil : Closed [] := ⟨fun b outer rest _ => by simp⟩

theorem append (hcs : Closed cs) (hds : Closed ds) : Closed (cs ++ ds) := by
  refine ⟨fun b outer rest hb => ?_⟩
  rw [List.append_assoc, hcs.before b outer _ hb, hds.before b outer rest hb, map_add_add,
    List.length_append, Nat.add_comm ds.length]

theorem of_ne_template (d : Char) : Bracket.of d ≠ .template := by
  unfold Bracket.of
  split
  · decide
  split <;> decide

theorem exists_innermost (closers : List Char) (hb : b ≠ .template) (outer : List Bracket) :
    ∃ b' outer', closers.map Bracket.of ++ b :: outer = b' :: outer' ∧ b' ≠ .template := by
  cases closers with
  | nil => exact ⟨b, outer, rfl, hb⟩
  | cons d closers => exact ⟨_, _, rfl, of_ne_template d⟩

theorem extent_of_pieces {closers after : List Char} (h : Layout.Pieces after closers cs)
    (hvalid : ∀ d ∈ closers, ∃ c, closerOf? c = some d) (hb : b ≠ .template)
    (outer : List Bracket) (rest : List Char) :
    extent 0 (closers.map Bracket.of ++ b :: outer) (cs ++ rest) =
      (extent 0 (after.map Bracket.of ++ b :: outer) rest).map (· + cs.length) := by
  induction h with
  | nil => simp
  | @string closers body cs hbody _ ih =>
    obtain ⟨b', outer', hstack, hb'⟩ := exists_innermost closers hb outer
    have hstring := @extent_string b' outer' body (cs ++ rest) hb'
      (Layout.stringTail_raw (fun c hc => ⟨(hbody c hc).1, (hbody c hc).2.1⟩) _)
    rw [← hstack, ih hvalid, map_add_add] at hstring
    simp only [cons_append, List.append_assoc, length_cons, List.length_append]
    rw [hstring]
    congr 1
    funext n
    omega
  | @opens closers cs c d hc _ ih =>
    obtain ⟨b', outer', hstack, hb'⟩ := exists_innermost closers hb outer
    have hrest := ih fun e he => by
      rcases List.mem_cons.mp he with rfl | he
      · exact ⟨c, hc⟩
      · exact hvalid e he
    rw [List.map_cons, cons_append] at hrest
    rw [cons_append, hstack, extent_open hb' hc, ← hstack, hrest, map_add_add,
      length_cons]
  | @closes closers cs d _ ih =>
    obtain ⟨e, he⟩ := hvalid d List.mem_cons_self
    have hrest := ih fun e he => hvalid e (List.mem_cons_of_mem d he)
    rw [List.map_cons, cons_append, cons_append, extent_close he, hrest, map_add_add,
      length_cons]
  | @passes closers cs c hc _ ih =>
    obtain ⟨b', outer', hstack, hb'⟩ := exists_innermost closers hb outer
    rw [cons_append, hstack, extent_plain hb' (Layout.passes_cases hc), ← hstack, ih hvalid,
      map_add_add, length_cons]

/-- Code without backticks and comments is closed if its brackets match and its strings end. -/
theorem code (h : closersAfter false [] cs = some []) : Closed cs := by
  refine ⟨fun b outer rest hb => ?_⟩
  simpa using extent_of_pieces (.code h) (by simp) hb outer rest

theorem plain (h : cs.all isPlain = true) : Closed cs := code (Layout.closersAfter_plain h)

theorem bracketed (hcs : Closed cs) (hopen : closerOf? c = some d) : Closed (c :: (cs ++ [d])) := by
  refine ⟨fun b outer rest hb => ?_⟩
  have hlength : (c :: (cs ++ [d])).length = 1 + (cs.length + 1) := by
    simp only [length_cons, List.length_append, List.length_nil]
    omega
  rw [cons_append, List.append_assoc, extent_open hb hopen,
    hcs.before _ _ _ (of_ne_template d), List.singleton_append, extent_close hopen, map_add_add,
    map_add_add, hlength]

end Closed

theorem extent_bracket {cs : List Char} (hcs : Closed cs) {c d : Char}
    (hopen : closerOf? c = some d) (rest : List Char) :
    extent 0 [Bracket.of d] (cs ++ d :: rest) = some (cs.length + 1) := by
  rw [hcs.before _ _ _ (Closed.of_ne_template d), extent_close hopen, extent, Option.map_some,
    Option.map_some, Nat.zero_add, Nat.add_comm]

/-! ## Texts that go on -/

section More

variable {b : Bracket} {stack next : List Bracket} {c : Char} {cs : List Char} {skip n : Nat}

theorem extent_eq_none (b : Bracket) (outer : List Bracket) (h : cs.length ≤ skip) :
    extent skip (b :: outer) cs = none := by
  induction cs generalizing skip with
  | nil => rw [extent]
  | cons c cs ih =>
    cases skip with
    | zero => exact absurd h (Nat.not_succ_le_zero _)
    | succ skip => rw [extent, ih (Nat.le_of_succ_le_succ h), Option.map_none]

theorem length_pos_of_extent {outer : List Bracket} (h : extent skip (b :: outer) cs = some n) :
    skip < cs.length := by
  by_contra hle
  rw [extent_eq_none b outer (Nat.le_of_not_lt hle)] at h
  cases h

theorem commentTail_more (cs rest : List Char) :
    commentTail (cs ++ rest) = commentTail cs ∨ cs.length ≤ commentTail cs := by
  fun_induction commentTail cs with
  | case1 => exact .inr (Nat.le_refl 0)
  | case2 => exact .inl rfl
  | case3 c cs hno ih =>
    cases cs with
    | nil => exact .inr (Nat.le_refl 1)
    | cons d cs =>
      have hmore : commentTail (c :: (d :: cs ++ rest)) = commentTail (d :: cs ++ rest) + 1 := by
        rw [commentTail]
        intro ds hc hds
        cases hds
        exact hno cs hc rfl
      rw [cons_append, hmore, length_cons]
      omega

theorem turn?_append (outer : List Bracket) (h : turn? b stack c = some next) :
    turn? b (stack ++ outer) c = some (next ++ outer) := by
  unfold turn? at h ⊢
  split at h
  · rw [← Option.some.inj h]
    rfl
  split at h
  · next hclose =>
    rw [if_pos hclose]
    split at h
    · next hc => rw [if_pos hc, Option.some.inj h]
    · cases h
  · next hclose =>
    rw [if_neg hclose, ← Option.some.inj h]
    rfl

/-- What one character does is decided before the end of a text in which all that is open ends. -/
theorem advance?_append (h : advance? b stack c cs = some (next, skip))
    (hend : extent skip next cs = some n) (outer : List Bracket) (rest : List Char) :
    advance? b (stack ++ outer) c (cs ++ rest) = some (next ++ outer, skip) := by
  have hhead (hnext : ∃ b' outer', next = b' :: outer') : (cs ++ rest).head? = cs.head? := by
    obtain ⟨b', outer', rfl⟩ := hnext
    have hcs : cs ≠ [] := List.ne_nil_of_length_pos (Nat.zero_lt_of_lt (length_pos_of_extent hend))
    exact List.head?_append_of_ne_nil cs hcs
  unfold advance? at h ⊢
  by_cases hb : b = .template
  · rw [if_pos hb] at h ⊢
    split at h
    · next hc =>
      cases h
      rw [if_pos hc]
      rfl
    next hc =>
    rw [if_neg hc]
    split at h
    · next htick =>
      cases h
      rw [if_pos htick]
    next htick =>
    rw [if_neg htick]
    split at h
    · next hslot =>
      cases h
      rw [hhead ⟨_, _, rfl⟩, if_pos hslot]
      rfl
    · next hslot =>
      cases h
      rw [hhead ⟨_, _, rfl⟩, if_neg hslot]
      rfl
  rw [if_neg hb] at h ⊢
  split at h
  · next hquote =>
    cases h
    have hlt := length_pos_of_extent hend
    rw [if_pos hquote, (Layout.stringTail_append c cs rest).resolve_right (by omega)]
    rfl
  next hquote =>
  rw [if_neg hquote]
  by_cases hslash : c = '/'
  · subst hslash
    simp only [beq_self_eq_true, Bool.true_and] at h ⊢
    split at h
    · next hline =>
      cases h
      have hlt := length_pos_of_extent hend
      rw [hhead ⟨_, _, rfl⟩, if_pos hline, List.takeWhile_append, if_neg (by omega)]
      rfl
    next hline =>
    split at h
    · next hblock =>
      cases h
      have hlt := length_pos_of_extent hend
      obtain ⟨d, ds, rfl⟩ : ∃ d ds, cs = d :: ds :=
        List.exists_cons_of_length_pos (Nat.zero_lt_of_lt hlt)
      have hmore := (commentTail_more ds rest).resolve_right (by simp at hlt; omega)
      rw [hhead ⟨_, _, rfl⟩, if_neg hline, if_pos hblock, cons_append, List.tail_cons,
        List.tail_cons, hmore]
      rfl
    next hblock =>
    obtain ⟨stack', hturn, heq⟩ := Option.map_eq_some_iff.mp h
    obtain ⟨rfl, rfl⟩ := Prod.mk.inj heq
    obtain rfl : b :: stack = stack' := Option.some.inj hturn
    rw [hhead ⟨_, _, rfl⟩, if_neg hline, if_neg hblock, turn?_append outer hturn]
    rfl
  · have hno (x : Option Char) (d : Char) : ¬ (c == '/' && x == some d) = true := by simp [hslash]
    rw [if_neg (hno _ _), if_neg (hno _ _)] at h ⊢
    obtain ⟨stack', hturn, heq⟩ := Option.map_eq_some_iff.mp h
    cases heq
    rw [turn?_append outer hturn]
    rfl

theorem skip_of_advance? (h : advance? b stack c cs = some ([], skip)) : skip = 0 := by
  have hno {outer : List Bracket} {k : Nat} (h : some (b :: outer, k) = some ([], skip)) :
      skip = 0 :=
    nomatch h
  unfold advance? at h
  split at h
  · split at h
    · exact hno h
    split at h
    · exact (Prod.mk.inj (Option.some.inj h)).2.symm
    split at h
    · cases h
    · exact hno h
  split at h
  · exact hno h
  split at h
  · exact hno h
  split at h
  · exact hno h
  · obtain ⟨_, -, heq⟩ := Option.map_eq_some_iff.mp h
    exact (Prod.mk.inj heq).2.symm

/-- By induction on the text: what is open below is reached where all that is open above ends. -/
theorem extent_append (h : extent skip stack cs = some n) (hskip : stack = [] → skip = 0)
    (outer : List Bracket) (rest : List Char) :
    n ≤ cs.length ∧ extent skip (stack ++ outer) (cs ++ rest) =
      (extent 0 outer (cs.drop n ++ rest)).map (· + n) := by
  induction cs generalizing skip stack n with
  | nil =>
    cases stack with
    | nil =>
      obtain rfl := hskip rfl
      cases h
      simp
    | cons b stack => cases h
  | cons c cs ih =>
    cases stack with
    | nil =>
      obtain rfl := hskip rfl
      cases h
      simp
    | cons b stack =>
      cases skip with
      | succ skip =>
        obtain ⟨k, hk, rfl⟩ := Option.map_eq_some_iff.mp h
        obtain ⟨hle, hrest⟩ := ih hk (fun h => nomatch h)
        refine ⟨Nat.succ_le_succ hle, ?_⟩
        rw [cons_append, cons_append, extent, ← cons_append, hrest, map_add_add]
        rfl
      | zero =>
        obtain ⟨⟨next, skip⟩, hnext, h⟩ := Option.bind_eq_some_iff.mp h
        obtain ⟨k, hk, rfl⟩ := Option.map_eq_some_iff.mp h
        obtain ⟨hle, hrest⟩ := ih hk fun hnil => by
          simp only at hnil
          subst hnil
          exact skip_of_advance? hnext
        refine ⟨Nat.succ_le_succ hle, ?_⟩
        rw [cons_append, cons_append, extent_step (advance?_append hnext hk outer rest),
          hrest, map_add_add]
        rfl

end More

end RustScript.Js
