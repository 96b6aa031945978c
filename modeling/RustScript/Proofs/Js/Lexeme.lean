/-
  The lexemes of JavaScript.

  A text is cut into words, numerals, literals, brackets and marks (`lexemes`); a bracket or a
  literal is one lexeme. Texts that are put together keep their lexemes (`lexemes_append`), as long
  as the last lexeme of the first does not go on in the second.
-/
import RustScript.Proofs.Js.Extent
import RustScript.Proofs.Layout.Plain

namespace RustScript.Js

open Layout (stringTail commentTail closerOf? isPlain)
open List (cons_append append_assoc length_cons append_nil all_eq_true)

/-! ## Single lexemes -/

/-- The lexemes; the text inside a bracket is not taken apart. -/
inductive Lexeme where
  | word (text : String)
  | numeral (text : String)
  | literal (text : String)
  | round (inner : String)
  | square (inner : String)
  | brace (inner : String)
  | mark (text : String)
  deriving DecidableEq

def Lexeme.enclosed (b : Bracket) (inner : List Char) : Lexeme :=
  match b with
  | .round => .round (String.ofList inner)
  | .square => .square (String.ofList inner)
  | .brace => .brace (String.ofList inner)
  | .template => .literal (String.ofList ('\x60' :: (inner ++ ['\x60'])))

/-- The number of characters of a string literal behind its opening quote. -/
def stringEnd? : List Char → Option Nat
  | [] => none
  | '\\' :: [] => none
  | '\\' :: _ :: cs => (stringEnd? cs).map (· + 2)
  | c :: cs =>
    if c == '"' then some 1
    else if c == '\n' || c == '\r' then none
    else (stringEnd? cs).map (· + 1)

/-- How many characters a block comment goes on for. -/
def commentEnd? : List Char → Option Nat
  | [] => none
  | '*' :: '/' :: _ => some 2
  | _ :: cs => (commentEnd? cs).map (· + 1)

/-- Whether a numeral goes on with a character: with a point if it is an integer so far, and with
    a sign behind the mark of an exponent. `done` holds its characters so far, the last one first. -/
def goesOn (done : List Char) (c : Char) : Bool :=
  isWordChar c || c == '.' && done.all Char.isDigit ||
    (c == '+' || c == '-') && done.head? == some 'e'

/-- How many characters a numeral goes on for. -/
def numeralTail (done : List Char) : List Char → Nat
  | [] => 0
  | c :: cs => if goesOn done c then numeralTail (c :: done) cs + 1 else 0

/-- Whether the characters are an exponent, or none at all. -/
def isExponent : List Char → Bool
  | [] => true
  | 'e' :: '+' :: cs => !cs.isEmpty && cs.all Char.isDigit
  | 'e' :: '-' :: cs => !cs.isEmpty && cs.all Char.isDigit
  | 'e' :: cs => !cs.isEmpty && cs.all Char.isDigit
  | _ => false

/-- A decimal numeral, with or without a fraction and an exponent. -/
def isNumeral (cs : List Char) : Bool :=
  let whole := cs.takeWhile Char.isDigit
  let rest := cs.dropWhile Char.isDigit
  (whole == ['0'] || whole.head?.any (· != '0')) &&
    isExponent (if rest.head? == some '.' then rest.tail.dropWhile Char.isDigit else rest)

/-- What a text begins with, and how many more characters than the first belong to it: a lexeme, or
    a blank or comment. -/
def next? (c : Char) (cs : List Char) : Option (Option Lexeme × Nat) :=
  if c == ' ' then some (none, 0)
  else if c.isDigit then
    let more := numeralTail [c] cs
    let text := c :: cs.take more
    if isNumeral text then some (some (.numeral (String.ofList text)), more) else none
  else if isWordChar c then
    let more := cs.takeWhile isWordChar
    some (some (.word (String.ofList (c :: more))), more.length)
  else if c == '"' then
    (stringEnd? cs).map fun n => (some (.literal (String.ofList (c :: cs.take n))), n)
  else if c == '/' && cs.head? == some '*' then (commentEnd? cs.tail).map fun n => (none, n + 1)
  else if c == '/' && cs.head? == some '/' || isCloser c then none
  else
    match Bracket.opened? c with
    | some b => (extent 0 [b] cs).map fun n => (some (.enclosed b (cs.take (n - 1))), n)
    | none => (mark? (c :: cs)).map fun m => (some (.mark m), m.length - 1)

/-! ## What goes on -/

section Ends

variable {cs : List Char} {n : Nat}

theorem stringEnd?_append (h : stringEnd? cs = some n) (rest : List Char) :
    stringEnd? (cs ++ rest) = some n ∧ stringTail '"' (cs ++ rest) = n := by
  fun_induction stringEnd? cs generalizing n with
  | case1 => cases h
  | case2 => cases h
  | case3 d cs ih =>
    obtain ⟨k, hk, rfl⟩ := Option.map_eq_some_iff.mp h
    obtain ⟨hend, htail⟩ := ih hk
    simp [stringEnd?, stringTail, hend, htail]
  | case4 c cs hone htwo hquote =>
    cases h
    rw [cons_append, Layout.stringTail_cons (Layout.ne_backslash hone htwo), stringEnd?,
      if_pos hquote, if_pos hquote]
    · exact ⟨rfl, rfl⟩
    all_goals
      intros
      exact Layout.ne_backslash hone htwo ‹_›
  | case5 => cases h
  | case6 c cs hone htwo hquote hline ih =>
    obtain ⟨k, hk, rfl⟩ := Option.map_eq_some_iff.mp h
    obtain ⟨hend, htail⟩ := ih hk
    rw [cons_append, Layout.stringTail_cons (Layout.ne_backslash hone htwo), stringEnd?,
      if_neg hquote, if_neg hline, if_neg hquote, hend, htail]
    · exact ⟨rfl, rfl⟩
    all_goals
      intros
      exact Layout.ne_backslash hone htwo ‹_›

theorem commentEnd?_append (h : commentEnd? cs = some n) (rest : List Char) :
    commentEnd? (cs ++ rest) = some n ∧ commentTail (cs ++ rest) = n := by
  fun_induction commentEnd? cs generalizing n with
  | case1 => cases h
  | case2 cs =>
    cases h
    exact ⟨rfl, rfl⟩
  | case3 c cs hno ih =>
    obtain ⟨k, hk, rfl⟩ := Option.map_eq_some_iff.mp h
    obtain ⟨hend, htail⟩ := ih hk
    have hgoes : ∀ ds, c = '*' → cs ++ rest = '/' :: ds → False := by
      intro ds hc hds
      cases cs with
      | nil => cases hk
      | cons d cs =>
        cases hds
        exact hno cs hc rfl
    rw [cons_append, commentEnd?, commentTail, hend, htail]
    · exact ⟨rfl, rfl⟩
    · exact hgoes
    · exact hgoes

theorem numeralTail_le (done cs : List Char) : numeralTail done cs ≤ cs.length := by
  induction cs generalizing done with
  | nil => exact Nat.le_refl 0
  | cons c cs ih =>
    rw [numeralTail]
    split
    · exact Nat.succ_le_succ (ih _)
    · exact Nat.zero_le _

theorem numeralTail_append {done rest : List Char}
    (h : numeralTail done cs = cs.length → ∀ d ∈ rest.head?, goesOn (cs.reverse ++ done) d = false) :
    numeralTail done (cs ++ rest) = numeralTail done cs := by
  induction cs generalizing done with
  | nil =>
    cases rest with
    | nil => rfl
    | cons d ds =>
      have hd := h rfl d rfl
      rw [List.reverse_nil, List.nil_append] at hd
      rw [List.nil_append, numeralTail, numeralTail, hd]
      rfl
  | cons c cs ih =>
    rw [cons_append, numeralTail, numeralTail]
    split
    · next hc =>
      rw [ih fun hall d hd => ?_]
      rw [numeralTail, if_pos hc, hall, List.reverse_cons, append_assoc] at h
      exact h rfl d hd
    · rfl

end Ends

/-! ## What a text begins with -/

/-- Whether a mark can begin with the character. -/
def isMarkStart (c : Char) : Bool :=
  !(c == ' ' || c.isDigit || isWordChar c || c == '"' || isCloser c || (Bracket.opened? c).isSome)

/-- With this character, in front of these, a lexeme begins or a blank stands, and so many more
    characters belong to it. -/
inductive Begins (c : Char) (cs : List Char) : Option Lexeme → Nat → Prop where
  | blank : c = ' ' → Begins c cs none 0
  | numeral : c.isDigit = true → isNumeral (c :: cs.take (numeralTail [c] cs)) = true →
      Begins c cs (some (.numeral (String.ofList (c :: cs.take (numeralTail [c] cs)))))
        (numeralTail [c] cs)
  | word : c.isDigit = false → isWordChar c = true →
      Begins c cs (some (.word (String.ofList (c :: cs.takeWhile isWordChar))))
        (cs.takeWhile isWordChar).length
  | string {n : Nat} : c = '"' → stringEnd? cs = some n →
      Begins c cs (some (.literal (String.ofList (c :: cs.take n)))) n
  | comment {n : Nat} : c = '/' → cs.head? = some '*' → commentEnd? cs.tail = some n →
      Begins c cs none (n + 1)
  | bracket {b : Bracket} {n : Nat} : Bracket.opened? c = some b → extent 0 [b] cs = some n →
      Begins c cs (some (.enclosed b (cs.take (n - 1)))) n
  | mark {m : String} : isMarkStart c = true →
      (c = '/' → cs.head? ≠ some '/' ∧ cs.head? ≠ some '*') → mark? (c :: cs) = some m →
      Begins c cs (some (.mark m)) (m.length - 1)

theorem Bracket.opened?_cases {c : Char} {b : Bracket} (h : Bracket.opened? c = some b) :
    c = '(' ∧ b = .round ∨ c = '[' ∧ b = .square ∨ c = '\x7b' ∧ b = .brace ∨
      c = '\x60' ∧ b = .template := by
  unfold Bracket.opened? at h
  split at h
  · next hc => exact .inl ⟨beq_iff_eq.mp hc, (Option.some.inj h).symm⟩
  split at h
  · next hc => exact .inr (.inl ⟨beq_iff_eq.mp hc, (Option.some.inj h).symm⟩)
  split at h
  · next hc => exact .inr (.inr (.inl ⟨beq_iff_eq.mp hc, (Option.some.inj h).symm⟩))
  split at h
  · next hc =>
    refine .inr (.inr (.inr ⟨?_, (Option.some.inj h).symm⟩))
    rw [← Char.ofNat_toNat c, beq_iff_eq.mp hc]
  · cases h

section Begins

variable {c : Char} {cs : List Char} {l : Option Lexeme} {w : Nat}

theorem ne_blank_of_isWordChar (h : isWordChar c = true) : c ≠ ' ' := by
  rintro rfl
  exact absurd h (by decide)

theorem begins_of_next? (h : next? c cs = some (l, w)) : Begins c cs l w := by
  unfold next? at h
  split at h
  · next hblank =>
    cases h
    exact .blank (beq_iff_eq.mp hblank)
  next hblank =>
  split at h
  · next hdigit =>
    dsimp only at h
    split at h
    · next hnumeral =>
      cases h
      exact .numeral hdigit hnumeral
    · cases h
  next hdigit =>
  split at h
  · next hword =>
    cases h
    exact .word (Bool.eq_false_iff.mpr hdigit) hword
  next hword =>
  split at h
  · next hquote =>
    obtain ⟨n, hn, heq⟩ := Option.map_eq_some_iff.mp h
    cases heq
    exact .string (beq_iff_eq.mp hquote) hn
  next hquote =>
  split at h
  · next hcomment =>
    obtain ⟨hc, hhead⟩ := Bool.and_eq_true_iff.mp hcomment
    obtain ⟨n, hn, heq⟩ := Option.map_eq_some_iff.mp h
    cases heq
    exact .comment (beq_iff_eq.mp hc) (beq_iff_eq.mp hhead) hn
  next hcomment =>
  split at h
  · cases h
  next hline =>
  split at h
  · next b hopen =>
    obtain ⟨n, hn, heq⟩ := Option.map_eq_some_iff.mp h
    cases heq
    exact .bracket hopen hn
  · next hopen =>
    obtain ⟨m, hm, heq⟩ := Option.map_eq_some_iff.mp h
    cases heq
    refine .mark ?_ ?_ hm
    · simp_all [isMarkStart]
    · simp_all

theorem Begins.next?_eq (h : Begins c cs l w) : next? c cs = some (l, w) := by
  cases h with
  | blank hc => rw [next?, if_pos (beq_iff_eq.mpr hc)]
  | numeral hdigit hnumeral =>
    have hblank := ne_blank_of_isWordChar (isWordChar_of_isDigit hdigit)
    rw [next?, if_neg (by simpa using hblank), if_pos hdigit]
    rw [if_pos hnumeral]
  | word hdigit hword =>
    have hblank := ne_blank_of_isWordChar hword
    rw [next?, if_neg (by simpa using hblank), if_neg (by simp [hdigit]), if_pos hword]
  | string hc hn =>
    subst hc
    rw [next?, if_neg (by decide), if_neg (by decide), if_neg (by decide), if_pos (by decide), hn]
    rfl
  | comment hc hhead hn =>
    subst hc
    rw [next?, if_neg (by decide), if_neg (by decide), if_neg (by decide), if_neg (by decide),
      if_pos (by simp [hhead]), hn]
    rfl
  | bracket hopen hn =>
    obtain ⟨rfl, rfl⟩ | ⟨rfl, rfl⟩ | ⟨rfl, rfl⟩ | ⟨rfl, rfl⟩ := Bracket.opened?_cases hopen
    all_goals
      exact congrArg (Option.map _) hn
  | mark hstart hslash hm =>
    simp only [isMarkStart, Bool.not_eq_true', Bool.or_eq_false_iff, Option.isSome_eq_false_iff,
      Option.isNone_iff_eq_none] at hstart
    obtain ⟨⟨⟨⟨⟨hblank, hdigit⟩, hword⟩, hquote⟩, hcloser⟩, hopen⟩ := hstart
    have hcomment : ¬ (c == '/' && cs.head? == some '*') = true := by
      simpa using fun hc => (hslash hc).2
    have hline : ¬ (c == '/' && cs.head? == some '/' || isCloser c) = true := by
      simpa [hcloser] using fun hc => (hslash hc).1
    rw [next?, if_neg (by simp [hblank]), if_neg (by simp [hdigit]), if_neg (by simp [hword]),
      if_neg (by simp [hquote]), if_neg hcomment, if_neg hline, hopen]
    exact congrArg (Option.map _) hm

end Begins

/-- The lexemes of a text; `skip` characters belong to what was found before them. -/
def lexemesFrom : (skip : Nat) → List Char → Option (List Lexeme)
  | 0, [] => some []
  | _ + 1, [] => none
  | skip + 1, _ :: cs => lexemesFrom skip cs
  | 0, c :: cs => (next? c cs).bind fun r => (lexemesFrom r.2 cs).map (r.1.toList ++ ·)

/-- The lexemes of a text. -/
abbrev lexemes (cs : List Char) : Option (List Lexeme) := lexemesFrom 0 cs

example : lexemes "(x ** a + 1.5e-3) /* y */ >>> \"z\".w".toList = some [.round "x ** a + 1.5e-3",
    .mark ">>>", .literal "\"z\"", .mark ".", .word "w"] := by decide

/-! ## Texts that are put together -/

/-- Whether the lexeme ends before a character that directly follows it. -/
def Lexeme.endsBefore : Lexeme → Char → Bool
  | word _, c => !isWordChar c
  | numeral text, c => !goesOn text.toList.reverse c
  | mark _, _ => false
  | _, _ => true

def Lexeme.isMark : Lexeme → Bool
  | mark _ => true
  | _ => false

section Together

variable {c : Char} {cs : List Char} {x : Option Lexeme} {l : Lexeme} {w skip : Nat}
  {ls : List Lexeme} {rest : List Char}

theorem lexemesFrom_cons (h : Begins c cs x w) :
    lexemesFrom 0 (c :: cs) = (lexemesFrom w cs).map (x.toList ++ ·) := by
  rw [lexemesFrom, h.next?_eq, Option.bind_some]

theorem exists_begins (h : lexemes (c :: cs) = some ls) :
    ∃ x w ls', Begins c cs x w ∧ lexemesFrom w cs = some ls' ∧ ls = x.toList ++ ls' := by
  obtain ⟨⟨x, w⟩, hnext, h⟩ := Option.bind_eq_some_iff.mp h
  obtain ⟨ls', hls', rfl⟩ := Option.map_eq_some_iff.mp h
  exact ⟨x, w, ls', begins_of_next? hnext, hls', rfl⟩

theorem lexemesFrom_length (cs rest : List Char) :
    lexemesFrom cs.length (cs ++ rest) = lexemes rest := by
  induction cs with
  | nil => rfl
  | cons c cs ih => rw [cons_append, length_cons, lexemesFrom, ih]

theorem le_length_of_lexemesFrom (h : lexemesFrom skip cs = some ls) : skip ≤ cs.length := by
  induction cs generalizing skip with
  | nil =>
    cases skip with
    | zero => exact Nat.le_refl 0
    | succ skip => cases h
  | cons c cs ih =>
    cases skip with
    | zero => exact Nat.zero_le _
    | succ skip => exact Nat.succ_le_succ (ih h)

/-- What the text begins with is the same with more behind it, unless it reaches the end of the text
    and goes on there. A mark reaches further than its end: a longer one could be found. -/
theorem Begins.append (h : Begins c cs x w) (hle : w ≤ cs.length)
    (hend : w = cs.length → ∀ l ∈ x, ∀ d ∈ rest.head?, l.isMark = false → l.endsBefore d = true)
    (hmark : ∀ m, x = some (.mark m) →
      ∀ k ∈ marks, (c :: cs).isPrefixOf k.toList = true → k.toList = c :: cs) :
    Begins c (cs ++ rest) x w := by
  have htake {n : Nat} (hn : n ≤ cs.length) : (cs ++ rest).take n = cs.take n :=
    List.take_append_of_le_length hn
  cases h with
  | blank hc => exact .blank hc
  | numeral hdigit hnumeral =>
    have htail : numeralTail [c] (cs ++ rest) = numeralTail [c] cs := by
      apply numeralTail_append
      intro hall d hd
      have hnext := hend hall _ rfl d hd rfl
      rw [Lexeme.endsBefore, hall, List.take_length] at hnext
      simpa using hnext
    have hnew := @Begins.numeral c (cs ++ rest) hdigit
    rw [htail, htake hle] at hnew
    exact hnew hnumeral
  | word hdigit hword =>
    have htail : (cs ++ rest).takeWhile isWordChar = cs.takeWhile isWordChar := by
      rw [List.takeWhile_append]
      split
      · next hall =>
        have hnil : rest.takeWhile isWordChar = [] := by
          cases rest with
          | nil => rfl
          | cons d ds =>
            have hnext := hend hall _ rfl d rfl rfl
            simp only [Lexeme.endsBefore, Bool.not_eq_true'] at hnext
            simp [hnext]
        rw [hnil, append_nil]
        exact (List.IsPrefix.eq_of_length (List.takeWhile_prefix _) hall).symm
      · rfl
    have hnew := @Begins.word c (cs ++ rest) hdigit hword
    rwa [htail] at hnew
  | string hc hn =>
    have hnew := Begins.string hc (stringEnd?_append hn rest).1
    rwa [htake hle] at hnew
  | comment hc hhead hn =>
    obtain ⟨ds, rfl⟩ := List.head?_eq_some_iff.mp hhead
    exact .comment hc rfl (commentEnd?_append hn rest).1
  | @bracket b _ hopen hn =>
    have hmore := (extent_append hn (fun h => nomatch h) [] rest).2
    have hnew : Begins c (cs ++ rest) (some (.enclosed b ((cs ++ rest).take (w - 1)))) w := by
      refine .bracket hopen (hmore.trans ?_)
      rw [extent, Option.map_some, Nat.zero_add]
    rwa [htake (by omega)] at hnew
  | mark hstart hslash hm =>
    have hno := hmark _ rfl
    have hsame : mark? (c :: (cs ++ rest)) = mark? (c :: cs) := by
      refine List.find?_congr fun k hk => Bool.eq_iff_iff.mpr ?_
      rw [List.isPrefixOf_iff_prefix, List.isPrefixOf_iff_prefix, ← cons_append]
      refine ⟨fun h => ?_, fun h => h.trans (List.prefix_append ..)⟩
      rcases List.prefix_or_prefix_of_prefix h (List.prefix_append (c :: cs) rest) with h | h
      · exact h
      · have hwhole := hno k hk (List.isPrefixOf_iff_prefix.mpr h)
        exact hwhole ▸ List.prefix_rfl
    refine .mark hstart (fun hc => ?_) (hsame.trans hm)
    subst hc
    have hne : cs ≠ [] := by
      rintro rfl
      have hlong := hno "//" (by decide) (by decide)
      exact absurd hlong (by decide)
    rw [List.head?_append_of_ne_nil cs hne]
    exact hslash rfl

theorem not_prefix_of_mark (h : lexemes cs = some ls) (hlast : ls.getLast? = some l)
    (hmark : l.isMark = false) {k : String} (hk : k ∈ marks) (hstarts : cs.isPrefixOf k.toList = true) :
    k.toList = cs := by
  have hall : (marks.all fun k => (List.range k.length).all fun n =>
      (lexemes (k.toList.take n)).all fun ls => ls.getLast?.all Lexeme.isMark) = true := by
    decide
  have htake := List.prefix_iff_eq_take.mp (List.isPrefixOf_iff_prefix.mp hstarts)
  by_contra hne
  have hlt : cs.length < k.length := by
    have hle := (List.isPrefixOf_iff_prefix.mp hstarts).length_le
    rcases Nat.lt_or_eq_of_le hle with hlt | heq
    · exact hlt
    · exact absurd ((List.isPrefixOf_iff_prefix.mp hstarts).eq_of_length heq).symm hne
  have hmarks := List.all_eq_true.mp (List.all_eq_true.mp hall k hk) _ (List.mem_range.mpr hlt)
  rw [← htake, h] at hmarks
  simp [hlast, hmark] at hmarks

theorem lexemesFrom_nil_append (h : lexemesFrom skip cs = some []) (rest : List Char) :
    lexemesFrom skip (cs ++ rest) = lexemes rest := by
  induction cs generalizing skip with
  | nil =>
    cases skip with
    | zero => rfl
    | succ skip => cases h
  | cons c cs ih =>
    cases skip with
    | succ skip => exact ih h
    | zero =>
      obtain ⟨x, w, ls, hbegins, hrest, hls⟩ := exists_begins h
      obtain ⟨hx, rfl⟩ := List.append_eq_nil_iff.mp hls.symm
      obtain rfl : x = none := by simpa using hx
      have hmore : Begins c (cs ++ rest) none w :=
        hbegins.append (le_length_of_lexemesFrom hrest) (fun _ l hl => nomatch hl)
          (fun m hm => nomatch hm)
      rw [cons_append, lexemesFrom_cons hmore, ih hrest]
      simp

/-- Whatever follows, the text is cut in the same way up to its last lexeme. Either that lexeme ends
    before the text does, and then nothing depends on what follows, or it reaches the end. By
    induction on the text. -/
theorem lexemesFrom_split (h : lexemesFrom skip cs = some ls) (hlast : ls.getLast? = some l)
    (hmark : l.isMark = false) :
    (∀ rest, lexemesFrom skip (cs ++ rest) = (lexemes rest).map (ls ++ ·)) ∨
    ∃ ks c es, ls = ks ++ [l] ∧ Begins c es (some l) es.length ∧
      ∀ rest, lexemesFrom skip (cs ++ rest) = (lexemes (c :: (es ++ rest))).map (ks ++ ·) := by
  induction cs generalizing skip ls with
  | nil =>
    cases skip with
    | zero =>
      cases h
      cases hlast
    | succ skip => cases h
  | cons c cs ih =>
    cases skip with
    | succ skip => exact ih h hlast
    | zero =>
      obtain ⟨x, w, ls', hbegins, hrest, rfl⟩ := exists_begins h
      have hle := le_length_of_lexemesFrom hrest
      have hstarts : ∀ m, x = some (.mark m) →
          ∀ k ∈ marks, (c :: cs).isPrefixOf k.toList = true → k.toList = c :: cs :=
        fun _ _ k hk => not_prefix_of_mark h hlast hmark hk
      by_cases hw : w = cs.length
      · -- the rest of the text is empty, so the lexeme is the last one
        subst hw
        have hnil : ls' = [] := by
          have hall := lexemesFrom_length cs []
          rw [append_nil, hrest] at hall
          exact Option.some.inj hall
        subst hnil
        obtain rfl : x = some l := by
          cases x with
          | none => cases hlast
          | some y => simpa using hlast
        exact .inr ⟨[], c, cs, rfl, hbegins, fun rest => by simp⟩
      have hmore (rest : List Char) : Begins c (cs ++ rest) x w :=
        hbegins.append hle (fun h => absurd h hw) hstarts
      cases hls : ls' with
      | nil =>
        subst hls
        refine .inl fun rest => ?_
        rw [cons_append, lexemesFrom_cons (hmore rest), lexemesFrom_nil_append hrest, append_nil]
      | cons y ys =>
        have hlast' : ls'.getLast? = some l := by
          rw [List.getLast?_append_of_ne_nil _ (by simp [hls])] at hlast
          exact hlast
        rcases ih hrest hlast' with hrow | ⟨ks, d, es, hks, hend, hrow⟩
        · refine .inl fun rest => ?_
          rw [cons_append, lexemesFrom_cons (hmore rest), hrow, Option.map_map, ← hls]
          congr 1
          funext us
          exact (append_assoc x.toList ls' us).symm
        · refine .inr ⟨x.toList ++ ks, d, es, by rw [← hls, hks, append_assoc], hend,
            fun rest => ?_⟩
          rw [cons_append, lexemesFrom_cons (hmore rest), hrow, Option.map_map]
          congr 1
          funext us
          exact (append_assoc x.toList ks us).symm

theorem lexemes_append (h : lexemes cs = some ls) (hlast : ls.getLast? = some l)
    (hmark : l.isMark = false) (hend : ∀ d ∈ rest.head?, l.endsBefore d = true) :
    lexemes (cs ++ rest) = (lexemes rest).map (ls ++ ·) := by
  rcases lexemesFrom_split h hlast hmark with hrow | ⟨ks, c, es, rfl, hbegins, hrow⟩
  · exact hrow rest
  · have hmore : Begins c (es ++ rest) (some l) es.length := by
      refine hbegins.append (Nat.le_refl _) (fun _ l' hl' d hd _ => ?_) (fun m hm => ?_)
      · rw [← Option.some.inj hl']
        exact hend d hd
      · rw [Option.some.inj hm] at hmark
        cases hmark
    rw [lexemes, hrow, lexemes, lexemesFrom_cons hmore, lexemesFrom_length, Option.map_map]
    congr 1
    funext us
    simp

end Together

/-! ## Closed texts -/

section Closed

variable {b : Bracket} {outer : List Bracket} {c : Char} {cs : List Char} {x : Option Lexeme}
  {w skip : Nat} {ls : List Lexeme}

theorem extent_eq_skip (hb : b ≠ .template) (hplain : (cs.take w).all isPlain = true)
    (hle : w ≤ cs.length) (rest : List Char) :
    extent 0 (b :: outer) (cs ++ rest) = extent w (b :: outer) (cs ++ rest) := by
  have hlength : (cs.take w).length = w := List.length_take_of_le hle
  have hskip := extent_skip b outer (cs.take w) (cs.drop w ++ rest)
  have hclosed := (Closed.plain hplain).before b outer (cs.drop w ++ rest) hb
  rw [← append_assoc, List.take_append_drop] at hskip hclosed
  rw [hclosed, ← hskip, hlength]

theorem plain_numeralTail (done cs : List Char) :
    (cs.take (numeralTail done cs)).all isPlain = true := by
  induction cs generalizing done with
  | nil => rfl
  | cons c cs ih =>
    rw [numeralTail]
    split
    · next hc =>
      have hplain : isPlain c = true := by
        simp only [goesOn, Bool.or_eq_true, Bool.and_eq_true, beq_iff_eq] at hc
        rcases hc with (hc | ⟨rfl, -⟩) | ⟨rfl | rfl, -⟩
        · exact Layout.isPlain_of_isWordChar hc
        all_goals decide
      rw [List.take_succ_cons, List.all_cons, hplain, ih]
      rfl
    · rfl

theorem plain_mark {m : String} (hstart : isMarkStart c = true)
    (hslash : c = '/' → cs.head? ≠ some '/' ∧ cs.head? ≠ some '*') (hm : mark? (c :: cs) = some m) :
    (isPlain c = true ∨ c = '/') ∧ (cs.take (m.length - 1)).all isPlain = true := by
  have hall : (marks.all fun m => m.toList.head?.any fun c =>
      !isMarkStart c || (isPlain c || c == '/') &&
        (c == '/' && (m.toList.tail.head? == some '/' || m.toList.tail.head? == some '*') ||
          m.toList.tail.all isPlain)) = true := by
    decide
  have hmem := List.mem_of_find?_eq_some hm
  have hstarts : m.toList.isPrefixOf (c :: cs) = true := by
    have hfound := List.find?_some hm
    exact hfound
  obtain ⟨more, hmore⟩ := List.isPrefixOf_iff_prefix.mp hstarts
  have hthis := List.all_eq_true.mp hall m hmem
  match hchars : m.toList with
  | [] => simp [hchars] at hthis
  | d :: ds =>
    rw [hchars, cons_append] at hmore
    cases hmore
    have hlength : m.length - 1 = ds.length := by
      rw [← String.length_toList, hchars, length_cons, Nat.add_sub_cancel]
    simp only [hchars, List.head?_cons, Option.any_some, hstart, Bool.not_true, Bool.false_or,
      Bool.and_eq_true, Bool.or_eq_true, beq_iff_eq, List.tail_cons] at hthis
    refine ⟨hthis.1, ?_⟩
    rw [hlength, List.take_left]
    rcases hthis.2 with ⟨rfl, hhead⟩ | hplain
    · cases ds with
      | nil => simp at hhead
      | cons e ds =>
        obtain ⟨h1, h2⟩ := hslash rfl
        exact absurd hhead (by simp_all)
    · exact hplain

theorem extent_bracket_append {b' : Bracket} (hn : extent 0 [b'] cs = some w) (rest : List Char) :
    extent 0 (b' :: b :: outer) (cs ++ rest) = extent w (b :: outer) (cs ++ rest) := by
  obtain ⟨hle, hmore⟩ := extent_append hn (fun h => nomatch h) (b :: outer) rest
  have hskip := extent_skip b outer (cs.take w) (cs.drop w ++ rest)
  rw [← append_assoc, List.take_append_drop, List.length_take_of_le hle] at hskip
  rw [hskip]
  exact hmore

theorem Begins.extent_eq (h : Begins c cs x w) (hle : w ≤ cs.length) (hb : b ≠ .template)
    (hslash : ∀ m, x = some (.mark m) → cs ≠ []) (rest : List Char) :
    extent 0 (b :: outer) (c :: (cs ++ rest)) =
      (extent w (b :: outer) (cs ++ rest)).map (· + 1) := by
  cases h with
  | blank hc =>
    subst hc
    exact extent_plain hb (.inl (by decide))
  | numeral hdigit hnumeral =>
    rw [extent_plain hb (.inl (Layout.isPlain_of_isDigit hdigit)),
      extent_eq_skip hb (plain_numeralTail [c] cs) hle]
  | word hdigit hword =>
    have hplain : (cs.take (cs.takeWhile isWordChar).length).all isPlain = true := by
      rw [← List.prefix_iff_eq_take.mp (List.takeWhile_prefix isWordChar)]
      exact List.all_eq_true.mpr fun d hd =>
        Layout.isPlain_of_isWordChar (List.mem_takeWhile_imp hd)
    rw [extent_plain hb (.inl (Layout.isPlain_of_isWordChar hword)), extent_eq_skip hb hplain hle]
  | string hc hn =>
    subst hc
    apply extent_step
    rw [advance?, if_neg hb, if_pos (by decide), (stringEnd?_append hn rest).2]
  | comment hc hhead hn =>
    subst hc
    obtain ⟨ds, rfl⟩ := List.head?_eq_some_iff.mp hhead
    apply extent_step
    rw [List.tail_cons] at hn
    rw [advance?, if_neg hb, if_neg (by decide), if_neg (by simp), if_pos (by simp),
      cons_append, List.tail_cons, (commentEnd?_append hn rest).2, Nat.add_comm]
  | @bracket b' _ hopen hn =>
    have hstep : extent 0 (b :: outer) (c :: (cs ++ rest)) =
        (extent 0 (b' :: b :: outer) (cs ++ rest)).map (· + 1) := by
      obtain ⟨rfl, rfl⟩ | ⟨rfl, rfl⟩ | ⟨rfl, rfl⟩ | ⟨rfl, rfl⟩ := Bracket.opened?_cases hopen
      all_goals exact extent_code hb (by decide) (fun h => absurd h (by decide)) rfl
    rw [hstep, extent_bracket_append hn]
  | mark hstart hhead hm =>
    obtain ⟨hc, hplain⟩ := plain_mark hstart hhead hm
    have hfirst : isPlain c = true ∨ c = '\n' ∨
        c = '/' ∧ ∃ e, (cs ++ rest).head? = some e ∧ e ≠ '/' ∧ e ≠ '*' := by
      rcases hc with hc | rfl
      · exact .inl hc
      · obtain ⟨e, ds, rfl⟩ := List.exists_cons_of_ne_nil (hslash _ rfl)
        obtain ⟨h1, h2⟩ := hhead rfl
        exact .inr (.inr ⟨rfl, e, rfl, by simpa using h1, by simpa using h2⟩)
    rw [extent_plain hb hfirst, extent_eq_skip hb hplain hle]

theorem extent_of_lexemesFrom (h : lexemesFrom skip cs = some ls)
    (hlast : ∀ l ∈ ls.getLast?, l.isMark = false) (hb : b ≠ .template) (rest : List Char) :
    extent skip (b :: outer) (cs ++ rest) = (extent 0 (b :: outer) rest).map (· + cs.length) := by
  induction cs generalizing skip ls with
  | nil =>
    cases skip with
    | zero => simp
    | succ skip => cases h
  | cons c cs ih =>
    cases skip with
    | succ skip => rw [cons_append, extent, ih h hlast, map_add_add, length_cons]
    | zero =>
      obtain ⟨x, w, ls', hbegins, hrest, rfl⟩ := exists_begins h
      have hle := le_length_of_lexemesFrom hrest
      have hslash : ∀ m, x = some (.mark m) → cs ≠ [] := by
        rintro m rfl rfl
        obtain rfl : w = 0 := Nat.le_zero.mp hle
        cases hrest
        cases hlast (.mark m) rfl
      have hlast' : ∀ l ∈ ls'.getLast?, l.isMark = false := by
        intro l hl
        refine hlast l ?_
        rw [List.getLast?_append, hl]
        rfl
      rw [cons_append, hbegins.extent_eq hle hb hslash, ih hrest hlast', map_add_add, length_cons]

/-- A text that has lexemes closes what it opens. -/
theorem closed_of_lexemes (h : lexemes cs = some ls) (hlast : ∀ l ∈ ls.getLast?, l.isMark = false) :
    Closed cs :=
  ⟨fun _ _ rest hb => extent_of_lexemesFrom h hlast hb rest⟩

end Closed

/-! ## Lexemes in front of a text -/

section Front

variable {rest : List Char}

theorem lexemes_blank (rest : List Char) : lexemes (' ' :: rest) = lexemes rest := by
  rw [lexemes, lexemesFrom_cons (.blank rfl)]
  simp

theorem lexemes_word {w : String} (hname : isName w = true)
    (hrest : ∀ d ∈ rest.head?, isWordChar d = false) :
    lexemes (w.toList ++ rest) = (lexemes rest).map (.word w :: ·) := by
  obtain ⟨hne, hchars⟩ := isName_chars hname
  obtain ⟨c, cs, hcs⟩ := List.exists_cons_of_ne_nil hne
  have hdigit : c.isDigit = false := by
    cases hd : c.isDigit with
    | false => rfl
    | true => simp [isName, hcs, isWordStart_of_isDigit hd] at hname
  rw [hcs] at hchars ⊢
  have htake : (cs ++ rest).takeWhile isWordChar = cs := by
    rw [List.takeWhile_append_of_pos fun d hd => hchars d (List.mem_cons_of_mem _ hd)]
    cases rest with
    | nil => simp
    | cons d ds => simp [hrest d rfl]
  have hbegins := @Begins.word c (cs ++ rest) hdigit (hchars c List.mem_cons_self)
  rw [htake, ← hcs, String.ofList_toList] at hbegins
  rw [cons_append, lexemes, lexemesFrom_cons hbegins, lexemesFrom_length]
  rfl

/-- A mark that is neither a bracket nor the opening of a comment. -/
def isPunctuator (m : String) : Bool :=
  mark? m.toList == some m && m.toList.head?.any isMarkStart && m != "//" && m != "/*"

theorem lexemes_mark {m : String} (hm : isPunctuator m = true)
    (hrest : ∀ d ∈ rest.head?, prolonged m d = false) :
    lexemes (m.toList ++ rest) = (lexemes rest).map (.mark m :: ·) := by
  have hall : (marks.all fun m => m == "//" || m == "/*" || m.toList.head? != some '/' ||
      m.toList.tail.head?.all fun d => d != '/' && d != '*') = true := by decide
  simp only [isPunctuator, Bool.and_eq_true, beq_iff_eq, bne_iff_ne] at hm
  obtain ⟨⟨⟨hself, hhead⟩, hline⟩, hblock⟩ := hm
  have hmem : m ∈ marks := List.mem_of_find?_eq_some hself
  have hmore := mark?_append hself hrest
  match hcs : m.toList with
  | [] => simp [hcs] at hhead
  | c :: cs =>
    rw [hcs] at hmore hhead
    have hslash : c = '/' → (cs ++ rest).head? ≠ some '/' ∧ (cs ++ rest).head? ≠ some '*' := by
      rintro rfl
      cases cs with
      | nil =>
        obtain rfl : m = "/" := by rw [← String.toList_inj, hcs]; rfl
        constructor
        · intro hd
          exact absurd (hrest '/' hd) (by decide)
        · intro hd
          exact absurd (hrest '*' hd) (by decide)
      | cons d ds =>
        have hd := List.all_eq_true.mp hall m hmem
        simpa [hcs, hline, hblock] using hd
    have hlength : m.length - 1 = cs.length := by
      rw [← String.length_toList, hcs, length_cons, Nat.add_sub_cancel]
    have hbegins : Begins c (cs ++ rest) (some (.mark m)) (m.length - 1) :=
      .mark (by simpa using hhead) hslash hmore
    rw [cons_append, lexemes, lexemesFrom_cons hbegins, hlength, lexemesFrom_length]
    rfl

theorem lexemes_bracket {inner : List Char} (hclosed : Closed inner) {c d : Char}
    (hopen : closerOf? c = some d) (rest : List Char) :
    lexemes (c :: (inner ++ d :: rest)) =
      (lexemes rest).map (.enclosed (Bracket.of d) inner :: ·) := by
  have hopened : Bracket.opened? c = some (Bracket.of d) := by
    obtain ⟨rfl, rfl⟩ | ⟨rfl, rfl⟩ | ⟨rfl, rfl⟩ := Layout.closerOf?_cases hopen <;> rfl
  have hbegins := Begins.bracket hopened (extent_bracket hclosed hopen rest)
  have hskip := lexemesFrom_length (inner ++ [d]) rest
  rw [Nat.add_sub_cancel, List.take_left] at hbegins
  rw [List.length_append, List.length_singleton, append_assoc, List.singleton_append] at hskip
  rw [lexemes, lexemesFrom_cons hbegins, hskip]
  rfl

theorem Lexeme.endsBefore_of {l : Lexeme} (hl : l.isMark = false) {d : Char}
    (hd : isWordChar d = false) (hne : d ∉ ['.', '+', '-']) : l.endsBefore d = true := by
  simp only [List.mem_cons, List.not_mem_nil, or_false, not_or] at hne
  cases l with
  | word w => simp [endsBefore, hd]
  | numeral t => simp [endsBefore, goesOn, hd, hne]
  | mark m => cases hl
  | _ => rfl

end Front

end RustScript.Js
