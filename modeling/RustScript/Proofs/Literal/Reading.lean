/-
  Literals as JavaScript reads them.

  The body of a literal is read piece by piece (`readBody`). The value is a sequence of UTF-16 code
  units, since an escape can name half of a pair. Each character of a text is written as one piece
  that means the character.
-/
import RustScript.Json.Value
import RustScript.Proofs.Js.Grammar
import RustScript.Proofs.Layout.Neutral

namespace RustScript.Js

open Json (Units unitsOfChar units)
open Literal (escapeShared escapeStringChar escapeTemplateChar escapeStringChars escapeTemplateChars)

/-! ## The rules -/

/-- A character that ends a line of a program. -/
def isLineEnd (c : Char) : Bool := c == '\n' || c == '\r' || c.toNat == 0x2028 || c.toNat == 0x2029

/-- The code units of a code point, which may be half of a pair. -/
def unitsOfCode (code : Nat) : Units :=
  if code < 0x10000 then [code.toUInt16]
  else [(0xD800 + (code - 0x10000) / 0x400).toUInt16, (0xDC00 + (code - 0x10000) % 0x400).toUInt16]

/-- The number that hexadecimal digits spell; there has to be one. -/
def hexNumber? (digits : List Char) : Option Nat := do
  guard (!digits.isEmpty)
  let values ← digits.mapM hexDigit?
  return values.foldl (fun n d => 16 * n + d) 0

/-- The escapes with a letter. -/
def letterEscapes : List (Char × Char) :=
  [('b', '\x08'), ('t', '\t'), ('n', '\n'), ('v', '\x0b'), ('f', '\x0c'), ('r', '\r')]

/-- What stands behind a backslash: the code units meant, and the number of characters that spell
    them. The end of a line means nothing, and a character without a meaning of its own means
    itself. A digit is no escape, except for a zero with no digit behind it. -/
def escapeUnits? : List Char → Option (Units × Nat)
  | [] => none
  | c :: cs =>
    if c == 'x' then do
      guard (2 ≤ cs.length)
      return (unitsOfCode (← hexNumber? (cs.take 2)), 3)
    else if c == 'u' && cs.head? == some '\x7b' then do
      let digits := cs.tail.takeWhile (· != '\x7d')
      guard (digits.length < cs.tail.length)
      let code ← hexNumber? digits
      guard (code ≤ 0x10FFFF)
      return (unitsOfCode code, digits.length + 3)
    else if c == 'u' then do
      guard (4 ≤ cs.length)
      return (unitsOfCode (← hexNumber? (cs.take 4)), 5)
    else if c == '\r' && cs.head? == some '\n' then some ([], 2)
    else if isLineEnd c then some ([], 1)
    else if c == '0' && !cs.head?.any Char.isDigit then some ([0], 1)
    else if c.isDigit then none
    else some (unitsOfChar ((letterEscapes.lookup c).getD c), 1)

/-- What stands at the front of a literal's body. -/
inductive Piece where
  /-- Code units, and the number of characters that spell them, the first apart. -/
  | units (value : Units) (more : Nat)
  | close
  | slot
  deriving DecidableEq

/-- What stands at the front of the body of a literal between double quotes. -/
def stringPiece? (c : Char) (cs : List Char) : Option Piece :=
  if c == '"' then some .close
  else if c == '\\' then (escapeUnits? cs).map fun e => .units e.1 e.2
  else if c == '\n' || c == '\r' then none
  else some (.units (unitsOfChar c) 0)

/-- What stands at the front of the body of a template literal. Each way to end a line is read as a
    line feed. -/
def templatePiece? (c : Char) (cs : List Char) : Option Piece :=
  if c.toNat == 0x60 then some .close
  else if c == '$' && cs.head? == some '\x7b' then some .slot
  else if c == '\\' then (escapeUnits? cs).map fun e => .units e.1 e.2
  else if c == '\r' then some (.units (unitsOfChar '\n') (if cs.head? == some '\n' then 1 else 0))
  else some (.units (unitsOfChar c) 0)

/-- The value of a literal's body up to the first piece that is none of its characters, whether that
    piece opens a substitution, and what follows it. -/
def readBody (piece? : Char → List Char → Option Piece) : List Char →
    Option (Units × Bool × List Char)
  | [] => none
  | c :: cs =>
    match piece? c cs with
    | some (.units value more) => (readBody piece? (cs.drop more)).map fun r => (value ++ r.1, r.2)
    | some .close => some ([], false, cs)
    | some .slot => some ([], true, cs.tail)
    | none => none
termination_by cs => cs.length
decreasing_by
  simp only [List.length_drop, List.length_cons]
  omega

/-- The value of the literal between double quotes at the front of a text, and what follows it. -/
def readString? : List Char → Option (Units × List Char)
  | '"' :: cs => (readBody stringPiece? cs).map fun r => (r.1, r.2.2)
  | _ => none

/-- The first chunk of the template literal at the front of a text, whether a substitution follows
    it, and the rest of the text. -/
def readChunk? : List Char → Option (Units × Bool × List Char)
  | c :: cs => if c.toNat == 0x60 then readBody templatePiece? cs else none
  | [] => none

/-! ## Pieces that mean a character -/

section Pieces

variable {piece? : Char → List Char → Option Piece} {c d : Char} {cs ds rest : List Char}

/-- The characters are one piece of the body, with this value, when `rest` follows. -/
def IsPiece (piece? : Char → List Char → Option Piece) (value : Units) (cs rest : List Char) : Prop :=
  ∃ d ds, cs = d :: ds ∧ piece? d (ds ++ rest) = some (.units value ds.length)

theorem IsPiece.readBody {value : Units} (h : IsPiece piece? value cs rest) :
    readBody piece? (cs ++ rest) = (readBody piece? rest).map fun r => (value ++ r.1, r.2) := by
  obtain ⟨d, ds, rfl, hpiece⟩ := h
  rw [List.cons_append, Js.readBody, hpiece]
  dsimp only
  rw [List.drop_left]

/-- A backslash and characters that mean `c` behind it, or `c` itself, which then needs none. -/
def SpellsChar (cs : List Char) (c : Char) : Prop :=
  (∃ ds, cs = '\\' :: ds ∧ ∀ rest, escapeUnits? (ds ++ rest) = some (unitsOfChar c, ds.length)) ∨
  (cs = [c] ∧ c ≠ '\\' ∧ isLineEnd c = false)

theorem spellsChar_escapeShared (c : Char) : SpellsChar (escapeShared c) c := by
  obtain (rfl | rfl | rfl | rfl | rfl | rfl | rfl) | ⟨hself, hback, hend⟩ :=
    Literal.escapeShared_cases c
  all_goals try exact .inl ⟨_, rfl, fun _ => rfl⟩
  exact .inr ⟨hself, hback, by simpa [isLineEnd, and_assoc] using hend⟩

theorem stringPiece?_escape (c : Char) (rest : List Char) :
    IsPiece stringPiece? (unitsOfChar c) (escapeStringChar c) rest := by
  unfold escapeStringChar
  split
  · next h => rw [beq_iff_eq.mp h]; exact ⟨'\\', ['"'], rfl, rfl⟩
  next hquote =>
  rcases spellsChar_escapeShared c with ⟨ds, hds, hmeans⟩ | ⟨hself, hback, hend⟩
  · refine ⟨'\\', ds, hds, ?_⟩
    rw [stringPiece?, if_neg (by decide), if_pos (by decide), hmeans rest]
    rfl
  · refine ⟨c, [], hself, ?_⟩
    simp only [isLineEnd, Bool.or_eq_false_iff] at hend
    rw [stringPiece?, if_neg hquote, if_neg (by simpa using hback), if_neg (by simp [hend])]
    rfl

theorem templatePiece?_escape (c : Char) (rest : List Char)
    (hslot : c = '$' → rest.head? ≠ some '\x7b') :
    IsPiece templatePiece? (unitsOfChar c) (escapeTemplateChar c) rest := by
  unfold escapeTemplateChar
  split
  · next h =>
    rw [← Char.ofNat_toNat c, beq_iff_eq.mp h]
    exact ⟨'\\', [Char.ofNat 0x60], rfl, rfl⟩
  next htick =>
  rcases spellsChar_escapeShared c with ⟨ds, hds, hmeans⟩ | ⟨hself, hback, hend⟩
  · refine ⟨'\\', ds, hds, ?_⟩
    rw [templatePiece?, if_neg (by decide), if_neg (by simp), if_pos (by decide), hmeans rest]
    rfl
  · refine ⟨c, [], hself, ?_⟩
    have hopen : ¬ (c == '$' && ([] ++ rest).head? == some '\x7b') = true := by simpa using hslot
    simp only [isLineEnd, Bool.or_eq_false_iff] at hend
    rw [templatePiece?, if_neg htick, if_neg hopen, if_neg (by simpa using hback),
      if_neg (by simp [hend])]
    rfl

end Pieces

/-! ## Whole literals -/

theorem readBody_escapeString (cs rest : List Char) :
    readBody stringPiece? (escapeStringChars cs ++ '"' :: rest) =
      some (cs.flatMap unitsOfChar, false, rest) := by
  induction cs with
  | nil => rw [escapeStringChars, List.flatMap_nil, List.nil_append, readBody]; rfl
  | cons c cs ih =>
    rw [escapeStringChars, List.flatMap_cons, List.append_assoc,
      (stringPiece?_escape c _).readBody, ← escapeStringChars, ih, Option.map_some,
      List.flatMap_cons]

/-- A chunk opens no substitution, unless its last character and what follows do. -/
theorem readBody_chunk (cs rest : List Char)
    (hjoin : cs.getLast? = some '$' → rest.head? ≠ some '\x7b') :
    readBody templatePiece? (escapeTemplateChars cs ++ rest) =
      (readBody templatePiece? rest).map fun r => (cs.flatMap unitsOfChar ++ r.1, r.2) := by
  fun_induction escapeTemplateChars cs with
  | case1 => simp
  | case2 cs ih =>
    -- the backslash before the dollar sign keeps the two from opening a substitution
    have hdollar : IsPiece templatePiece? (unitsOfChar '$') ['\\', '$']
        ('\x7b' :: (escapeTemplateChars cs ++ rest)) :=
      ⟨'\\', ['$'], rfl, rfl⟩
    have hopen : IsPiece templatePiece? (unitsOfChar '\x7b') ['\x7b']
        (escapeTemplateChars cs ++ rest) :=
      ⟨'\x7b', [], rfl, rfl⟩
    have hrest := ih fun hlast => hjoin (by
      rw [List.getLast?_cons_cons, List.getLast?_cons, hlast]
      rfl)
    calc readBody templatePiece? _
        = (readBody templatePiece? ('\x7b' :: (escapeTemplateChars cs ++ rest))).map
            fun r => (unitsOfChar '$' ++ r.1, r.2) := hdollar.readBody
      _ = ((readBody templatePiece? (escapeTemplateChars cs ++ rest)).map
            fun r => (unitsOfChar '\x7b' ++ r.1, r.2)).map
            fun r => (unitsOfChar '$' ++ r.1, r.2) := congrArg _ hopen.readBody
      _ = (readBody templatePiece? rest).map
            fun r => (('$' :: '\x7b' :: cs).flatMap unitsOfChar ++ r.1, r.2) := by
        rw [hrest, Option.map_map, Option.map_map]
        simp [Function.comp_def]
  | case3 c cs hno ih =>
    have hpiece : IsPiece templatePiece? (unitsOfChar c) (escapeTemplateChar c)
        (escapeTemplateChars cs ++ rest) := by
      refine templatePiece?_escape c _ fun hc hhead => ?_
      have hhead' := Layout.head?_escapeTemplate hhead
      cases cs with
      | nil => exact hjoin (by rw [hc]; rfl) hhead'
      | cons d ds => exact hno ds hc (congrArg (· :: ds) (Option.some.inj hhead'))
    have hrest := ih fun hlast => hjoin (by
      rw [List.getLast?_cons, hlast]
      rfl)
    rw [List.append_assoc, hpiece.readBody, hrest, Option.map_map]
    simp [Function.comp_def]

theorem readBody_tick {tick : Char} (htick : tick.toNat = 0x60) (rest : List Char) :
    readBody templatePiece? (tick :: rest) = some ([], false, rest) := by
  rw [readBody, templatePiece?, if_pos (beq_iff_eq.mpr htick)]

theorem readBody_escapeTemplate {tick : Char} (htick : tick.toNat = 0x60) (cs rest : List Char) :
    readBody templatePiece? (escapeTemplateChars cs ++ tick :: rest) =
      some (cs.flatMap unitsOfChar, false, rest) := by
  have hbrace : (tick :: rest).head? ≠ some '\x7b' := by
    rintro hhead
    rw [Option.some.inj hhead] at htick
    exact absurd htick (by decide)
  rw [readBody_chunk cs _ fun _ => hbrace, readBody_tick htick]
  simp

theorem isLineEnd_escapeShared (c : Char) : (escapeShared c).any isLineEnd = false := by
  unfold escapeShared
  repeat' split
  all_goals first
    | decide
    | simp_all [isLineEnd]

theorem isLineEnd_escapeString (cs : List Char) : (escapeStringChars cs).any isLineEnd = false := by
  rw [escapeStringChars, List.any_flatMap, List.any_eq_false]
  intro c _
  unfold escapeStringChar
  split
  · decide
  · simp [isLineEnd_escapeShared]

theorem isLineEnd_escapeTemplate (cs : List Char) :
    (escapeTemplateChars cs).any isLineEnd = false := by
  fun_induction escapeTemplateChars cs with
  | case1 => rfl
  | case2 cs ih =>
    rw [List.any_cons, List.any_cons, List.any_cons, ih]
    decide
  | case3 c cs _ ih =>
    rw [List.any_append, ih, Bool.or_false]
    unfold escapeTemplateChar
    split
    · next h =>
      rw [← Char.ofNat_toNat c, beq_iff_eq.mp h]
      decide
    · exact isLineEnd_escapeShared c

/-- Whatever stands behind it, a text between double quotes is read as a literal that ends at its
    last quote and has the text for its value. Between backticks it is read as a literal of one
    chunk, without a substitution. Neither text has a line end. -/
theorem literals_are_read_back (s : String) (rest : List Char) :
    let quoted := ("\"" ++ Literal.escapeString s ++ "\"").toList
    let template := ("`" ++ Literal.escapeTemplate s ++ "`").toList
    readString? (quoted ++ rest) = some (units s, rest) ∧
    readChunk? (template ++ rest) = some (units s, false, rest) ∧
    quoted.any isLineEnd = false ∧ template.any isLineEnd = false := by
  intro quoted template
  have hquoted : quoted = '"' :: (escapeStringChars s.toList ++ ['"']) := by
    simp [quoted, Literal.toList_escapeString]
  have htemplate : template =
      Char.ofNat 0x60 :: (escapeTemplateChars s.toList ++ [Char.ofNat 0x60]) := by
    simp [template, Literal.toList_escapeTemplate]
  rw [hquoted, htemplate]
  refine ⟨?_, ?_, ?_, ?_⟩
  · rw [List.cons_append, List.append_assoc, readString?, List.singleton_append,
      readBody_escapeString]
    rfl
  · rw [List.cons_append, List.append_assoc, readChunk?, if_pos (by decide),
      List.singleton_append, readBody_escapeTemplate (by decide)]
    rfl
  · simp [isLineEnd_escapeString, isLineEnd]
  · simp [isLineEnd_escapeTemplate, isLineEnd]

end RustScript.Js
