/-
  Literals of the source language as they may be spelled.

  A line may be broken behind a backslash; the next line begins with its first character that is no
  blank. Each spelling of a character takes the decoding one step on, whatever follows it
  (`SpellsChar.decodeFrom`).
-/
import RustScript.Literal.Decode
import RustScript.Proofs.Literal.Reading
import RustScript.Proofs.Text.Trim

namespace RustScript.Literal

/-! ## Spellings -/

/-- The escapes with one character, and what they stand for. -/
def letterEscapes : List (Char × Char) :=
  [('n', '\n'), ('t', '\t'), ('r', '\r'), ('0', '\x00'), ('\\', '\\'), ('"', '"'), ('\'', '\'')]

/-- The ways to write a character between double quotes. -/
inductive SpellsChar : List Char → Char → Prop
  | raw {c : Char} (hquote : c ≠ '"') (hback : c ≠ '\\') : SpellsChar [c] c
  | letter {e c : Char} (h : (e, c) ∈ letterEscapes) : SpellsChar ['\\', e] c
  | byte {d₁ d₂ c : Char} (h : Js.hexNumber? [d₁, d₂] = some c.toNat) :
    SpellsChar ['\\', 'x', d₁, d₂] c
  | code {ds : List Char} {c : Char} (h : Js.hexNumber? ds = some c.toNat) :
    SpellsChar ('\\' :: 'u' :: '\x7b' :: (ds ++ ['\x7d'])) c

/-- A blank that can stand at the beginning of a line. -/
def isIndent (c : Char) : Bool := [' ', '\t', '\n', '\r'].contains c

/-- The ways to write a text between double quotes. A line that is broken goes on with something
    else than a blank. -/
inductive Spells : List Char → List Char → Prop
  | nil : Spells [] []
  | char {spelling cs s : List Char} {c : Char} (hc : SpellsChar spelling c) (h : Spells cs s) :
    Spells (spelling ++ cs) (c :: s)
  | broken {indent cs s : List Char} (hindent : indent.all isIndent = true)
      (hcs : cs.head?.any isIndent = false) (h : Spells cs s) :
    Spells ('\\' :: '\n' :: (indent ++ cs)) s

/-! ## Numbers in base sixteen -/

/-- Whether a hexadecimal digit has its value for the reading of numbers, and is none of the other
    characters that count there. -/
def isCommonDigit (c : Char) : Bool :=
  (Js.hexDigit? c).all fun d => Reading.hexadecimal? c == some d && !Reading.isPad c &&
    !List.contains ['-', '+', '_', 'x', 'X', '\x7d'] c

theorem isCommonDigit_ascii : ∀ n < 128, isCommonDigit (Char.ofNat n) = true := by decide +kernel

theorem toNat_lt_of_hexDigit? {c : Char} {d : Nat} (h : Js.hexDigit? c = some d) :
    c.toNat < 128 := by
  have hle {hi : Char} (hhi : hi.toNat < 128) {b : Bool} (hc : (b && decide (c ≤ hi)) = true) :
      c.toNat < 128 :=
    Nat.lt_of_le_of_lt (decide_eq_true_iff.mp (Bool.and_eq_true_iff.mp hc).2) hhi
  unfold Js.hexDigit? at h
  split at h
  · next hc => exact hle (by decide) hc
  split at h
  · next hc => exact hle (by decide) hc
  split at h
  · next hc => exact hle (by decide) hc
  · cases h

section Digits

variable {c : Char} {ds : List Char} {d n : Nat} {values : List Nat}

theorem hexadecimal?_of_hexDigit? (h : Js.hexDigit? c = some d) :
    Reading.hexadecimal? c = some d ∧ Reading.isPad c = false ∧
      c ∉ ['-', '+', '_', 'x', 'X', '\x7d'] := by
  have hcommon := isCommonDigit_ascii _ (toNat_lt_of_hexDigit? h)
  rw [Char.ofNat_toNat, isCommonDigit, h, Option.all_some, Bool.and_eq_true, Bool.and_eq_true,
    beq_iff_eq, Bool.not_eq_true'] at hcommon
  exact ⟨hcommon.1.1, hcommon.1.2, by simpa using hcommon.2⟩

section

variable (h : ds.mapM Js.hexDigit? = some values)

include h

theorem hexDigit?_of_mem (hc : c ∈ ds) : ∃ d, Js.hexDigit? c = some d := by
  induction ds generalizing values with
  | nil => cases hc
  | cons x ds ih =>
    rw [List.mapM_cons] at h
    obtain ⟨d, hd, h⟩ := Option.bind_eq_some_iff.mp h
    obtain ⟨rest, hrest, -⟩ := Option.bind_eq_some_iff.mp h
    rcases List.mem_cons.mp hc with rfl | hc
    · exact ⟨d, hd⟩
    · exact ih hrest hc

theorem not_mem_of_mapM (hc : c ∈ ds) : c ∉ ['-', '+', '_', 'x', 'X', '\x7d'] := by
  obtain ⟨d, hd⟩ := hexDigit?_of_mem h hc
  exact (hexadecimal?_of_hexDigit? hd).2.2

theorem digitRun_of_mapM : Reading.digitRun Reading.hexadecimal? ds = (values, []) := by
  induction ds generalizing values with
  | nil =>
    cases h
    rfl
  | cons c ds ih =>
    have hmark := not_mem_of_mapM (c := '_') h
    rw [List.mapM_cons] at h
    obtain ⟨d, hd, h⟩ := Option.bind_eq_some_iff.mp h
    obtain ⟨rest, hrest, h⟩ := Option.bind_eq_some_iff.mp h
    cases h
    unfold Reading.digitRun
    rw [(hexadecimal?_of_hexDigit? hd).1]
    split
    · next heq => cases heq
    · next heq =>
      cases heq
      split
      · exact absurd (by simp) (hmark (by simp))
      · rw [ih hrest]

theorem unpad_of_mapM : Reading.unpad ds = ds := by
  have hpad : ∀ c ∈ ds, Reading.isPad c = false := fun c hc => by
    obtain ⟨d, hd⟩ := hexDigit?_of_mem h hc
    exact (hexadecimal?_of_hexDigit? hd).2.1
  have hkeep (cs : List Char) (hcs : ∀ c ∈ cs, Reading.isPad c = false) :
      cs.dropWhile Reading.isPad = cs := by
    cases cs with
    | nil => rfl
    | cons c cs => exact List.dropWhile_cons_of_neg (by simp [hcs c List.mem_cons_self])
  rw [Reading.unpad, hkeep ds hpad, hkeep ds.reverse fun c hc => hpad c (List.mem_reverse.mp hc),
    List.reverse_reverse]

theorem sign_of_mapM : Reading.sign ds = (false, ds) := by
  unfold Reading.sign
  split
  · exact absurd (by simp) (not_mem_of_mapM h List.mem_cons_self)
  · exact absurd (by simp) (not_mem_of_mapM h List.mem_cons_self)
  · rfl

theorem numeral?_of_mapM (hne : ds ≠ []) :
    Reading.numeral? Reading.hexadecimal? 16 ds =
      some (values.foldl (fun n d => 16 * n + d) 0) := by
  rw [Reading.numeral?, digitRun_of_mapM h]
  cases values with
  | nil =>
    obtain ⟨c, ds, rfl⟩ := List.exists_cons_of_ne_nil hne
    rw [List.mapM_cons] at h
    obtain ⟨d, -, h⟩ := Option.bind_eq_some_iff.mp h
    obtain ⟨rest, -, h⟩ := Option.bind_eq_some_iff.mp h
    cases h
  | cons v values => simp [Reading.ofDigits, Nat.mul_comm]

end

/-- Digits alone are read as the number that they spell: nothing is taken for padding, a sign or the
    mark of the base. -/
theorem integer?_of_hexNumber? (h : Js.hexNumber? ds = some n) :
    Reading.integer? ds = some (n : Int) := by
  have hne : ds ≠ [] := by
    rintro rfl
    cases h
  obtain ⟨-, -, h⟩ := Option.bind_eq_some_iff.mp h
  obtain ⟨values, hvalues, h⟩ := Option.bind_eq_some_iff.mp h
  cases h
  unfold Reading.integer?
  rw [unpad_of_mapM hvalues, sign_of_mapM hvalues]
  simp only [Bool.false_eq_true, if_false]
  split
  · exact absurd (by simp) (not_mem_of_mapM (c := '_') hvalues (by simp))
  · next x rest _ _ =>
    have hx := not_mem_of_mapM (c := x) hvalues (by simp)
    rw [if_neg (by simp_all), numeral?_of_mapM hvalues hne]
    rfl
  · rw [numeral?_of_mapM hvalues hne]
    rfl

theorem codePoint_of_hexNumber? (h : Js.hexNumber? ds = some c.toNat) : codePoint ds = .ok c := by
  rw [codePoint, integer?_of_hexNumber? h]
  have hvalid : c.toNat.isValidChar := c.valid
  dsimp only [Int.ofNat_eq_natCast]
  rw [if_pos hvalid, Char.ofNat_toNat]

end Digits

/-! ## Decoding -/

section Decoding

variable {cs s : List Char} {c : Char}

theorem decodeFrom_skip (passed : List Char) :
    decodeFrom passed.length (passed ++ cs) = decodeFrom 0 cs := by
  induction passed with
  | nil => rfl
  | cons d passed ih => exact ih

theorem decodeFrom_raw (hback : c ≠ '\\') :
    decodeFrom 0 (c :: cs) = (decodeFrom 0 cs).map (c :: ·) := by
  rw [decodeFrom.eq_def]
  dsimp only
  rw [if_pos (by simpa using hback)]
  cases decodeFrom 0 cs <;> rfl

theorem decodeFrom_letter {e : Char} (h : escapeLetter? e = some c) :
    decodeFrom 0 ('\\' :: e :: cs) = (decodeFrom 0 cs).map (c :: ·) := by
  have hskip : decodeFrom 1 (e :: cs) = decodeFrom 0 cs := decodeFrom_skip [e]
  rw [decodeFrom.eq_def]
  dsimp only
  rw [if_neg (by decide), h, hskip]
  cases decodeFrom 0 cs <;> rfl

theorem decodeFrom_byte {d₁ d₂ : Char} (h : Js.hexNumber? [d₁, d₂] = some c.toNat) :
    decodeFrom 0 ('\\' :: 'x' :: d₁ :: d₂ :: cs) = (decodeFrom 0 cs).map (c :: ·) := by
  have hskip : decodeFrom 3 ('x' :: d₁ :: d₂ :: cs) = decodeFrom 0 cs :=
    decodeFrom_skip ['x', d₁, d₂]
  have hcode : codePoint ((d₁ :: d₂ :: cs).take 2) = .ok c := codePoint_of_hexNumber? h
  rw [decodeFrom.eq_def]
  dsimp only
  rw [if_neg (by decide), show escapeLetter? 'x' = none from rfl]
  rw [if_pos (by decide), hcode, hskip]
  cases decodeFrom 0 cs <;> rfl

theorem decodeFrom_code {ds : List Char} (h : Js.hexNumber? ds = some c.toNat) :
    decodeFrom 0 ('\\' :: 'u' :: '\x7b' :: (ds ++ '\x7d' :: cs)) =
      (decodeFrom 0 cs).map (c :: ·) := by
  have hclose : '\x7d' ∉ '\x7b' :: ds := by
    obtain ⟨-, -, hvalues⟩ := Option.bind_eq_some_iff.mp h
    obtain ⟨values, hvalues, -⟩ := Option.bind_eq_some_iff.mp hvalues
    rintro (_ | ⟨_, hmem⟩)
    exact not_mem_of_mapM hvalues hmem (by simp)
  have hskip : decodeFrom (('\x7b' :: ds).length + 2) ('u' :: ('\x7b' :: ds ++ '\x7d' :: cs)) =
      decodeFrom 0 cs := by
    rw [← decodeFrom_skip ('u' :: '\x7b' :: (ds ++ ['\x7d']))]
    simp
  rw [decodeFrom.eq_def]
  dsimp only
  rw [if_neg (by decide), show escapeLetter? 'u' = none from rfl]
  rw [if_neg (by decide), if_pos (by decide), if_pos (by simp), ← List.cons_append,
    Text.takeWhile_ne_append hclose, hskip, List.drop_one, List.tail_cons,
    codePoint_of_hexNumber? h]
  cases decodeFrom 0 cs <;> rfl

theorem SpellsChar.decodeFrom {spelling : List Char} (h : SpellsChar spelling c) (cs : List Char) :
    Literal.decodeFrom 0 (spelling ++ cs) = (Literal.decodeFrom 0 cs).map (c :: ·) := by
  cases h with
  | raw _ hback => exact decodeFrom_raw hback
  | @letter e c h =>
    refine decodeFrom_letter ?_
    simp only [letterEscapes, List.mem_cons, Prod.mk.injEq, List.not_mem_nil, or_false] at h
    rcases h with ⟨rfl, rfl⟩ | ⟨rfl, rfl⟩ | ⟨rfl, rfl⟩ | ⟨rfl, rfl⟩ | ⟨rfl, rfl⟩ | ⟨rfl, rfl⟩ |
      ⟨rfl, rfl⟩ <;> rfl
  | byte h => exact decodeFrom_byte h
  | code h =>
    rw [List.cons_append, List.cons_append, List.cons_append, List.append_assoc]
    exact decodeFrom_code h

theorem isContinuationBlank_eq (c : Char) : isContinuationBlank c = isIndent c := by
  rw [Bool.eq_iff_iff]
  simp [isContinuationBlank, isIndent, or_assoc]

theorem decodeFrom_broken {indent : List Char} (hindent : indent.all isIndent = true)
    (hcs : cs.head?.any isIndent = false) :
    decodeFrom 0 ('\\' :: '\n' :: (indent ++ cs)) = decodeFrom 0 cs := by
  have hblanks : (indent ++ cs).takeWhile isContinuationBlank = indent := by
    rw [funext isContinuationBlank_eq, List.takeWhile_append_of_pos (List.all_eq_true.mp hindent)]
    cases cs with
    | nil => simp
    | cons c cs => rw [List.takeWhile_cons_of_neg (by simpa using hcs), List.append_nil]
  rw [decodeFrom.eq_def]
  dsimp only
  rw [if_neg (by decide), show escapeLetter? '\n' = none from rfl]
  rw [if_neg (by decide), if_neg (by decide), if_pos (by decide), hblanks, Nat.add_comm]
  exact decodeFrom_skip ('\n' :: indent)

theorem Spells.decodeFrom (h : Spells cs s) : Literal.decodeFrom 0 cs = .ok s := by
  induction h with
  | nil => rfl
  | char hc _ ih =>
    rw [hc.decodeFrom, ih]
    rfl
  | broken hindent hcs _ ih => rw [decodeFrom_broken hindent hcs, ih]

theorem spellsChar_escapeStringChar (h : c.toNat ≠ 0x2028 ∧ c.toNat ≠ 0x2029) :
    SpellsChar (escapeStringChar c) c := by
  unfold escapeStringChar
  split
  · next hc => rw [beq_iff_eq.mp hc]; exact .letter (by decide)
  next hquote =>
  obtain (rfl | rfl | rfl | rfl | rfl | rfl | rfl) | ⟨hself, hback, -⟩ := escapeShared_cases c
  · exact .letter (by decide)
  · exact .letter (by decide)
  · exact .letter (by decide)
  · exact .letter (by decide)
  · exact .byte (by decide)
  · exact absurd rfl h.1
  · exact absurd rfl h.2
  · rw [hself]
    exact .raw (by simpa using hquote) hback

theorem spells_escapeStringChars
    (h : cs.all (fun c => c.toNat != 0x2028 && c.toNat != 0x2029) = true) :
    Spells (escapeStringChars cs) cs := by
  induction cs with
  | nil => exact .nil
  | cons c cs ih =>
    rw [List.all_cons, Bool.and_eq_true] at h
    exact .char (spellsChar_escapeStringChar (by simpa using h.1)) (ih h.2)

theorem decodeChars_quoted (bytes : Bool) (body : List Char) :
    decodeChars ((if bytes then ['b'] else []) ++ '"' :: (body ++ ['"'])) = decodeFrom 0 body := by
  have hquoted : quotedBody? ('"' :: (body ++ ['"'])) = some body := by
    rw [quotedBody?, if_pos (by simp), List.dropLast_concat]
  cases bytes with
  | false =>
    have htrim : Text.trim ('"' :: (body ++ ['"'])) = '"' :: (body ++ ['"']) :=
      Text.trim_eq_self rfl (by decide) (show _ = ('"' :: body) ++ ['"'] from rfl) (by decide)
    have hraw : rawContent? ('"' :: (body ++ ['"'])) = none := rfl
    rw [if_neg (by decide), List.nil_append, decodeChars, htrim]
    simp only [hraw]
    split
    · next inner hinner => rw [Option.some.inj (hquoted.symm.trans hinner)]
    · next hnone => cases hquoted.symm.trans hnone
  | true =>
    have htrim : Text.trim ('b' :: '"' :: (body ++ ['"'])) = 'b' :: '"' :: (body ++ ['"']) :=
      Text.trim_eq_self rfl (by decide) (show _ = ('b' :: '"' :: body) ++ ['"'] from rfl) (by decide)
    have hraw : rawContent? ('b' :: '"' :: (body ++ ['"'])) = none := rfl
    rw [if_pos rfl, List.singleton_append, decodeChars, htrim]
    simp only [hraw, hquoted]

end Decoding

/-- Every spelling of a text between quotes is read as the text, also with a `b` in front. Such a
    spelling is what is written into a JavaScript string, for a text without line and paragraph
    separators. -/
theorem spelled_literal_is_read_back :
    (∀ (bytes : Bool) (body s : String), Spells body.toList s.toList →
      decode ((if bytes then "b" else "") ++ "\"" ++ body ++ "\"") = .ok s) ∧
    ∀ s : String, s.toList.all (fun c => c.toNat != 0x2028 && c.toNat != 0x2029) = true →
      decode ("\"" ++ escapeString s ++ "\"") = .ok s := by
  have hread (bytes : Bool) (body s : String) (h : Spells body.toList s.toList) :
      decode ((if bytes then "b" else "") ++ "\"" ++ body ++ "\"") = .ok s := by
    have htext : ((if bytes then "b" else "") ++ "\"" ++ body ++ "\"").toList =
        (if bytes then ['b'] else []) ++ '"' :: (body.toList ++ ['"']) := by
      cases bytes <;> simp
    rw [decode, htext, decodeChars_quoted, h.decodeFrom]
    exact congrArg Except.ok String.ofList_toList
  refine ⟨hread, fun s hs => ?_⟩
  have hspells : Spells (escapeString s).toList s.toList := by
    rw [toList_escapeString]
    exact spells_escapeStringChars hs
  simpa using hread false _ s hspells

/-- A text with a quote, a tab and a line end, in a spelling of each kind: a letter, two digits, and
    digits in braces behind a broken line. -/
theorem mixed_spelling_is_read_back :
    decode "b\"é\\\"\\x09\\\n  \\u\x7b00A\x7d\"" = .ok "é\"\t\n" ∧
      decode ("\"" ++ escapeString "\\\"\x00x" ++ "\"") = .ok "\\\"\x00x" := by
  refine ⟨spelled_literal_is_read_back.1 true "é\\\"\\x09\\\n  \\u\x7b00A\x7d" _ ?_,
    spelled_literal_is_read_back.2 _ (by decide)⟩
  exact .char (.raw (by decide) (by decide)) (.char (.letter (by decide))
    (.char (.byte (by decide)) (@Spells.broken [' ', ' '] _ _ (by decide) (by decide)
      (.char (@SpellsChar.code ['0', '0', 'A'] _ (by decide)) .nil))))

end RustScript.Literal
