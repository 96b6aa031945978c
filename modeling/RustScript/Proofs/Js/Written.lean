/-
  Texts that say what they are meant to say.

  `Written level text t` says that a text is read as the term `t` wherever it stands, as long as
  what follows does not run on in its last word. Each way to put texts together has its lemma.
-/
import Mathlib.Data.List.Find
import RustScript.Proofs.Js.Grammar
import RustScript.Proofs.Literal.Replacing
import RustScript.Syntax.Spelling

namespace RustScript.Js

open List (append_assoc cons_append prefix_append)

/-! ## Tokens in a row -/

/-- What follows does not go on with a word. -/
def NoWord (rest : List Char) : Prop := ∀ c ∈ rest.head?, isWordChar c = false

/-- The characters are these tokens, whatever follows. -/
def Splits (cs : List Char) (ts : List Token) : Prop :=
  ∀ rest, lex (cs ++ rest) = (lex rest).map (ts ++ ·)

/-- The characters are these tokens, unless what follows goes on with a word. -/
def Spells (cs : List Char) (ts : List Token) : Prop :=
  ∀ rest, NoWord rest → lex (cs ++ rest) = (lex rest).map (ts ++ ·)

section Rows

variable {cs ds : List Char} {ts us : List Token}

theorem Splits.spells (h : Splits cs ts) : Spells cs ts := fun rest _ => h rest

theorem Splits.append_spells (h : Splits cs ts) (k : Spells ds us) :
    Spells (cs ++ ds) (ts ++ us) := by
  intro rest hrest
  rw [append_assoc, h, k rest hrest, Option.map_map]
  congr 1
  funext ws
  exact (append_assoc ts us ws).symm

theorem Splits.append (h : Splits cs ts) (k : Splits ds us) : Splits (cs ++ ds) (ts ++ us) := by
  intro rest
  rw [append_assoc, h, k rest, Option.map_map]
  congr 1
  funext ws
  exact (append_assoc ts us ws).symm

theorem Spells.append_splits {d : Char} (h : Spells cs ts) (hd : isWordChar d = false)
    (k : Splits (d :: ds) us) : Splits (cs ++ d :: ds) (ts ++ us) := by
  intro rest
  have hno : NoWord (d :: ds ++ rest) := by
    intro c hc
    obtain rfl : d = c := by simpa using hc
    exact hd
  rw [append_assoc, h _ hno, k rest, Option.map_map]
  congr 1
  funext ws
  exact (append_assoc ts us ws).symm

theorem Splits.space (h : Splits cs ts) : Splits (' ' :: cs) ts := by
  intro rest
  rw [cons_append, lex, if_pos (by decide)]
  exact h rest

theorem splits_nil : Splits [] [] := by
  intro rest
  simp

end Rows

/-! ## Single tokens -/

variable {w m op : String} {c : Char} {cs : List Char} {rest : List Char} {p : Char → Bool}

theorem spells_word (hne : w.toList ≠ []) (hw : ∀ c ∈ w.toList, isWordChar c) :
    Spells w.toList [.word w] := by
  intro rest hrest
  obtain ⟨c, cs, hcs⟩ := List.exists_cons_of_ne_nil hne
  rw [hcs] at hw
  have hc := hw c List.mem_cons_self
  have htail : ∀ d ∈ cs, isWordChar d := fun d hd => hw d (List.mem_cons_of_mem _ hd)
  have hsp : ¬ (c == ' ') = true := by
    rintro h
    rw [beq_iff_eq.mp h] at hc
    exact absurd hc (by decide)
  have htake : rest.takeWhile isWordChar = [] := by
    match rest with
    | [] => rfl
    | d :: ds => simp [hrest d rfl]
  have hdrop : rest.dropWhile isWordChar = rest := by
    match rest with
    | [] => rfl
    | d :: ds => simp [hrest d rfl]
  rw [hcs, cons_append, lex, if_neg hsp, if_pos hc, List.takeWhile_append_of_pos htail,
    List.dropWhile_append_of_pos htail, htake, hdrop, List.append_nil, ← hcs, String.ofList_toList]
  rfl

/-- Whether a longer mark begins with the mark and the character. -/
def prolonged (m : String) (c : Char) : Bool :=
  marks.any fun k => (m.toList ++ [c]).isPrefixOf k.toList

/-- The longest mark is taken, so a mark ends where none goes on. -/
theorem mark?_append (hm : mark? m.toList = some m)
    (hrest : ∀ c ∈ rest.head?, prolonged m c = false) : mark? (m.toList ++ rest) = some m := by
  rw [← hm]
  refine List.find?_congr fun k hk => Bool.eq_iff_iff.mpr ?_
  rw [List.isPrefixOf_iff_prefix, List.isPrefixOf_iff_prefix]
  refine ⟨fun h => ?_, fun h => h.trans (prefix_append ..)⟩
  rcases List.prefix_or_prefix_of_prefix h (prefix_append m.toList rest) with h' | ⟨more, h'⟩
  · exact h'
  rw [← h'] at h ⊢
  match rest, more with
  | _, [] => simp
  | [], d :: ds => simpa using h
  | c :: cs, d :: ds =>
    obtain ⟨rfl, -⟩ := List.cons_prefix_cons.mp ((List.prefix_append_right_inj _).mp h)
    have hany : prolonged m d = true := by
      refine List.any_eq_true.mpr ⟨k, hk, List.isPrefixOf_iff_prefix.mpr ⟨ds, ?_⟩⟩
      simp [← h']
    simp [hrest d rfl] at hany

/-- A mark by itself, told from words, strings and blanks by its first character. -/
def isMark (m : String) : Bool :=
  mark? m.toList == some m && m.toList.head?.any fun c => !(c == ' ' || isWordChar c || c == '"')

theorem lex_mark (hm : isMark m) (hrest : ∀ c ∈ rest.head?, prolonged m c = false) :
    lex (m.toList ++ rest) = (lex rest).map (.mark m :: ·) := by
  obtain ⟨hmark, hhead⟩ := Bool.and_eq_true_iff.mp hm
  match hcs : m.toList with
  | [] => simp [hcs] at hhead
  | c :: cs =>
    simp only [hcs, List.head?_cons, Option.any_some, Bool.not_eq_true', Bool.or_eq_false_iff]
      at hhead
    have hlen : m.length - 1 = cs.length := by
      rw [← String.length_toList, hcs]
      simp
    have hnext : mark? (c :: (cs ++ rest)) = some m := by
      rw [← cons_append, ← hcs]
      exact mark?_append (beq_iff_eq.mp hmark) hrest
    rw [cons_append, lex, if_neg (by simp [hhead]), if_neg (by simp [hhead]),
      if_neg (by simp [hhead]), hnext]
    simp [hlen]

theorem not_prolonged_word (hc : isWordChar c) (m : String) : prolonged m c = false := by
  have hall : ∀ k ∈ marks, k.toList.any isWordChar = false := by decide
  refine Bool.eq_false_iff.mpr fun h => ?_
  obtain ⟨k, hk, hpre⟩ := List.any_eq_true.mp h
  have hmem : c ∈ k.toList := (List.isPrefixOf_iff_prefix.mp hpre).subset (by simp)
  exact List.any_eq_false.mp (hall k hk) c hmem hc

theorem not_prolonged_bracket (hm : m ∈ ["(", ")", "[", "]"]) (c : Char) :
    prolonged m c = false := by
  have hall : ∀ m ∈ ["(", ")", "[", "]"], ∀ k ∈ marks, m.toList.isPrefixOf k.toList → k = m := by
    decide
  refine Bool.eq_false_iff.mpr fun h => ?_
  obtain ⟨k, hk, hpre⟩ := List.any_eq_true.mp h
  have hpre := List.isPrefixOf_iff_prefix.mp hpre
  obtain rfl := hall m hm k hk (List.isPrefixOf_iff_prefix.mpr ((prefix_append ..).trans hpre))
  have := hpre.length_le
  simp only [List.length_append, List.length_singleton] at this
  omega

theorem splits_bracket (hm : m ∈ ["(", ")", "[", "]"]) : Splits m.toList [.mark m] := by
  have hmark : ∀ m ∈ ["(", ")", "[", "]"], isMark m := by decide
  exact fun rest => lex_mark (hmark m hm) fun c _ => not_prolonged_bracket hm c

theorem Spells.bracket (h : Spells cs ts) (hm : m ∈ ["(", ")", "[", "]"]) :
    Splits (cs ++ m.toList) (ts ++ [.mark m]) := by
  have hsplit := splits_bracket hm
  simp only [List.mem_cons, List.not_mem_nil, or_false] at hm
  rcases hm with rfl | rfl | rfl | rfl <;> exact h.append_splits (by decide) hsplit

theorem mem_flatten_of_findIdx? {levels : List (List String)} {k : Nat}
    (h : levels.findIdx? (·.contains op) = some k) : op ∈ levels.flatten := by
  obtain ⟨hlt, hop, -⟩ := List.findIdx?_eq_some_iff_getElem.mp h
  exact List.mem_flatten.mpr ⟨_, List.getElem_mem hlt, by simpa using hop⟩

theorem splits_operator {level : Nat} (h : binaryLevel? op = some level) :
    ∃ tok, tok.operator? = some (op, level) ∧ Splits (' ' :: (op.toList ++ [' '])) [tok] := by
  have hall : ∀ op ∈ binaryLevels.flatten, (op ∈ ["in", "instanceof"] ∧ op.toList ≠ [] ∧
      op.toList.all isWordChar) ∨ isMark op ∧ prolonged op ' ' = false := by
    decide
  rcases hall op (mem_flatten_of_findIdx? h) with ⟨-, hne, hword⟩ | ⟨hmark, hend⟩
  · refine ⟨.word op, by simp [Token.operator?, h], ?_⟩
    have hspells := spells_word hne (List.all_eq_true.mp hword)
    exact (hspells.append_splits (by decide) splits_nil.space).space
  · refine ⟨.mark op, by simp [Token.operator?, h], Splits.space fun rest => ?_⟩
    rw [append_assoc, lex_mark hmark, List.singleton_append, lex, if_pos (by decide)]
    · rfl
    · intro c hc
      obtain rfl : ' ' = c := by simpa using hc
      exact hend

/-! ## String literals -/

theorem readString_escape {d : Char} {width : Nat} (h : escape? cs = some (d, width)) :
    readString ('\\' :: cs) =
      (readString (cs.drop width)).map fun (ds, rest) => (d :: ds, rest) := by
  rw [readString, if_neg (by decide), if_pos (by decide), h]

theorem readString_plain (h : c ∉ ['"', '\\', '\n', '\r']) (cs : List Char) :
    readString (c :: cs) = (readString cs).map fun (ds, rest) => (c :: ds, rest) := by
  simp only [List.mem_cons, List.not_mem_nil, or_false, not_or] at h
  rw [readString, if_neg (by simp [h]), if_neg (by simp [h]), if_neg (by simp [h])]

theorem escapeStringChar_cases (c : Char) :
    (∃ e, Literal.escapeStringChar c = '\\' :: e ∧ ∀ cs, escape? (e ++ cs) = some (c, e.length)) ∨
    (Literal.escapeStringChar c = [c] ∧ c ∉ ['"', '\\', '\n', '\r']) := by
  unfold Literal.escapeStringChar
  split
  · next h =>
    rw [beq_iff_eq.mp h]
    exact .inl ⟨_, rfl, fun _ => rfl⟩
  · next hquote =>
    obtain (rfl | rfl | rfl | rfl | rfl | rfl | rfl) | ⟨hself, hplain⟩ := Literal.escapeShared_cases c
    all_goals try exact .inl ⟨_, rfl, fun _ => rfl⟩
    exact .inr ⟨hself, by simp_all⟩

theorem readString_escapeStringChar (c : Char) (cs : List Char) :
    readString (Literal.escapeStringChar c ++ cs) =
      (readString cs).map fun (ds, rest) => (c :: ds, rest) := by
  rcases escapeStringChar_cases c with ⟨e, he, hmeans⟩ | ⟨he, hplain⟩
  · rw [he, cons_append, readString_escape (hmeans cs), List.drop_left]
  · rw [he, List.singleton_append, readString_plain hplain]

theorem readString_escaped (cs rest : List Char) :
    readString (Literal.escapeStringChars cs ++ '"' :: rest) = some (cs, rest) := by
  induction cs with
  | nil =>
    rw [Literal.escapeStringChars, List.flatMap_nil, List.nil_append, readString,
      if_pos (by decide)]
  | cons c cs ih =>
    rw [Literal.escapeStringChars, List.flatMap_cons, append_assoc, readString_escapeStringChar]
    exact congrArg (Option.map _) ih

theorem readString_word (h : ∀ c ∈ cs, isWordChar c) (rest : List Char) :
    readString (cs ++ '"' :: rest) = some (cs, rest) := by
  induction cs with
  | nil => rw [List.nil_append, readString, if_pos (by decide)]
  | cons c cs ih =>
    have hc := h c List.mem_cons_self
    have hplain : c ∉ ['"', '\\', '\n', '\r'] := by
      intro hmem
      simp only [List.mem_cons, List.not_mem_nil, or_false] at hmem
      rcases hmem with rfl | rfl | rfl | rfl <;> exact absurd hc (by decide)
    rw [cons_append, readString_plain hplain, ih fun d hd => h d (List.mem_cons_of_mem _ hd)]
    rfl

theorem splits_string {value : String}
    (h : ∀ rest, readString (cs ++ '"' :: rest) = some (value.toList, rest)) :
    Splits ('"' :: (cs ++ ['"'])) [.str value] := by
  intro rest
  rw [cons_append, append_assoc, List.singleton_append, lex, if_neg (by decide),
    if_neg (by decide), if_pos (by decide)]
  split
  · next read after hread =>
    obtain ⟨rfl, rfl⟩ := Prod.mk.inj (Option.some.inj (hread.symm.trans (h rest)))
    rw [String.ofList_toList]
    rfl
  · next hread => simp [h rest] at hread

/-! ## Expressions -/

/-- What an expression can begin with. -/
def opens (c : Char) : Bool := isWordChar c || ['(', '-', '!', '"'].contains c

theorem not_prolonged_prefix (hop : op = "-" ∨ op = "!") (hc : opens c)
    (hminus : op = "-" → some c ≠ some '-') : prolonged op c = false := by
  rcases Bool.or_eq_true_iff.mp hc with hw | hmem
  · exact not_prolonged_word hw op
  · simp only [List.contains_iff_mem, List.mem_cons, List.not_mem_nil, or_false] at hmem
    rcases hop with rfl | rfl
    · rcases hmem with rfl | rfl | rfl | rfl
      · decide
      · exact absurd rfl (hminus rfl)
      · decide
      · decide
    · rcases hmem with rfl | rfl | rfl | rfl <;> decide

/-- The text is read as the term, as an expression of the level, wherever it stands. -/
def Written (level : Nat) (text : String) (t : Term) : Prop :=
  ∃ ts, Spells text.toList ts ∧ text.toList.head?.any opens ∧ Reads level ts t

theorem head?_append_any (h : cs.head?.any p) (ds : List Char) : (cs ++ ds).head?.any p := by
  match cs with
  | [] => simp at h
  | c :: cs => simpa using h

theorem head?_append_of_any {ds : List Char} (h : cs.head?.any p) (hc : c ∈ (cs ++ ds).head?) :
    cs.head? = some c ∧ p c := by
  match cs with
  | [] => simp at h
  | d :: cs =>
    obtain rfl : d = c := by simpa using hc
    exact ⟨rfl, by simpa using h⟩

theorem isWordChar_of_isWordStart (h : isWordStart c) : isWordChar c := by
  simp only [isWordStart, Bool.or_eq_true, beq_iff_eq] at h
  rcases h with (h | rfl) | rfl
  · simp [isWordChar, Text.isNameContinue_of_isNameStart h]
  · decide
  · decide

theorem isName_chars (h : isName w) : w.toList ≠ [] ∧ ∀ c ∈ w.toList, isWordChar c := by
  unfold isName at h
  split at h
  · next c cs hcs =>
    simp only [Bool.and_eq_true, List.all_eq_true] at h
    rw [hcs]
    refine ⟨List.cons_ne_nil _ _, fun d hd => ?_⟩
    rcases List.mem_cons.mp hd with rfl | hd
    · exact isWordChar_of_isWordStart h.1
    · exact h.2 d hd
  · simp at h

theorem isWordChar_of_isDigit (h : c.isDigit) : isWordChar c := by
  simp [isWordChar, Text.isNameContinue_of_isDigit h]

theorem toString_chars (n : Nat) :
    (toString n).toList ≠ [] ∧ ∀ c ∈ (toString n).toList, isWordChar c := by
  refine ⟨?_, fun c hc => isWordChar_of_isDigit (isDigit_of_mem_toString hc)⟩
  rw [Nat.toString_eq_repr, Nat.toList_repr]
  exact Nat.toDigits_ne_nil

theorem opens_of_chars (h : w.toList ≠ [] ∧ ∀ c ∈ w.toList, isWordChar c) :
    w.toList.head?.any opens := by
  obtain ⟨c, cs, hcs⟩ := List.exists_cons_of_ne_nil h.1
  have hc := h.2 c (by simp [hcs])
  simp [hcs, opens, hc]

namespace Written

variable {level : Nat} {a b : String} {t u : Term} {name : String}

theorem loosen {k : Nat} (h : Written level a t) (hle : k ≤ level) : Written k a t := by
  obtain ⟨ts, hs, ho, hr⟩ := h
  exact ⟨ts, hs, ho, hr.loosen hle⟩

theorem word (h : isOperand w) : Written suffixLevel w (.word w) := by
  have hw := isName_chars (Bool.and_eq_true_iff.mp h).1
  exact ⟨_, spells_word hw.1 hw.2, opens_of_chars hw, .word h⟩

theorem number (n : Nat) : Written prefixLevel (toString n) (.number n) :=
  have hw := toString_chars n
  ⟨_, spells_word hw.1 hw.2, opens_of_chars hw, .number n⟩

theorem quoted (s : String) : Written suffixLevel (Literal.quote s) (.str s) := by
  refine ⟨[.str s], ?_, ?_, .str s⟩
  · have := (splits_string fun rest => readString_escaped s.toList rest).spells
    simpa [Literal.quote, Literal.toList_escapeString] using this
  · simp [Literal.quote, opens]

theorem quotedName (h : isName name) : Written suffixLevel ("\"" ++ name ++ "\"") (.str name) := by
  refine ⟨[.str name], ?_, ?_, .str name⟩
  · have := (splits_string fun rest => readString_word (isName_chars h).2 rest).spells
    simpa using this
  · simp [opens]

theorem paren (h : Written level a t) : Written suffixLevel ("(" ++ a ++ ")") t := by
  obtain ⟨ts, hs, -, hr⟩ := h
  have hall := (splits_bracket (m := "(") (by decide)).append (hs.bracket (m := ")") (by decide))
  refine ⟨_, ?_, ?_, (hr.loosen (Nat.zero_le _)).paren⟩
  · simpa using hall.spells
  · simp [opens]

theorem binary (hop : binaryLevel? op = some level) (ha : Written level a t)
    (hb : Written (level + 1) b u) :
    Written level (a ++ " " ++ op ++ " " ++ b) (.binary op t u) := by
  obtain ⟨ts, hsa, ho, hra⟩ := ha
  obtain ⟨us, hsb, -, hrb⟩ := hb
  obtain ⟨tok, htok, hsplit⟩ := splits_operator hop
  have hall := (hsa.append_splits (by decide) hsplit).append_spells hsb
  refine ⟨_, ?_, ?_, hra.binary htok hrb⟩
  · simpa [String.toList_append] using hall
  · simp only [String.toList_append, append_assoc]
    exact head?_append_any ho _

/-- A prefix operator. Two minus signs in a row would be another operator. -/
theorem unary (hop : op = "-" ∨ op = "!") (h : Written prefixLevel a t)
    (hminus : op = "-" → a.toList.head? ≠ some '-') :
    Written prefixLevel (op ++ a) (.unary op t) := by
  obtain ⟨ts, hs, ho, hr⟩ := h
  have hmark : isMark op ∧ op.toList.head?.any opens := by rcases hop with rfl | rfl <;> decide
  have hmem : op ∈ prefixOperators := by rcases hop with rfl | rfl <;> decide
  refine ⟨.mark op :: ts, fun rest hrest => ?_, ?_, hr.unary hmem⟩
  · rw [String.toList_append, append_assoc, lex_mark hmark.1, hs rest hrest, Option.map_map]
    · rfl
    · intro c hc
      obtain ⟨hc', hopen⟩ := head?_append_of_any ho hc
      exact not_prolonged_prefix hop hopen fun h => by rw [← hc']; exact hminus h
  · rw [String.toList_append]
    exact head?_append_any hmark.2 _

theorem member (h : Written suffixLevel a t) (hname : isName name) :
    Written suffixLevel (a ++ "." ++ name) (.member t name) := by
  obtain ⟨ts, hs, ho, hr⟩ := h
  have hw := isName_chars hname
  refine ⟨_, fun rest hrest => ?_, ?_, hr.member hname⟩
  · have hpoint : NoWord (".".toList ++ (name.toList ++ rest)) := by
      intro c hc
      obtain rfl : '.' = c := by simpa using hc
      decide
    have hnext : ∀ c ∈ (name.toList ++ rest).head?, prolonged "." c = false := by
      intro c hc
      obtain ⟨hc', -⟩ := head?_append_of_any (opens_of_chars hw) hc
      exact not_prolonged_word (hw.2 c (List.mem_of_head? hc')) _
    rw [String.toList_append, String.toList_append, append_assoc, append_assoc,
      hs _ hpoint, lex_mark (by decide) hnext, spells_word hw.1 hw.2 rest hrest]
    simp [Function.comp_def]
  · simp only [String.toList_append, append_assoc]
    exact head?_append_any ho _

theorem enclosing (ha : Written suffixLevel a t) (hb : Written level b u) {o c : String} {v : Term}
    (ho : o ∈ ["(", ")", "[", "]"]) (hc : c ∈ ["(", ")", "[", "]"])
    (hv : ∀ {ts us}, Reads suffixLevel ts t → Reads 0 us u →
      Reads suffixLevel (ts ++ .mark o :: (us ++ [.mark c])) v) :
    Written suffixLevel (a ++ o ++ b ++ c) v := by
  obtain ⟨ts, hsa, hopens, hra⟩ := ha
  obtain ⟨us, hsb, -, hrb⟩ := hb
  refine ⟨_, ?_, ?_, hv hra (hrb.loosen (Nat.zero_le _))⟩
  · simpa using ((hsa.bracket ho).append (hsb.bracket hc)).spells
  · simp only [String.toList_append, append_assoc]
    exact head?_append_any hopens _

theorem index (ha : Written suffixLevel a t) (hb : Written level b u) :
    Written suffixLevel (a ++ "[" ++ b ++ "]") (.index t u) :=
  ha.enclosing hb (by decide) (by decide) .index

theorem call (ha : Written suffixLevel a t) (hb : Written level b u) :
    Written suffixLevel (a ++ "(" ++ b ++ ")") (.call t u) :=
  ha.enclosing hb (by decide) (by decide) .call

/-- The text says the term and nothing else. -/
theorem readsAs_iff (h : Written level a t) (u : Term) : ReadsAs a u ↔ u = t := by
  obtain ⟨ts, hs, -, hr⟩ := h
  have hlex : lex a.toList = some ts := by
    have := hs [] (by simp [NoWord])
    simpa [lex] using this
  have hr := hr.loosen (Nat.zero_le _)
  constructor
  · rintro ⟨us, hus, hu⟩
    obtain rfl : us = ts := Option.some.inj (hus.symm.trans hlex)
    exact hu.unique hr
  · rintro rfl
    exact ⟨ts, hlex, hr⟩

end Written

end RustScript.Js
