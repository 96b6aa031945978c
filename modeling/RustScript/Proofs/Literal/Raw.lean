/-
  Raw literals, read in two ways.

  Decoding looks at a whole literal, while among the tokens of a call a raw literal is told by its
  front. Behind a `b` the `r` does not begin a word, so a raw literal of bytes is read there as a
  word, hashes and an ordinary string (`reads_rawMark_iff`).
-/
import RustScript.Literal.Decode
import RustScript.Proofs.Macro.Splitting

namespace RustScript

open List (nil_append cons_append append_nil append_assoc map_cons)
open List (replicate)

namespace Arguments

/-! ## Raw strings -/

section Raw

variable {sep : Char} {rest : List Char} {previous : Option Char} {n : Nat} {content : List Char}

/-- The mark at the end of a raw string is found where it stands, since no other begins before it
    and reaches into it. -/
theorem find?_rawEnd (h : ¬rawEnd n <:+: content) (rest : List Char) :
    find? (rawEnd n) (content ++ (rawEnd n ++ rest)) = some content.length := by
  induction content with
  | nil =>
    rw [nil_append, rawEnd, cons_append, find?, if_pos]
    · rfl
    · exact List.isPrefixOf_iff_prefix.mpr ⟨rest, rfl⟩
  | cons c content ih =>
    have hrest : ¬rawEnd n <:+: content := fun hinside =>
      h (hinside.trans (List.suffix_cons c _).isInfix)
    have hfirst : ¬rawEnd n <+: c :: (content ++ (rawEnd n ++ rest)) := by
      intro hfront
      by_cases hlong : (rawEnd n).length ≤ (c :: content).length
      · refine h (List.IsPrefix.isInfix ?_)
        exact List.prefix_of_prefix_length_le hfront (List.prefix_append (c :: content) _) hlong
      · -- the quote of the later mark would be one of the hashes of this one
        obtain ⟨after, hafter⟩ := hfront
        have hquote : (rawEnd n)[content.length + 1]? = some '"' := by
          have hat := congrArg (·[content.length + 1]?) hafter
          rw [List.getElem?_append_left (by simpa using hlong)] at hat
          rw [hat, List.getElem?_cons_succ, List.getElem?_append_right (Nat.le_refl _),
            Nat.sub_self]
          rfl
        have hmem := List.eq_of_mem_replicate (List.mem_of_getElem? hquote)
        cases hmem
    rw [cons_append, find?, if_neg (fun hc => hfirst (List.isPrefixOf_iff_prefix.mp hc)), ih hrest]
    rfl

theorem takeWhile_hashes (n : Nat) (cs : List Char) :
    (replicate n '#' ++ '"' :: cs).takeWhile (· == '#') = replicate n '#' := by
  rw [List.takeWhile_append_of_pos (by simp), List.takeWhile_cons_of_neg (by decide),
    append_nil]

theorem dropWhile_hashes (n : Nat) (cs : List Char) :
    (replicate n '#' ++ '"' :: cs).dropWhile (· == '#') = '"' :: cs := by
  rw [List.dropWhile_append_of_pos (by simp), List.dropWhile_cons_of_neg (by decide)]

theorem Reads.passed (passed : List Char) {chunk : List Char}
    (h : ∀ previous, Reads sep rest 0 previous [] chunk) :
    Reads sep rest passed.length previous [] (passed ++ chunk) := by
  induction passed generalizing previous with
  | nil => exact h previous
  | cons c passed ih => exact .inside ih

theorem reads_raw (h : ¬rawEnd n <:+: content) :
    Reads sep rest 0 none []
      ('r' :: (replicate n '#' ++ '"' :: (content ++ rawEnd n))) := by
  have hbehind : replicate n '#' ++ '"' :: (content ++ rawEnd n) ++ rest =
      replicate n '#' ++ '"' :: (content ++ (rawEnd n ++ rest)) := by simp
  have hlength : (replicate n '#' ++ '"' :: (content ++ rawEnd n)).length =
      n + 1 + content.length + (n + 1) := by
    simp only [rawEnd, List.length_append, List.length_cons, List.length_replicate]
    omega
  have hpassed : Reads sep rest (n + 1 + content.length + (n + 1)) (some 'r') []
      (replicate n '#' ++ '"' :: (content ++ rawEnd n)) := by
    have hall := @Reads.passed sep rest (some 'r')
      (replicate n '#' ++ '"' :: (content ++ rawEnd n)) [] fun _ => .stop (.inl rfl)
    rwa [append_nil, hlength] at hall
  refine .literal ?_ hpassed
  rw [hbehind]
  have hfind : find? (rawEnd n) ((replicate n '#' ++ '"' ::
      (content ++ (rawEnd n ++ rest))).drop (n + 1)) = some content.length := by
    rw [List.drop_append, List.length_replicate, Nat.add_sub_cancel_left]
    simpa using find?_rawEnd h rest
  have hhashes : hashes (replicate n '#' ++ '"' :: (content ++ (rawEnd n ++ rest))) = n := by
    rw [hashes, takeWhile_hashes, List.length_replicate]
  have hopens :
      opensRaw (replicate n '#' ++ '"' :: (content ++ (rawEnd n ++ rest))) = true := by
    rw [opensRaw, dropWhile_hashes]
    rfl
  have hraw := @Starts.raw none _ content.length rfl hopens (by rwa [hhashes])
  rwa [hhashes] at hraw

end Raw

/-! ## Raw strings of bytes -/

section Bytes

variable {sep : Char} {rest cs : List Char} {previous previous' : Option Char} {content : List Char}
  {c : Char}

theorem Starts.eq_of_starts {m n : Nat} (hm : Starts previous c cs m)
    (hn : Starts previous c cs n) : m = n := by
  have hlength : literalLength "" previous c cs = .ok m := literalLength_eq_ok_iff.mpr hm
  rw [literalLength_eq_ok_iff.mpr hn] at hlength
  exact (Except.ok.inj hlength).symm

theorem reads_cons_iff (hstarts : Starts previous c (cs ++ rest) 0)
    (hcut : isCut sep [] c = false) (hclosers : closersAfter? [] c = some []) :
    Reads sep rest 0 previous [] (c :: cs) ↔ Reads sep rest 0 (some c) [] cs := by
  constructor
  · intro h
    cases h with
    | literal hliteral => cases hliteral.eq_of_starts hstarts
    | plain _ _ hafter h =>
      rw [hclosers] at hafter
      rwa [Option.some.inj hafter]
  · exact .plain hstarts hcut hclosers

theorem reads_quote_of_reads_quote (h : Reads sep rest 0 previous [] ('"' :: cs)) :
    Reads sep rest 0 previous' [] ('"' :: cs) := by
  cases h with
  | literal hstarts h =>
    generalize hn : _ + 1 = n at hstarts
    cases hstarts with
    | @string cs k hk =>
      cases hn
      exact .literal (.string hk) h
    | none hstring => exact absurd rfl hstring
  | plain hstarts =>
    generalize hn : 0 = n at hstarts
    cases hstarts with
    | string => cases hn
    | none hstring => exact absurd rfl hstring

theorem reads_hashes_iff (n : Nat)
    (h : ∀ previous previous', Reads ',' rest 0 previous [] cs → Reads ',' rest 0 previous' [] cs) :
    Reads ',' rest 0 previous [] (replicate n '#' ++ cs) ↔ Reads ',' rest 0 none [] cs := by
  induction n generalizing previous with
  | zero => exact ⟨h _ _, h _ _⟩
  | succ n ih =>
    rw [List.replicate_succ, cons_append,
      reads_cons_iff (.plain (by decide)) (by decide) (by decide), ih]

theorem stringTail?_plain (h : content.any (fun c => c == '"' || c == '\\') = false)
    (after : List Char) : stringTail? (content ++ '"' :: after) = some (content.length + 1) := by
  induction content with
  | nil => rfl
  | cons c content ih =>
    rw [List.any_cons, Bool.or_eq_false_iff, Bool.or_eq_false_iff, beq_eq_false_iff_ne,
      beq_eq_false_iff_ne] at h
    rw [cons_append, stringTail?, if_neg (by simpa using h.1.1), ih h.2]
    · rfl
    · exact fun _ _ hc => absurd hc h.1.2
    · exact fun hc => absurd hc h.1.2

theorem reads_plain (n : Nat) (h : content.any (fun c => c == '"' || c == '\\') = false) :
    Reads ',' rest 0 none [] ('"' :: (content ++ rawEnd n)) := by
  have hpassed : Reads ',' rest (content.length + 1) (some '"') []
      ((content ++ ['"']) ++ replicate n '#') := by
    have hhashes (previous : Option Char) : Reads ',' rest 0 previous [] (replicate n '#') := by
      rw [← append_nil (replicate n '#'), reads_hashes_iff n fun _ _ _ => .stop (.inl rfl)]
      exact .stop (.inl rfl)
    simpa using Reads.passed (content ++ ['"']) hhashes
  rw [append_assoc] at hpassed
  refine .literal (.string ?_) hpassed
  rw [rawEnd, append_assoc]
  exact stringTail?_plain h _

/-- What a raw literal has in front of its quote. -/
def rawMark (bytes : Bool) (n : Nat) : List Char :=
  (if bytes then ['b'] else []) ++ 'r' :: replicate n '#'

theorem reads_rawMark_iff (n : Nat) :
    Reads ',' rest 0 none [] (rawMark true n ++ '"' :: cs) ↔
      Reads ',' rest 0 none [] ('"' :: cs) := by
  have hr (ds : List Char) : Starts (some 'b') 'r' ds 0 :=
    .none (by decide) (fun _ hword => absurd hword (by decide)) (fun h => absurd h (by decide))
  have hmark : rawMark true n ++ '"' :: cs = 'b' :: 'r' :: (replicate n '#' ++ '"' :: cs) := rfl
  rw [hmark, reads_cons_iff (.plain (by decide)) (by decide) (by decide),
    reads_cons_iff (hr _) (by decide) (by decide),
    reads_hashes_iff n fun _ _ => reads_quote_of_reads_quote]

end Bytes

theorem eq_nil_of_blanks {cs ds : List Char} (hcs : cs.all Text.isBlank = true)
    (h : ∀ c ∈ (cs ++ ds).head?, Text.isBlank c = false) : cs = [] := by
  cases cs with
  | nil => rfl
  | cons c cs =>
    rw [List.all_cons, Bool.and_eq_true] at hcs
    exact absurd hcs.1 (by simp [h c rfl])

/-- A text that does not begin with a blank or end with one is an argument in front of another
    exactly if it is read as a whole. -/
theorem split_before_argument_iff {text : String}
    (hhead : ∀ c ∈ text.toList.head?, Text.isBlank c = false)
    (htrim : Text.trim text.toList = text.toList) :
    split (text ++ ", x") ',' = .ok [text, "x"] ↔
      Reads ',' [',', ' ', 'x'] 0 none [] text.toList := by
  rw [split_eq_ok_iff (.inl rfl), String.toList_append]
  constructor
  · rintro ⟨chunks, hcut, hchunks⟩
    generalize hall : text.toList ++ ", x".toList = all at hcut
    cases hcut with
    | last =>
      unfold dropBlankEnd at hchunks
      split at hchunks <;> cases hchunks
    | @more _ chunk rest chunks h hrest =>
      obtain ⟨next, more, rfl⟩ : ∃ next more, chunks = next :: more := by
        cases hrest <;> exact ⟨_, _, rfl⟩
      have hchunk : Text.trim chunk = text.toList := by
        unfold dropBlankEnd at hchunks
        split at hchunks <;> rw [(List.cons.inj hchunks).1, String.toList_ofList]
      -- there is nothing but blanks around it, and neither side begins with one
      obtain ⟨before, after, hbefore, hafter, heq⟩ := Text.exists_blanks chunk
      rw [hchunk] at heq
      subst heq
      rw [append_assoc, append_assoc] at hall
      have hcomma : ∀ c ∈ [',', ' ', 'x'].head?, Text.isBlank c = false := by
        rintro c ⟨⟩
        decide
      have hbegins : ∀ c ∈ (text.toList ++ ", x".toList).head?, Text.isBlank c = false := by
        cases hcs : text.toList with
        | nil => exact hcomma
        | cons c cs => exact fun d hd => hhead d (hcs ▸ hd)
      obtain rfl := eq_nil_of_blanks hbefore (hall ▸ hbegins)
      have hbehind : [',', ' ', 'x'] = after ++ ',' :: rest := List.append_cancel_left hall
      obtain rfl := eq_nil_of_blanks hafter (hbehind ▸ hcomma)
      rw [nil_append] at hbehind
      rwa [nil_append, append_nil, ← hbehind] at h
  · intro h
    have hx : Reads ',' [] 0 (some ',') [] [' ', 'x'] := by
      rw [reads_cons_iff (.plain (by decide)) (by decide) (by decide),
        reads_cons_iff (.plain (by decide)) (by decide) (by decide)]
      exact .stop (.inl rfl)
    refine ⟨[text.toList, [' ', 'x']], .more h (.last hx), ?_⟩
    rw [trimmed, map_cons, htrim, map_cons, String.ofList_toList]
    rfl

end Arguments

/-! ## Literals in front of another argument -/

namespace Literal

open Arguments (Reads rawEnd rawMark split)

/-- What a raw literal is behind its hashes. -/
def rawTail (n : Nat) (content : String) : String :=
  "\"" ++ content ++ "\"" ++ String.ofList (replicate n '#')

/-- A raw literal with so many hashes, of bytes or not. -/
def rawLiteral (bytes : Bool) (n : Nat) (content : String) : String :=
  String.ofList (rawMark bytes n) ++ rawTail n content

section Literals

variable {n : Nat} {content : String}

theorem toList_rawTail : (rawTail n content).toList = '"' :: (content.toList ++ rawEnd n) := by
  simp [rawTail, rawEnd]

theorem toList_rawLiteral (bytes : Bool) : (rawLiteral bytes n content).toList =
    rawMark bytes n ++ '"' :: (content.toList ++ rawEnd n) := by
  rw [rawLiteral, String.toList_append, String.toList_ofList, toList_rawTail]

theorem trim_rawEnd {c : Char} (hc : Text.isBlank c = false) (cs : List Char) :
    Text.trim (c :: cs ++ rawEnd n) = c :: cs ++ rawEnd n := by
  obtain ⟨before, last, hend, hlast⟩ : ∃ before last, rawEnd n = before ++ [last] ∧
      Text.isBlank last = false := by
    cases n with
    | zero => exact ⟨[], '"', rfl, by decide⟩
    | succ n =>
      refine ⟨'"' :: replicate n '#', '#', ?_, by decide⟩
      rw [rawEnd, List.replicate_succ', cons_append]
  have hsplit : c :: cs ++ rawEnd n = (c :: cs ++ before) ++ [last] := by rw [hend, append_assoc]
  exact Text.trim_eq_self rfl hc hsplit hlast

theorem trim_rawLiteral (bytes : Bool) :
    Text.trim (rawLiteral bytes n content).toList = (rawLiteral bytes n content).toList := by
  rw [toList_rawLiteral, ← cons_append, ← append_assoc]
  cases bytes <;> exact trim_rawEnd (by decide) _

theorem split_rawLiteral_iff (bytes : Bool) :
    split (rawLiteral bytes n content ++ ", x") ',' = .ok [rawLiteral bytes n content, "x"] ↔
      Reads ',' [',', ' ', 'x'] 0 none []
        (rawMark bytes n ++ '"' :: (content.toList ++ rawEnd n)) := by
  rw [Arguments.split_before_argument_iff ?_ (trim_rawLiteral bytes), toList_rawLiteral]
  rw [toList_rawLiteral]
  cases bytes <;> exact fun c hc => by cases hc; decide

theorem split_rawTail_iff :
    split (rawTail n content ++ ", x") ',' = .ok [rawTail n content, "x"] ↔
      Reads ',' [',', ' ', 'x'] 0 none [] ('"' :: (content.toList ++ rawEnd n)) := by
  have htrim := @trim_rawEnd n '"' (by decide) content.toList
  rw [cons_append, ← toList_rawTail] at htrim
  rw [Arguments.split_before_argument_iff ?_ htrim, toList_rawTail]
  rw [toList_rawTail]
  exact fun c hc => by cases hc; decide

theorem rawContent?_rawLiteral (bytes : Bool) :
    rawContent? (rawLiteral bytes n content).toList = some content.toList := by
  have hopen : rawContent? (rawLiteral bytes n content).toList = rawContent?
      ('r' :: (replicate n '#' ++ '"' :: (content.toList ++ rawEnd n))) := by
    rw [toList_rawLiteral]
    cases bytes <;> rfl
  have hlength : (content.toList ++ rawEnd n).length - (rawEnd n).length =
      content.toList.length := by
    rw [List.length_append]
    omega
  rw [hopen, rawContent?]
  simp only [Arguments.takeWhile_hashes, Arguments.dropWhile_hashes]
  change (if (rawEnd n).length ≤ (content.toList ++ rawEnd n).length &&
      (content.toList ++ rawEnd n).drop ((content.toList ++ rawEnd n).length -
        (rawEnd n).length) == rawEnd n then
    some ((content.toList ++ rawEnd n).take ((content.toList ++ rawEnd n).length -
      (rawEnd n).length)) else none) = _
  rw [hlength, List.drop_left, List.take_left, if_pos (by simp)]

theorem decode_rawLiteral (bytes : Bool) : decode (rawLiteral bytes n content) = .ok content := by
  have hchars : decodeChars (rawLiteral bytes n content).toList = .ok content.toList := by
    rw [decodeChars, trim_rawLiteral]
    simp only [rawContent?_rawLiteral]
  rw [decode, hchars]
  exact congrArg Except.ok String.ofList_toList

end Literals

/-- A raw literal is decoded as its content, and in front of another argument it is one argument,
    exactly if it is not of bytes or what follows its mark is one argument when it is read as an
    ordinary string; so it is if the content has neither quotes nor backslashes. -/
theorem raw_literal_is_one_argument_iff (bytes : Bool) (n : Nat) {content : String}
    (h : ¬rawEnd n <:+: content.toList) :
    decode (rawLiteral bytes n content) = .ok content ∧
      (split (rawLiteral bytes n content ++ ", x") ',' = .ok [rawLiteral bytes n content, "x"] ↔
        (bytes = true → split (rawTail n content ++ ", x") ',' = .ok [rawTail n content, "x"])) ∧
      (content.toList.any (fun c => c == '"' || c == '\\') = false →
        split (rawLiteral bytes n content ++ ", x") ',' =
          .ok [rawLiteral bytes n content, "x"]) := by
  rw [split_rawLiteral_iff, split_rawTail_iff]
  refine ⟨decode_rawLiteral bytes, ?_⟩
  cases bytes with
  | false => exact ⟨iff_of_true (Arguments.reads_raw h) nofun, fun _ => Arguments.reads_raw h⟩
  | true =>
    rw [Arguments.reads_rawMark_iff]
    exact ⟨⟨fun h _ => h, fun h => h rfl⟩, Arguments.reads_plain n⟩

/-- With one hash, quotes, commas and brackets are content; in a literal of bytes, commas and
    brackets are. -/
theorem raw_literal_with_marks_is_one_argument :
    (¬rawEnd 1 <:+: "a\", [(\\r\"".toList ∧ split (rawLiteral false 1 "a\", [(\\r\"" ++ ", x") ',' =
        .ok [rawLiteral false 1 "a\", [(\\r\"", "x"]) ∧
    (¬rawEnd 2 <:+: "a, [(#".toList ∧
      split (rawLiteral true 2 "a, [(#" ++ ", x") ',' = .ok [rawLiteral true 2 "a, [(#", "x"]) := by
  have h : ¬rawEnd 1 <:+: "a\", [(\\r\"".toList := by decide +kernel
  have hbytes : ¬rawEnd 2 <:+: "a, [(#".toList := by decide +kernel
  exact ⟨⟨h, (raw_literal_is_one_argument_iff false 1 h).2.1.mpr nofun⟩,
    hbytes, (raw_literal_is_one_argument_iff true 2 hbytes).2.2 (by decide +kernel)⟩

/-- A backslash at the end of a raw literal of bytes hides the quote that ends it. -/
theorem bytes_literal_with_backslash_is_unterminated :
    ¬∀ (bytes : Bool) (n : Nat) (content : String), ¬rawEnd n <:+: content.toList →
      decode (rawLiteral bytes n content) = .ok content →
        split (rawLiteral bytes n content ++ ", x") ',' =
          .ok [rawLiteral bytes n content, "x"] := by
  intro h
  have hsplit := h true 0 "\\" (by decide +kernel) (decode_rawLiteral true)
  exact absurd hsplit (by decide +kernel)

end Literal

end RustScript
