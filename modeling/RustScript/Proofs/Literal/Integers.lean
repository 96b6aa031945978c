/-
  Integer literals as they may be spelled.

  No digit of any base is the first letter of a type's name, so that the digits of a numeral end
  where the name of its type begins (`Numeral.splitInteger_chars`). Only in base ten there is a
  limit, on the number of digits.
-/
import Mathlib.Data.Nat.Digits.Defs
import RustScript.Emit.Reader
import RustScript.Source.Numeral

namespace RustScript.Source

/-! ## Numerals -/

/-- The bases in which an integer can be written. -/
inductive Radix where
  | binary
  | octal
  | decimal
  | hexadecimal
  deriving DecidableEq, Repr

namespace Radix

def base : Radix → Nat
  | binary => 2
  | octal => 8
  | decimal => 10
  | hexadecimal => 16

def mark : Radix → List Char
  | binary => ['0', 'b']
  | octal => ['0', 'o']
  | decimal => []
  | hexadecimal => ['0', 'x']

/-- The characters that are digits; a letter may be a capital. -/
def alphabet : Radix → List Char
  | binary => "01".toList
  | octal => "01234567".toList
  | decimal => "0123456789".toList
  | hexadecimal => "0123456789abcdefABCDEF".toList

end Radix

/-- The number that a digit stands for. -/
def digitValue (c : Char) : Nat := "0123456789abcdef".toList.idxOf c.toLower

/-- An integer as it is written, underscores apart. -/
structure Numeral where
  radix : Radix
  digits : List Char
  suffix : String := ""
  nonempty : digits ≠ []
  mem_alphabet : ∀ c ∈ digits, c ∈ radix.alphabet
  known : suffix ∈ integerSuffixes

/-- The second text is the first one with underscores put in. -/
inductive Spaced : List Char → List Char → Prop where
  | nil : Spaced [] []
  | char (c : Char) {cs ds : List Char} (h : Spaced cs ds) : Spaced (c :: cs) (c :: ds)
  | underscore {cs ds : List Char} (h : Spaced cs ds) : Spaced cs ('_' :: ds)

namespace Numeral

/-- The number that the digits stand for. -/
def value (n : Numeral) : Nat := Nat.ofDigits n.radix.base (n.digits.map digitValue).reverse

/-- The characters of a numeral without underscores. -/
def chars (n : Numeral) : List Char := n.radix.mark ++ n.digits ++ n.suffix.toList

/-- The text is a way to write the numeral. -/
def Spells (n : Numeral) (text : String) : Prop :=
  ∃ c cs ds, n.chars = c :: cs ∧ text.toList = c :: ds ∧ Spaced cs ds

end Numeral

/-! ## Digits and suffixes -/

theorem forall_mem_of_all {p : Char → Prop} [DecidablePred p] {cs : List Char}
    (h : cs.all (p ·) = true) : ∀ c ∈ cs, p c :=
  fun c hc => of_decide_eq_true (List.all_eq_true.mp h c hc)

theorem Radix.alphabet_facts (r : Radix) : ∀ c ∈ r.alphabet,
    hexDigit? c = some (digitValue c) ∧ isDigitIn r.base c = true ∧ c ≠ '_' ∧ c ≠ '\n' := by
  apply forall_mem_of_all
  cases r <;> decide

theorem decimal_facts : ∀ c ∈ Radix.decimal.alphabet,
    Reading.decimal? c = some (digitValue c) ∧ Text.isDecimal c = true ∧ c ∉ ['x', 'o', 'b'] ∧
      digitValue c = c.toNat - '0'.toNat := by
  apply forall_mem_of_all
  decide

theorem suffix_facts : ∀ suffix ∈ integerSuffixes,
    (suffix == "f32" || suffix == "f64") = false ∧ '_' ∉ suffix.toList ∧
      suffix.toList.getLast? ≠ some '\n' ∧
      suffix.toList.head?.all (fun c => c == 'i' || c == 'u') = true := by
  decide

theorem mapM_eq_some_map {α β : Type} {f : α → Option β} {k : α → β} {xs : List α}
    (h : ∀ x ∈ xs, f x = some (k x)) : xs.mapM f = some (xs.map k) := by
  induction xs with
  | nil => rfl
  | cons x xs ih =>
    obtain ⟨hx, hxs⟩ := List.forall_mem_cons.mp h
    simp [hx, ih hxs]

theorem ofDigits_eq (base : Nat) (ds : List Nat) :
    Reading.ofDigits base ds = Nat.ofDigits base ds.reverse := by
  rw [Nat.ofDigits_eq_foldr, List.foldr_reverse, Reading.ofDigits]
  simp only [Nat.cast_id, Nat.mul_comm base, Nat.add_comm]

/-! ## Spellings -/

theorem Spaced.dropUnderscores_eq {cs ds : List Char} (h : Spaced cs ds) :
    dropUnderscores ds = dropUnderscores cs := by
  induction h with
  | nil => rfl
  | char c _ ih => simp only [dropUnderscores, List.filter_cons] at ih ⊢; rw [ih]
  | underscore _ ih => exact ih

theorem Spaced.refl : ∀ cs : List Char, Spaced cs cs
  | [] => .nil
  | c :: cs => .char c (refl cs)

namespace Numeral

variable {n : Numeral} {text : String}

theorem facts (n : Numeral) {c : Char} (hc : c ∈ n.digits) :
    hexDigit? c = some (digitValue c) ∧ isDigitIn n.radix.base c = true ∧ c ≠ '_' ∧ c ≠ '\n' :=
  n.radix.alphabet_facts c (n.mem_alphabet c hc)

theorem mem_decimal (n : Numeral) (h : n.radix = .decimal) :
    ∀ c ∈ n.digits, c ∈ Radix.decimal.alphabet :=
  h ▸ n.mem_alphabet

theorem dropUnderscores_chars (n : Numeral) : dropUnderscores n.chars = n.chars := by
  refine List.filter_eq_self.mpr fun c hc => bne_iff_ne.mpr ?_
  rw [chars, List.mem_append, List.mem_append] at hc
  rcases hc with (hc | hc) | hc
  · have hmark (r : Radix) : ∀ c ∈ r.mark, c ≠ '_' := by
      apply forall_mem_of_all
      cases r <;> decide
    exact hmark n.radix c hc
  · exact (n.facts hc).2.2.1
  · rintro rfl
    exact (suffix_facts _ n.known).2.1 hc

theorem Spells.dropUnderscores_eq (h : n.Spells text) : dropUnderscores text.toList = n.chars := by
  obtain ⟨c, cs, ds, hchars, htext, hspaced⟩ := h
  rw [htext, (hspaced.char c).dropUnderscores_eq, ← hchars, n.dropUnderscores_chars]

theorem spells_chars (n : Numeral) : n.Spells (String.ofList n.chars) := by
  have hne : n.chars ≠ [] := by simp [chars, n.nonempty]
  obtain ⟨c, cs, hcs⟩ := List.exists_cons_of_ne_nil hne
  exact ⟨c, cs, cs, hcs, String.toList_ofList.trans hcs, .refl cs⟩

theorem dropFinalNewline_chars (n : Numeral) : Name.dropFinalNewline n.chars = n.chars := by
  have hlast : n.chars.getLast? ≠ some '\n' := by
    rw [chars, List.getLast?_append]
    cases hsuffix : n.suffix.toList.getLast? with
    | some c => simpa [hsuffix] using (suffix_facts _ n.known).2.2.1
    | none =>
      have hc := (n.facts (List.getLast_mem n.nonempty)).2.2.2
      simpa [List.getLast?_append, List.getLast?_eq_some_getLast n.nonempty] using hc
  unfold Name.dropFinalNewline
  split
  · next rest hrev => exact absurd (by rw [List.getLast?_eq_head?_reverse, hrev]; rfl) hlast
  · rfl

theorem takeWhile_digits (n : Numeral) {p : Char → Bool} (hdigit : ∀ c ∈ n.digits, p c = true)
    (hi : p 'i' = false) (hu : p 'u' = false) :
    (n.digits ++ n.suffix.toList).takeWhile p = n.digits ∧
      (n.digits ++ n.suffix.toList).dropWhile p = n.suffix.toList := by
  rw [List.takeWhile_append_of_pos hdigit, List.dropWhile_append_of_pos hdigit]
  obtain ⟨-, -, -, hhead⟩ := suffix_facts _ n.known
  cases hcs : n.suffix.toList with
  | nil => exact ⟨List.append_nil _, rfl⟩
  | cons c cs =>
    have hp : p c = false := by
      obtain rfl | rfl : c = 'i' ∨ c = 'u' := by simpa [hcs] using hhead
      · exact hi
      · exact hu
    rw [List.takeWhile_cons_of_neg (by simp [hp]), List.dropWhile_cons_of_neg (by simp [hp])]
    exact ⟨List.append_nil _, rfl⟩

theorem unmarked (n : Numeral) (h : n.radix = .decimal) {c : Char} {cs : List Char}
    (hchars : n.digits ++ n.suffix.toList = '0' :: c :: cs) : c ∉ ['x', 'o', 'b'] := by
  have hmem := n.mem_decimal h
  obtain ⟨-, -, -, hhead⟩ := suffix_facts _ n.known
  rcases hdigits : n.digits with _ | ⟨d, _ | ⟨e, ds⟩⟩
  · exact absurd hdigits n.nonempty
  · rw [hdigits] at hchars
    have hsuffix : n.suffix.toList = c :: cs := (List.cons.inj hchars).2
    obtain rfl | rfl : c = 'i' ∨ c = 'u' := by simpa [hsuffix] using hhead
    · decide
    · decide
  · rw [hdigits] at hchars hmem
    obtain rfl := (List.cons.inj (List.cons.inj hchars).2).1
    exact (decimal_facts e (hmem e (by simp))).2.2.1

theorem splitInteger_chars (n : Numeral) :
    splitInteger n.chars = (n.radix.base, n.digits, n.suffix.toList) := by
  have hunmarked := @n.unmarked
  obtain ⟨htake, hdrop⟩ := n.takeWhile_digits (fun c hc => (n.facts hc).2.1)
    (by cases n.radix <;> decide) (by cases n.radix <;> decide)
  have hdecimal (h : n.radix = .decimal) := n.takeWhile_digits
    (fun c hc => (decimal_facts c (n.mem_decimal h c hc)).2.1) (by decide) (by decide)
  obtain ⟨d, ds, hdigits⟩ := List.exists_cons_of_ne_nil n.nonempty
  unfold splitInteger chars
  cases hradix : n.radix with
  | decimal =>
    rw [Radix.mark, List.nil_append]
    split
    · next heq => exact absurd (by simp) (hunmarked hradix heq)
    · next heq => exact absurd (by simp) (hunmarked hradix heq)
    · next heq => exact absurd (by simp) (hunmarked hradix heq)
    · obtain ⟨htake, hdrop⟩ := hdecimal hradix
      simp only [Option.getD_none, htake, hdrop]
      rfl
  | binary | octal | hexadecimal =>
    rw [hradix] at htake hdrop
    simp only [Radix.base] at htake hdrop
    simp only [Radix.mark, Radix.base, List.cons_append, List.nil_append, htake, hdrop]
    simp [hdigits]

/-- In base ten a spelling is limited in length. Within that it is read as its number. -/
theorem integer_eq (h : n.Spells text) :
    integer text =
      if n.radix = .decimal ∧ Reading.maxDigits < n.digits.length then .error (.fault .badNumber)
      else .ok (.int n.value) := by
  obtain ⟨hfloat, -⟩ := suffix_facts _ n.known
  have hknown : integerSuffixes.contains n.suffix = true := List.contains_iff_mem.mpr n.known
  have hnonempty : n.digits.isEmpty = false := by simpa using n.nonempty
  unfold integer
  simp only [h.dropUnderscores_eq, n.dropFinalNewline_chars, n.splitInteger_chars,
    String.ofList_toList, hnonempty, hfloat, hknown, Bool.false_eq_true, if_false, if_true]
  have hvalues : n.digits.mapM hexDigit? = some (n.digits.map digitValue) :=
    mapM_eq_some_map fun c hc => (n.facts hc).1
  have hvalue : Reading.ofDigits n.radix.base (n.digits.map digitValue) = n.value := ofDigits_eq _ _
  cases hradix : n.radix with
  | decimal =>
    have hdecimal : n.digits.mapM Reading.decimal? = some (n.digits.map digitValue) :=
      mapM_eq_some_map fun c hc => (decimal_facts c (n.mem_decimal hradix c hc)).1
    rw [hradix, Radix.base] at hvalue
    by_cases hlong : Reading.maxDigits < n.digits.length
    · simp [Radix.base, Reading.natural?, hlong]
    · simp [Radix.base, Reading.natural?, hlong, hdecimal, hvalue, n.nonempty]
  | binary | octal | hexadecimal =>
    rw [hradix, Radix.base] at hvalue
    simp [Radix.base, hvalues, hvalue]

end Numeral

/-! ## The decimal numeral of a number -/

theorem mem_alphabet_of_mem_toDigits (n : Nat) :
    ∀ c ∈ Nat.toDigits 10 n, c ∈ Radix.decimal.alphabet := by
  intro c hc
  have hdigit := Nat.isDigit_of_mem_toDigits (by decide) (by decide) hc
  obtain ⟨hge, hle⟩ := Char.isDigit_iff_toNat.mp hdigit
  have hall : ∀ k < 58, 48 ≤ k → Char.ofNat k ∈ Radix.decimal.alphabet := by decide
  rw [← Char.ofNat_toNat c]
  exact hall c.toNat (Nat.lt_succ_of_le hle) hge

/-- The numeral that is written for a number. -/
def Numeral.ofNat (n : Nat) : Numeral where
  radix := .decimal
  digits := Nat.toDigits 10 n
  nonempty := Nat.toDigits_ne_nil
  mem_alphabet := mem_alphabet_of_mem_toDigits n
  known := List.mem_cons_self

namespace Numeral

theorem value_ofNat (n : Nat) : (ofNat n).value = n := by
  have hten := @Nat.ofDigitChars_ten_toDigits n
  rw [Nat.ofDigitChars_eq_foldl] at hten
  have hvalues : (Nat.toDigits 10 n).map digitValue =
      (Nat.toDigits 10 n).map fun c => c.toNat - '0'.toNat :=
    List.map_congr_left fun c hc => (decimal_facts c (mem_alphabet_of_mem_toDigits n c hc)).2.2.2
  rw [value, ← ofDigits_eq, Reading.ofDigits, ofNat, hvalues, List.foldl_map]
  simpa only [Radix.base, Nat.mul_comm] using hten

theorem chars_ofNat (n : Nat) : String.ofList (ofNat n).chars = toString n := by
  rw [Nat.toString_eq_ofList_toDigits]
  exact congrArg String.ofList (List.append_nil _)

end Numeral

/-- Every spelling of an integer is read as the number that its digits stand for, whatever its base,
    its type and its underscores, unless it has more digits in base ten than a numeral may have:
    then it is refused as a bad number, whatever stands behind the digits. The text that is emitted
    for a number is a spelling of it, and is read back as the number. -/
theorem integer_literals_keep_their_value :
    (∀ (n : Numeral) (text : String), n.Spells text → integer text =
        if n.radix = .decimal ∧ Reading.maxDigits < n.digits.length then
          .error (.fault .badNumber)
        else .ok (.int n.value)) ∧
    ∀ (n : Nat) (expand : MacroCall → Emit Js.Expr) (place : Place) (s : State),
      (toString n).length ≤ Reading.maxDigits →
      ∃ code, Emit.expr expand (.lit (.int n)) .value place s = (.ok code, s) ∧
        code.text = toString n ∧ integer code.text = .ok (.int n) := by
  refine ⟨fun n text => Numeral.integer_eq, fun n expand place s hlength => ?_⟩
  rw [Nat.toString_eq_ofList_toDigits, String.length_ofList] at hlength
  have hwritable : (Literal.int n).isWritable = true := decide_eq_true hlength
  have hread := Numeral.integer_eq (Numeral.ofNat n).spells_chars
  rw [if_neg fun hlong => Nat.not_lt.mpr hlength hlong.2, Numeral.value_ofNat,
    Numeral.chars_ofNat] at hread
  refine ⟨.atom (toString n), ?_, rfl, hread⟩
  change Emit.literal (.int n) place s = _
  simp only [Emit.literal, Literal.text?, hwritable]
  rfl

/-- The numeral `0x1F32u8`, with underscores in it, and the number that it stands for. -/
theorem hexadecimal_numeral_keeps_its_value :
    integer "0_x1_F3__2u_8" = .ok (.int 7986) ∧
    ∃ code, Emit.expr (fun _ => throw (.fault .nesting)) (.lit (.int 7986)) .value {} {} =
        (.ok code, {}) ∧
      integer code.text = .ok (.int 7986) := by
  let n : Numeral := {
    radix := .hexadecimal, digits := ['1', 'F', '3', '2'], suffix := "u8"
    nonempty := by simp, mem_alphabet := forall_mem_of_all (by decide), known := by decide }
  have hspells : n.Spells "0_x1_F3__2u_8" := by
    refine ⟨'0', "x1F32u8".toList, "_x1_F3__2u_8".toList, by decide, by decide, ?_⟩
    change Spaced ['x', '1', 'F', '3', '2', 'u', '8'] ['_', 'x', '1', '_', 'F', '3', '_', '_', '2',
      'u', '_', '8']
    exact .underscore (.char _ (.char _ (.underscore (.char _ (.char _ (.underscore (.underscore
      (.char _ (.char _ (.underscore (.char _ .nil)))))))))))
  obtain ⟨hread, hwrite⟩ := integer_literals_keep_their_value
  obtain ⟨code, hcode, -, hback⟩ := hwrite 7986 (fun _ => throw (.fault .nesting)) {} {} (by decide)
  have hvalue : n.value = 7986 := by
    rw [Numeral.value, ← ofDigits_eq]
    decide
  refine ⟨?_, code, hcode, hback⟩
  rw [hread n _ hspells, if_neg (by decide), hvalue]
  rfl

theorem mem_alphabet_replicate (k : Nat) :
    ∀ c ∈ '1' :: List.replicate k '0', c ∈ Radix.decimal.alphabet := by
  intro c hc
  rcases List.mem_cons.mp hc with rfl | hc
  · decide
  · rw [List.eq_of_mem_replicate hc]
    decide

/-- A one with zeros behind it. -/
def Numeral.powerOfTen (zeros : Nat) : Numeral where
  radix := .decimal
  digits := '1' :: List.replicate zeros '0'
  nonempty := List.cons_ne_nil _ _
  mem_alphabet := mem_alphabet_replicate zeros
  known := List.mem_cons_self

/-- A one with 4300 zeros behind it is not read as its number. -/
theorem numeral_with_a_digit_too_many_is_not_read :
    let n := Numeral.powerOfTen 4300
    let text := String.ofList n.chars
    n.Spells text ∧ integer text ≠ .ok (.int n.value) := by
  intro n text
  have hspells : n.Spells text := n.spells_chars
  have hlength : n.digits.length = 4300 + 1 :=
    (List.length_cons ..).trans (congrArg (· + 1) List.length_replicate)
  have hlong : Reading.maxDigits < n.digits.length := hlength ▸ Nat.lt_succ_self 4300
  refine ⟨hspells, ?_⟩
  rw [Numeral.integer_eq hspells, if_pos ⟨rfl, hlong⟩]
  simp only [ne_eq, reduceCtorEq, not_false_eq_true]

end RustScript.Source
