/-
  How JavaScript reads the conditions of patterns.

  Each place, literal and test has a term, and its text is read as that term. A list of tests is
  read as one row of all their conditions, from left to right (`written_condition`).
-/
import RustScript.Js.Test
import RustScript.Proofs.Js.Eval

namespace RustScript

namespace Js

theorem Written.between {level : Nat} {a b op sep : String} {t u : Term}
    (hop : binaryLevel? op = some level) (hsep : sep = " " ++ op ++ " ")
    (ha : Written level a t) (hb : Written (level + 1) b u) :
    Written level (a ++ sep ++ b) (.binary op t u) := by
  have h := Written.binary hop ha hb
  rwa [hsep, ← String.append_assoc, ← String.append_assoc]

/-! ## Places -/

/-- The term of an integer; a negative one is an operation. -/
def intTerm : Int → Term
  | .ofNat n => .number n
  | .negSucc n => .unary "-" (.number (n + 1))

/-- The term of a place. -/
def Access.term : Access → Term
  | root name => .word name
  | slot base i => .index base.term (intTerm i)
  | fromEnd base distance =>
    .index base.term (.binary "-" (.member base.term "length") (.number distance))
  | prop base name => .member base.term name

/-- A place that is reached from a name by names and numbers. -/
def Access.Readable : Access → Prop
  | root name => isOperand name
  | slot base i => base.Readable ∧ i.natAbs ≤ exactLimit
  | fromEnd base distance => base.Readable ∧ distance ≤ exactLimit
  | prop base name => base.Readable ∧ isName name

theorem head_toString_ne_minus (n : Nat) : (toString n).toList.head? ≠ some '-' := by
  intro h
  have := isDigit_of_mem_toString (List.mem_of_head? h)
  exact absurd this (by decide)

theorem written_int (i : Int) : Written prefixLevel (toString i) (intTerm i) := by
  cases i with
  | ofNat n => exact .number n
  | negSucc n => exact (Written.number (n + 1)).unary (.inl rfl) fun _ => head_toString_ne_minus _

theorem Access.written {a : Access} (h : a.Readable) : Written suffixLevel a.text a.term := by
  induction a with
  | root name => exact .word h
  | slot base i ih => exact (ih h.1).index (written_int i)
  | fromEnd base distance ih =>
    have hlength : Written suffixLevel (base.text ++ ".length") (.member base.term "length") := by
      have := (ih h.1).member (show isName "length" by decide)
      rwa [String.append_assoc] at this
    have hback : Written 8 (base.text ++ ".length" ++ " - " ++ toString distance) _ :=
      .between (by decide) (show " - " = " " ++ "-" ++ " " from rfl)
        (hlength.loosen (by decide)) ((Written.number distance).loosen (by decide))
    have htext : (fromEnd base distance).text =
        base.text ++ "[" ++ (base.text ++ ".length" ++ " - " ++ toString distance) ++ "]" := by
      rw [Access.text, show ".length - " = ".length" ++ " - " from rfl]
      simp only [String.append_assoc]
    rw [htext]
    exact (ih h.1).index hback
  | prop base name ih => exact (ih h.1).member h.2

theorem rounded_int {i : Int} (h : i.natAbs ≤ exactLimit) : (intTerm i).rounded = intTerm i := by
  cases i with
  | ofNat n => exact readNumber_eq h
  | negSucc n => exact congrArg (Term.unary "-") (readNumber_eq h)

theorem Access.rounded_term {a : Access} (h : a.Readable) : a.term.rounded = a.term := by
  induction a with
  | root name => rfl
  | slot base i ih => rw [term, Term.rounded, ih h.1, rounded_int h.2]
  | fromEnd base distance ih => simp only [term, Term.rounded, ih h.1, readNumber_eq h.2]
  | prop base name ih => rw [term, Term.rounded, ih h.1]

theorem Access.term_eq_of_text_eq {a b : Access} (ha : a.Readable) (hb : b.Readable)
    (h : a.text = b.text) : a.term = b.term := by
  have hread := ((Access.written ha).readsAs_iff a.term).mpr rfl
  rw [h] at hread
  exact ((Access.written hb).readsAs_iff a.term).mp hread

end Js

/-! ## Literals -/

/-- What the text of a literal says. A number with a fraction has no term here. -/
def Literal.term : Literal → Js.Term
  | int n => .number n.toNat
  | float _ => .word "NaN"
  | str s => .str s
  | char s => .str s
  | bool b => .word (if b then "true" else "false")

/-- The term of a literal in a pattern. -/
def LitPat.term (p : LitPat) : Js.Term := if p.negative then .unary "-" p.lit.term else p.lit.term

/-- A literal pattern with a term: the sign stands before an integer, which has none of its own and
    is read as it is. -/
def LitPat.Readable (p : LitPat) : Prop :=
  match p.lit with
  | .int n => 0 ≤ n ∧ n ≤ Js.exactLimit
  | .float _ => False
  | _ => p.negative = false

theorem LitPat.written {p : LitPat} (h : p.Readable) :
    Js.Written Js.prefixLevel p.spelling p.term := by
  obtain ⟨value, negative⟩ := p
  have hle : Js.prefixLevel ≤ Js.suffixLevel := by decide
  cases value with
  | int n =>
    obtain ⟨k, rfl⟩ := Int.eq_ofNat_of_zero_le h.1
    cases negative with
    | true => exact (Js.Written.number k).unary (.inl rfl) fun _ => Js.head_toString_ne_minus k
    | false => exact Js.Written.number k
  | float x => exact absurd h id
  | str s =>
    obtain rfl : negative = false := h
    exact (Js.Written.quoted s).loosen hle
  | char s =>
    obtain rfl : negative = false := h
    exact (Js.Written.quoted s).loosen hle
  | bool b =>
    obtain rfl : negative = false := h
    have hb : Js.isOperand (if b then "true" else "false") := by cases b <;> decide
    exact (Js.Written.word hb).loosen hle

theorem LitPat.rounded_term {p : LitPat} (h : p.Readable) : p.term.rounded = p.term := by
  obtain ⟨value, negative⟩ := p
  have hvalue : value.term.rounded = value.term := by
    cases value with
    | int n => exact Js.readNumber_eq (Int.toNat_le.mpr h.2)
    | _ => rfl
  cases negative with
  | true => exact congrArg (Js.Term.unary "-") hvalue
  | false => exact hvalue

/-! ## Tests -/

namespace Js

/-- The term of what a place is compared with. -/
def Operand.term : Operand → Term
  | literal value => value.term
  | constant target => .word target
  | word name => .str name

def Operand.Readable : Operand → Prop
  | literal value => value.Readable
  | constant target => isOperand target
  | word name => isName name

theorem Operand.written {o : Operand} (h : o.Readable) : Written prefixLevel o.text o.term := by
  cases o with
  | literal value => exact LitPat.written h
  | constant target => exact (Written.word h).loosen (by decide)
  | word name => exact (Written.quotedName h).loosen (by decide)

theorem Operand.rounded_term {o : Operand} (h : o.Readable) : o.term.rounded = o.term := by
  cases o with
  | literal value => exact LitPat.rounded_term h
  | constant target => rfl
  | word name => rfl

namespace Test

mutual

/-- The conditions that the text of a test consists of. -/
def terms : Test → List Term
  | isNull p =>
    [.binary "||" (.binary "===" p.term (.word "null")) (.binary "===" p.term (.word "undefined"))]
  | notNull p => [.binary "!==" p.term (.word "null"), .binary "!==" p.term (.word "undefined")]
  | equals p o => [.binary "===" p.term o.term]
  | atLeast p b => [.binary ">=" p.term b.term]
  | atMost p b => [.binary "<=" p.term b.term]
  | lessThan p b => [.binary "<" p.term b.term]
  | length p exact count =>
    [.call (.member (.word "Array") "isArray") p.term,
     .binary (if exact then "===" else ">=") (.member p.term "length") (.number count)]
  | hasKey key p => [.binary "in" (.str key) p.term]
  | oneOf alternatives => [row false (alternativeTerms alternatives)]

/-- The conditions of all tests, from left to right. -/
def allTerms : List Test → List Term
  | [] => []
  | t :: ts => t.terms ++ allTerms ts

/-- One condition for each alternative. -/
def alternativeTerms : List (List Test) → List Term
  | [] => []
  | ts :: alternatives => row true (allTerms ts) :: alternativeTerms alternatives

end

mutual

/-- A test that can be read: its places and operands can, and a choice is one of something. -/
def Readable : Test → Prop
  | isNull p => p.Readable
  | notNull p => p.Readable
  | equals p o => p.Readable ∧ o.Readable
  | atLeast p b => p.Readable ∧ b.Readable
  | atMost p b => p.Readable ∧ b.Readable
  | lessThan p b => p.Readable ∧ b.Readable
  | length p _ count => p.Readable ∧ count ≤ exactLimit
  | hasKey key p => isName key ∧ p.Readable
  | oneOf alternatives => alternatives ≠ [] ∧ AlternativesReadable alternatives

def AllReadable : List Test → Prop
  | [] => True
  | t :: ts => t.Readable ∧ AllReadable ts

def AlternativesReadable : List (List Test) → Prop
  | [] => True
  | ts :: alternatives => ts ≠ [] ∧ AllReadable ts ∧ AlternativesReadable alternatives

end

end Test

/-! ## Rows -/

/-- The precedence of `&&`, or of `||`. -/
def rowLevel (all : Bool) : Nat := if all then 1 else 0

/-- The text is a row of conditions, with the operator between blanks. -/
inductive WrittenRow (all : Bool) : String → List Term → Prop where
  | one {a : String} {t : Term} : Written (rowLevel all + 1) a t → WrittenRow all a [t]
  | more {a b : String} {ts : List Term} {t : Term} :
      WrittenRow all a ts → Written (rowLevel all + 1) b t →
      WrittenRow all (a ++ (" " ++ junctor all ++ " ") ++ b) (ts ++ [t])

namespace WrittenRow

variable {all : Bool} {a b : String} {ts us : List Term}

theorem ne_nil (h : WrittenRow all a ts) : ts ≠ [] := by cases h <;> simp

theorem written (h : WrittenRow all a ts) : Written (rowLevel all) a (row all ts) := by
  induction h with
  | one h => exact h.loosen (Nat.le_succ _)
  | @more a b ts t h hb ih =>
    have hlevel : binaryLevel? (junctor all) = some (rowLevel all) := by cases all <;> decide
    obtain ⟨u, us, rfl⟩ := List.exists_cons_of_ne_nil h.ne_nil
    have hrow : row all (u :: us ++ [t]) = .binary (junctor all) (row all (u :: us)) t := by
      simp [row]
    rw [hrow]
    exact .between hlevel rfl ih hb

theorem append (ha : WrittenRow all a ts) (hb : WrittenRow all b us) :
    WrittenRow all (a ++ (" " ++ junctor all ++ " ") ++ b) (ts ++ us) := by
  induction hb with
  | one h => exact ha.more h
  | more _ h ih =>
    have := ih.more h
    simpa only [String.append_assoc, List.append_assoc] using this

end WrittenRow

namespace Test

variable {p : Access}

theorem written_relation (hp : p.Readable) (op : String) {sep : String}
    (hop : (binaryLevel? op).any (2 ≤ ·)) (hsep : sep = " " ++ op ++ " ") {b : String} {t : Term}
    (hb : Written prefixLevel b t) : Written 2 (p.text ++ sep ++ b) (.binary op p.term t) := by
  cases hlevel : binaryLevel? op with
  | none => simp [hlevel] at hop
  | some level =>
    have hlt : level < prefixLevel := binaryLevel?_lt hlevel
    have hle : level ≤ suffixLevel := Nat.le_of_lt (Nat.lt_of_lt_of_le hlt (by decide))
    have hrel := Written.between hlevel hsep ((Access.written hp).loosen hle) (hb.loosen hlt)
    exact hrel.loosen (by simpa [hlevel] using hop)

theorem written_word {w : String} (h : isOperand w) : Written prefixLevel w (.word w) :=
  (Written.word h).loosen (by decide)

theorem writtenRow_isNull (hp : p.Readable) : WrittenRow true (isNull p).text (isNull p).terms := by
  have hnull : Written 2 (p.text ++ " === " ++ "null") _ :=
    written_relation hp "===" (by decide) rfl (written_word (by decide))
  have hundef : Written 2 (p.text ++ " === " ++ "undefined") _ :=
    written_relation hp "===" (by decide) rfl (written_word (by decide))
  have heither := Written.between (show binaryLevel? "||" = some 0 by decide)
    (show " || " = " " ++ "||" ++ " " from rfl) (hnull.loosen (Nat.zero_le _))
    (hundef.loosen (by decide))
  have htext : (isNull p).text =
      "(" ++ (p.text ++ " === " ++ "null" ++ " || " ++ (p.text ++ " === " ++ "undefined")) ++
        ")" := by
    change "(" ++ p.text ++ " === null || " ++ p.text ++ " === undefined)" = _
    rw [show " === null || " = " === " ++ "null" ++ " || " from rfl,
      show " === undefined)" = " === " ++ "undefined" ++ ")" from rfl]
    simp only [String.append_assoc]
  rw [htext]
  exact .one (heither.paren.loosen (by decide))

theorem writtenRow_notNull (hp : p.Readable) :
    WrittenRow true (notNull p).text (notNull p).terms := by
  have hnull : Written 2 (p.text ++ " !== " ++ "null") _ :=
    written_relation hp "!==" (by decide) rfl (written_word (by decide))
  have hundef : Written 2 (p.text ++ " !== " ++ "undefined") _ :=
    written_relation hp "!==" (by decide) rfl (written_word (by decide))
  have htext : (notNull p).text =
      p.text ++ " !== " ++ "null" ++ (" " ++ junctor true ++ " ") ++
        (p.text ++ " !== " ++ "undefined") := by
    change p.text ++ " !== null && " ++ p.text ++ " !== undefined" = _
    rw [show " !== null && " = " !== " ++ "null" ++ (" " ++ junctor true ++ " ") from rfl,
      show " !== undefined" = " !== " ++ "undefined" from rfl]
    simp only [String.append_assoc]
  rw [htext]
  exact (WrittenRow.one hnull : WrittenRow true _ _).more hundef

theorem writtenRow_length (hp : p.Readable) (exact : Bool) (count : Nat) :
    WrittenRow true (length p exact count).text (length p exact count).terms := by
  have harray : Written suffixLevel ("Array" ++ "." ++ "isArray" ++ "(" ++ p.text ++ ")") _ :=
    ((Written.word (by decide)).member (by decide)).call (Access.written hp)
  have hlength : (Access.prop p "length").Readable := ⟨hp, by decide⟩
  have hop : (binaryLevel? (if exact then "===" else ">=")).any (2 ≤ ·) := by cases exact <;> decide
  have hcount := written_relation hlength _ hop rfl (.number count)
  have htext : (length p exact count).text =
      "Array" ++ "." ++ "isArray" ++ "(" ++ p.text ++ ")" ++ (" " ++ junctor true ++ " ") ++
        ((Access.prop p "length").text ++ (" " ++ (if exact then "===" else ">=") ++ " ") ++
          toString count) := by
    change "Array.isArray(" ++ p.text ++ ") && " ++ p.text ++ ".length " ++
      (if exact then "===" else ">=") ++ " " ++ toString count = _
    rw [Access.text, show "Array.isArray(" = "Array" ++ "." ++ "isArray" ++ "(" from rfl,
      show ") && " = ")" ++ (" " ++ junctor true ++ " ") from rfl,
      show ".length " = "." ++ "length" ++ " " from rfl]
    simp only [String.append_assoc]
  rw [htext]
  exact .more (.one (harray.loosen (by decide))) hcount

theorem writtenRow_hasKey {key : String} (hkey : isName key) (hp : p.Readable) :
    WrittenRow true (hasKey key p).text (hasKey key p).terms := by
  have hin := Written.between (show binaryLevel? "in" = some 6 by decide)
    (show " in " = " " ++ "in" ++ " " from rfl) ((Written.quotedName hkey).loosen (by decide))
    ((Access.written hp).loosen (by decide))
  have htext : (hasKey key p).text = "\"" ++ key ++ "\"" ++ " in " ++ p.text := by
    change "\"" ++ key ++ "\" in " ++ p.text = _
    rw [show "\" in " = "\"" ++ " in " from rfl]
    simp only [String.append_assoc]
  rw [htext]
  exact .one (hin.loosen (by decide))

theorem writtenRow_alternative (ts : List Test) {a : String} {us : List Term}
    (h : WrittenRow true a us) :
    Written (rowLevel false + 1) (if 1 < ts.length then "(" ++ a ++ ")" else a) (row true us) := by
  split
  · exact h.written.paren.loosen (by decide)
  · exact h.written

mutual

/-- The text of a test is the row of its conditions. -/
theorem writtenRow (t : Test) (h : t.Readable) : WrittenRow true t.text t.terms := by
  cases t with
  | isNull p => exact writtenRow_isNull h
  | notNull p => exact writtenRow_notNull h
  | equals p o => exact .one (written_relation h.1 "===" (by decide) rfl (Operand.written h.2))
  | atLeast p b => exact .one (written_relation h.1 ">=" (by decide) rfl (LitPat.written h.2))
  | atMost p b => exact .one (written_relation h.1 "<=" (by decide) rfl (LitPat.written h.2))
  | lessThan p b => exact .one (written_relation h.1 "<" (by decide) rfl (LitPat.written h.2))
  | length p exact count => exact writtenRow_length h.1 exact count
  | hasKey key p => exact writtenRow_hasKey h.1 h.2
  | oneOf alternatives =>
    have hrow := writtenRow_alternatives alternatives h.1 h.2
    exact .one (hrow.written.paren.loosen (by decide))

theorem writtenRow_all : ∀ (ts : List Test), ts ≠ [] → AllReadable ts →
    WrittenRow true (" && ".intercalate (texts ts)) (allTerms ts)
  | [], hne, _ => absurd rfl hne
  | [t], _, h => by
    have ht := writtenRow t h.1
    rw [texts, texts, String.intercalate_singleton, allTerms, allTerms, List.append_nil]
    exact ht
  | t :: u :: ts, _, h => by
    have ht := writtenRow t h.1
    have hts := writtenRow_all (u :: ts) (List.cons_ne_nil _ _) h.2
    rw [texts, allTerms,
      String.intercalate_cons_of_ne_nil (by rw [texts]; exact List.cons_ne_nil _ _)]
    exact ht.append hts

theorem writtenRow_alternatives : ∀ (alternatives : List (List Test)), alternatives ≠ [] →
    AlternativesReadable alternatives →
    WrittenRow false (" || ".intercalate (alternativeTexts alternatives))
      (alternativeTerms alternatives)
  | [], hne, _ => absurd rfl hne
  | [ts], _, h => by
    have hts := writtenRow_alternative ts (writtenRow_all ts h.1 h.2.1)
    rw [alternativeTexts, alternativeTexts, String.intercalate_singleton]
    exact .one hts
  | ts :: us :: alternatives, _, h => by
    have hts := writtenRow_alternative ts (writtenRow_all ts h.1 h.2.1)
    have hrest := writtenRow_alternatives (us :: alternatives) (List.cons_ne_nil _ _) h.2.2
    rw [alternativeTexts, alternativeTerms,
      String.intercalate_cons_of_ne_nil (by rw [alternativeTexts]; exact List.cons_ne_nil _ _)]
    exact (WrittenRow.one hts).append hrest

end

mutual

theorem rounded_terms : ∀ (t : Test), t.Readable → ∀ u ∈ t.terms, u.rounded = u
  | isNull p, h | notNull p, h => by simp [terms, Term.rounded, Access.rounded_term h]
  | equals p o, h => by
    simp [terms, Term.rounded, Access.rounded_term h.1, Operand.rounded_term h.2]
  | atLeast p b, h | atMost p b, h | lessThan p b, h => by
    simp [terms, Term.rounded, Access.rounded_term h.1, LitPat.rounded_term h.2]
  | length p exact count, h => by
    simp [terms, Term.rounded, Access.rounded_term h.1, readNumber_eq h.2]
  | hasKey key p, h => by simp [terms, Term.rounded, Access.rounded_term h.2]
  | oneOf alternatives, h => by
    simp [terms, rounded_row (rounded_alternativeTerms alternatives h.2)]

theorem rounded_allTerms : ∀ (ts : List Test), AllReadable ts → ∀ u ∈ allTerms ts, u.rounded = u
  | [], _ => List.forall_mem_nil _
  | t :: ts, h => by
    intro u hu
    rcases List.mem_append.mp hu with hu | hu
    · exact rounded_terms t h.1 u hu
    · exact rounded_allTerms ts h.2 u hu

theorem rounded_alternativeTerms : ∀ (alternatives : List (List Test)),
    AlternativesReadable alternatives → ∀ u ∈ alternativeTerms alternatives, u.rounded = u
  | [], _ => List.forall_mem_nil _
  | ts :: alternatives, h => List.forall_mem_cons.mpr
    ⟨rounded_row (rounded_allTerms ts h.2.1), rounded_alternativeTerms alternatives h.2.2⟩

end

/-- The condition that all tests of a list hold is read as the row of their conditions. -/
theorem written_condition {ts : List Test} (h : AllReadable ts) :
    Written 1 (condition ts) (row true (allTerms ts)) := by
  cases ts with
  | nil => exact (Written.word (show isOperand "true" by decide)).loosen (by decide)
  | cons t ts => exact (writtenRow_all (t :: ts) (List.cons_ne_nil _ _) h).written

end Test

end Js

end RustScript
