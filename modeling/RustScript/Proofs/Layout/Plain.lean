/-
  Names, numerals and conditions as neutral text.

  The targets of plain names, temporaries and numerals are plain. The conditions of a pattern are
  neutral if its names are plain and the subject is neutral.
-/
import RustScript.Proofs.Emit.Law
import RustScript.Proofs.Layout.Printed

namespace RustScript

open Layout (Neutral isPlain isPlainText isPlain_iff)

/-! ## Plain characters -/

namespace Layout

/-- The characters that the layout looks at. -/
def marks : List Char :=
  ['\n', '"', '\'', '/', '\\', Char.ofNat 0x60, '(', ')', '[', ']', '\x7b', '\x7d']

variable {c : Char} {s : String}

theorem mem_marks_of_not_plain (h : isPlain c = false) : c ∈ marks := by
  have htick : c.toNat = 0x60 → c = Char.ofNat 0x60 := by
    intro hc
    rw [← hc, Char.ofNat_toNat]
  simp only [isPlain, Bool.and_eq_false_iff, bne_eq_false_iff_eq] at h
  simp only [marks, List.mem_cons]
  grind

theorem isPlain_of_kind (kind : Char → Bool) (hkind : (marks.all fun c => !kind c) = true)
    (h : kind c = true) : isPlain c = true := by
  cases hc : isPlain c with
  | true => rfl
  | false =>
    have hno := List.all_eq_true.mp hkind c (mem_marks_of_not_plain hc)
    simp [h] at hno

theorem isPlain_of_isDigit (h : c.isDigit = true) : isPlain c = true :=
  isPlain_of_kind Char.isDigit (by decide) h

theorem isPlain_of_isDecimal (h : Text.isDecimal c = true) : isPlain c = true :=
  isPlain_of_kind Text.isDecimal (by decide) h

theorem isPlain_of_isWordChar (h : Js.isWordChar c = true) : isPlain c = true :=
  isPlain_of_kind Js.isWordChar (by decide) h

theorem isPlainText_append {t : String} :
    isPlainText (s ++ t) = (isPlainText s && isPlainText t) := by
  simp [isPlainText]

theorem Neutral.of_plainText (h : isPlainText s = true) : Neutral s.toList := .plain h

theorem Neutral.quoted (h : isPlainText s = true) : Neutral ("\"" ++ s ++ "\"").toList := by
  have hplain : ∀ c ∈ s.toList, isPlain c = true := List.all_eq_true.mp h
  have hraw : ∀ c ∈ s.toList, c ≠ '"' ∧ c ≠ '\\' := fun c hc =>
    ⟨(isPlain_iff.mp (hplain c hc)).2.1, (isPlain_iff.mp (hplain c hc)).2.2.2.2.1⟩
  have hline : '\n' ∉ s.toList := fun hmem => (isPlain_iff.mp (hplain _ hmem)).1 rfl
  refine ⟨fun p rest hcode hp hrest => ?_⟩
  have := EndsLevel.string hcode hp hline (stringTail_raw hraw) hrest
  simpa using this

end Layout

open Layout

/-! ## Names -/

theorem Name.isPlainText_target {name : String} (h : isPlainText name = true) :
    isPlainText (Name.target name) = true := by
  have hunraw : isPlainText (Name.unraw name) = true := by
    unfold Name.unraw
    split
    · next cs hcs =>
      unfold isPlainText at h
      rw [hcs, List.all_cons, List.all_cons] at h
      simp only [Bool.and_eq_true] at h
      simpa [isPlainText] using h.2.2
    · exact h
  unfold Name.target
  dsimp only
  split
  · rw [isPlainText_append, hunraw]
    decide
  · exact hunraw

theorem isPlainText_toString (n : Nat) : isPlainText (toString n) = true :=
  List.all_eq_true.mpr fun _ hc => isPlain_of_isDigit (Js.isDigit_of_mem_toString hc)

namespace Scopes

theorem isPlainText_suffixed {base : String} (h : isPlainText base = true) (n : Nat) :
    isPlainText (suffixed base n) = true := by
  rw [suffixed, isPlainText_append, isPlainText_append, h, isPlainText_toString]
  decide

theorem isPlainText_firstFree (s : Scopes) {base : String} (h : isPlainText base = true)
    (n tries : Nat) : isPlainText (s.firstFree base n tries) = true := by
  induction tries generalizing n with
  | zero => exact isPlainText_suffixed h n
  | succ tries ih =>
    rw [firstFree]
    split
    · exact ih (n + 1)
    · exact isPlainText_suffixed h n

theorem isPlainText_fresh (s : Scopes) {name : String} (h : isPlainText name = true) :
    isPlainText (s.fresh name) = true := by
  have htarget := Name.isPlainText_target h
  unfold fresh
  dsimp only
  split
  · exact isPlainText_firstFree s htarget 1 _
  · exact htarget

end Scopes

/-! ## Numerals and literals -/

theorem isPlain_of_mem_toDigits {n : Nat} {c : Char} (h : c ∈ Nat.toDigits 10 n) :
    isPlain c = true := by
  refine isPlain_of_isDigit (Js.isDigit_of_mem_toString (n := n) ?_)
  simpa [Nat.repr] using h

theorem isPlainText_int (i : Int) : isPlainText (toString i) = true := by
  cases i with
  | ofNat n => exact isPlainText_toString n
  | negSucc n =>
    have htext : toString (Int.negSucc n) = "-" ++ toString (n + 1) := rfl
    rw [htext, isPlainText_append, isPlainText_toString]
    decide

namespace Double

theorem plain_exponentText (exponent : Int) :
    (exponentText exponent).all Layout.isPlain = true := by
  have hsize : (Nat.toDigits 10 exponent.natAbs).all Layout.isPlain = true :=
    List.all_eq_true.mpr fun _ hc => isPlain_of_mem_toDigits hc
  have hzero : Layout.isPlain '0' = true := by decide
  have hmarks : Layout.isPlain 'e' = true ∧ Layout.isPlain '-' = true ∧
      Layout.isPlain '+' = true := by decide
  unfold exponentText
  rw [List.all_cons, List.all_cons, hmarks.1]
  split <;> split <;> simp [hsize, hzero, hmarks]

theorem plain_layout {d : Digits} (h : d.digits.all Layout.isPlain = true) :
    (layout d).all Layout.isPlain = true := by
  have hzero : Layout.isPlain '0' = true := by decide
  have hpoint : Layout.isPlain '.' = true := by decide
  have htake (n : Nat) : (d.digits.take n).all Layout.isPlain = true :=
    List.all_eq_true.mpr fun c hc => List.all_eq_true.mp h c (List.mem_of_mem_take hc)
  have hdrop (n : Nat) : (d.digits.drop n).all Layout.isPlain = true :=
    List.all_eq_true.mpr fun c hc => List.all_eq_true.mp h c (List.mem_of_mem_drop hc)
  unfold layout
  dsimp only
  split
  · split
    · simp [h, hzero, hpoint]
    · split
      · simp [h, hzero, hpoint]
      · simp [htake, hdrop, hpoint]
  · split
    · exact plain_exponentText _
    · next c hc =>
      rw [hc] at h
      rw [List.all_cons, plain_exponentText]
      simpa using h
    · next c cs hne hc =>
      rw [hc, List.all_cons] at h
      rw [List.all_append, List.all_cons, List.all_cons, plain_exponentText, hpoint]
      simpa using h

theorem plain_digits (m : Nat) (e : Int) :
    (Shortest.digits m e).digits.all Layout.isPlain = true := by
  refine List.all_eq_true.mpr fun c hc => ?_
  have hall := (List.dropWhile_suffix _).subset (List.mem_reverse.mp hc)
  exact isPlain_of_mem_toDigits (List.mem_reverse.mp hall)

theorem plain_signed {negative : Bool} {cs : List Char} (h : cs.all Layout.isPlain = true) :
    isPlainText (signed negative cs) = true := by
  have hminus : Layout.isPlain '-' = true := by decide
  cases negative
  · simpa [signed, isPlainText] using h
  · simpa [signed, isPlainText, hminus] using h

theorem isPlainText_toText (d : Double) : isPlainText d.toText = true := by
  unfold toText
  split
  · decide
  · exact plain_signed (by decide)
  · exact plain_signed (by decide)
  · exact plain_signed (plain_layout (plain_digits _ _))

end Double

theorem Literal.neutral_spelling (value : Literal) : Neutral value.spelling.toList := by
  cases value with
  | int value => exact .of_plainText (isPlainText_int value)
  | float value => exact .of_plainText value.isPlainText_toText
  | str value => exact .quote value
  | char value => exact .quote value
  | bool value => cases value <;> exact .code (by decide)

theorem LitPat.neutral_spelling (p : LitPat) : Neutral p.spelling.toList := by
  have hlit := p.lit.neutral_spelling
  unfold LitPat.spelling
  split
  · rw [String.toList_append]
    exact (Neutral.code (by decide)).append hlit
  · exact hlit

/-! ## Places and conditions -/

namespace Js

open Layout
open Spans (code neutral of_neutral)

variable {base : Access}

theorem Access.neutral_slot (h : Neutral base.text.toList) (index : Int) :
    Neutral (base.slot index).text.toList :=
  neutral ((((of_neutral h).lit rfl).text (.of_plainText (isPlainText_int index))).lit rfl)

theorem Access.neutral_fromEnd (h : Neutral base.text.toList) (distance : Nat) :
    Neutral (base.fromEnd distance).text.toList :=
  neutral ((((((of_neutral h).lit rfl).text h).lit rfl).text
    (.of_plainText (isPlainText_toString distance))).lit rfl)

theorem Access.neutral_prop (h : Neutral base.text.toList) {name : String}
    (hname : isPlainText name = true) : Neutral (base.prop name).text.toList :=
  neutral (((of_neutral h).lit rfl).text (.of_plainText hname))

namespace Test

theorem texts_eq_map (ts : List Test) : texts ts = ts.map text := by
  induction ts with
  | nil => rfl
  | cons t ts ih => exact congrArg (t.text :: ·) ih

theorem neutral_joined {ts : List Test} (h : ∀ t ∈ ts, Neutral t.text.toList) :
    Neutral (" && ".intercalate (texts ts)).toList := by
  refine neutral (Spans.intercalate (.code (by decide)) fun u hu => ?_)
  rw [texts_eq_map] at hu
  obtain ⟨t, ht, rfl⟩ := List.mem_map.mp hu
  exact h t ht

theorem neutral_condition {ts : List Test} (h : ∀ t ∈ ts, Neutral t.text.toList) :
    Neutral (condition ts).toList := by
  unfold condition
  split
  · exact .code (by decide)
  · exact neutral_joined h

variable {alternatives : List (List Test)}

theorem neutral_alternatives (h : ∀ ts ∈ alternatives, ∀ t ∈ ts, Neutral t.text.toList) :
    ∀ u ∈ alternativeTexts alternatives, Neutral u.toList := by
  induction alternatives with
  | nil =>
    intro u hu
    cases hu
  | cons ts alternatives ih =>
    have hjoined := neutral_joined (h ts List.mem_cons_self)
    intro u hu
    rcases List.mem_cons.mp hu with rfl | hu
    · split
      · exact neutral (((code rfl).text hjoined).lit rfl)
      · exact hjoined
    · exact ih (fun us hus => h us (List.mem_cons_of_mem ts hus)) u hu

variable {place : Access}

section

variable (h : Neutral place.text.toList)

include h

theorem neutral_isNull : Neutral (isNull place).text.toList :=
  neutral (((((code rfl).text h).lit rfl).text h).lit rfl)

theorem neutral_notNull : Neutral (notNull place).text.toList :=
  neutral ((((of_neutral h).lit rfl).text h).lit rfl)

theorem neutral_equals (operand : Operand)
    (hoperand : Neutral operand.text.toList) : Neutral (equals place operand).text.toList :=
  neutral (((of_neutral h).lit rfl).text hoperand)

theorem neutral_bound (p : LitPat) :
    Neutral (atLeast place p).text.toList ∧ Neutral (atMost place p).text.toList ∧
      Neutral (lessThan place p).text.toList := by
  have hp := p.neutral_spelling
  refine ⟨?_, ?_, ?_⟩
  · exact neutral (((of_neutral h).lit rfl).text hp)
  · exact neutral (((of_neutral h).lit rfl).text hp)
  · exact neutral (((of_neutral h).lit rfl).text hp)

theorem neutral_length (exact : Bool) (count : Nat) :
    Neutral (length place exact count).text.toList := by
  have hcount := isPlainText_toString count
  have hop : Spans [] [] (if exact then "===" else ">=") := by split <;> exact .code rfl
  exact neutral ((((((((code rfl).text h).lit rfl).text h).lit rfl).append hop).lit
    rfl).text (.of_plainText hcount))

theorem neutral_hasKey (key : String)
    (hkey : isPlainText key = true) : Neutral (hasKey key place).text.toList := by
  change Neutral ("\"" ++ key ++ "\" in " ++ place.text).toList
  have hquoted := Neutral.quoted hkey
  have htext : "\"" ++ key ++ "\" in " ++ place.text = "\"" ++ key ++ "\"" ++ " in " ++ place.text := by
    rw [show ("\" in " : String) = "\"" ++ " in " from rfl]
    simp only [String.append_assoc]
  rw [htext]
  exact neutral (((of_neutral hquoted).lit rfl).text h)

end

theorem neutral_oneOf (h : ∀ ts ∈ alternatives, ∀ t ∈ ts, Neutral t.text.toList) :
    Neutral (oneOf alternatives).text.toList :=
  neutral (((code rfl).append (.intercalate (.code (by decide)) (neutral_alternatives h))).lit rfl)

end Test

end Js

/-! ## Patterns -/

/-- The conditions are neutral, and so are the places whose values get a plain name. -/
structure Matcher.IsNeutral (m : Matcher) : Prop where
  tests : ∀ t ∈ m.tests, Neutral t.text.toList
  bindings : ∀ b ∈ m.bindings, Neutral b.place.text.toList ∧ isPlainText b.name = true

namespace Matcher.IsNeutral

theorem empty : IsNeutral {} := ⟨by simp, by simp⟩

theorem test {t : Js.Test} (h : Neutral t.text.toList) : IsNeutral (.test t) :=
  ⟨by simpa [Matcher.test] using h, by simp [Matcher.test]⟩

theorem append {m n : Matcher} (hm : m.IsNeutral) (hn : n.IsNeutral) : (m ++ n).IsNeutral where
  tests t ht := (List.mem_append.mp ht).elim (hm.tests t) (hn.tests t)
  bindings b hb := (List.mem_append.mp hb).elim (hm.bindings b) (hn.bindings b)

theorem bound {make : LitPat → Js.Test} (hmake : ∀ p, Neutral (make p).text.toList)
    {bound : Option LitPat} {m : Matcher} (h : Matcher.bound make bound = .ok m) : m.IsNeutral := by
  cases bound with
  | none =>
    cases h
    exact empty
  | some p =>
    obtain ⟨q, -, rfl⟩ := exists_of_return_eq_ok h
    exact test (hmake q)

theorem oneOf {ms : List Matcher} (hms : ∀ m ∈ ms, m.IsNeutral) {m : Matcher}
    (h : Matcher.oneOf ms = .ok m) : m.IsNeutral := by
  unfold Matcher.oneOf at h
  split at h
  · cases h
    exact empty
  · cases ms with
    | nil => cases h
    | cons first others =>
      dsimp only at h
      split at h
      · cases h
        refine ⟨?_, (hms first List.mem_cons_self).bindings⟩
        intro t ht
        rw [List.mem_singleton.mp ht]
        refine Js.Test.neutral_oneOf fun ts hts => ?_
        obtain ⟨m, hm, rfl⟩ := List.mem_map.mp hts
        exact (hms m hm).tests
      · cases h

end Matcher.IsNeutral

namespace Pat

theorem neutral_alternatives {law : Law} {place : Js.Access} {ps : List Pat} {ms : List Matcher}
    (h : List.Forall₂ (fun p m => p.isLawful law = true → Neutral place.text.toList →
      m.IsNeutral) ps ms) (hps : allLawful law ps = true) (hplace : Neutral place.text.toList) :
    ∀ m ∈ ms, m.IsNeutral := by
  induction h with
  | nil => simp
  | cons hp _ ih =>
    rw [allLawful, Bool.and_eq_true] at hps
    exact List.forall_mem_cons.mpr ⟨hp hps.1 hplace, ih hps.2⟩

section Places

variable {place : Js.Access} (h : Neutral place.text.toList)

include h

theorem neutral_elementSpots (elems : List Pat) :
    ∀ q ∈ elementSpots place elems, Neutral q.text.toList := by
  have hspots : ∀ index pastRest, ∀ q ∈ spots (fun i => .slot place i) (.fromEnd place) index
      pastRest elems, Neutral q.text.toList := by
    induction elems with
    | nil => simp [spots]
    | cons p ps ih =>
      intro index pastRest q hq
      rcases List.mem_cons.mp hq with rfl | hq
      · split
        · exact Js.Access.neutral_fromEnd h _
        · exact Js.Access.neutral_slot h _
      · exact ih _ _ q hq
  exact hspots 0 false

theorem neutral_cellSpots (afterRest cell : Int) (elems : List Pat) :
    ∀ q ∈ cellSpots place afterRest cell elems, Neutral q.text.toList := by
  induction elems generalizing cell with
  | nil => simp [cellSpots]
  | cons p ps ih =>
    rintro q (_ | ⟨_, hq⟩)
    · exact Js.Access.neutral_slot h cell
    · exact ih _ q hq

theorem neutral_payloadSpots (index : Nat) (elems : List Pat) :
    ∀ q ∈ payloadSpots place index elems, Neutral q.text.toList := by
  induction elems generalizing index with
  | nil => simp [payloadSpots]
  | cons p ps ih =>
    rintro q (_ | ⟨_, hq⟩)
    · refine Js.Access.neutral_prop h ?_
      rw [isPlainText_append, isPlainText_toString]
      decide
    · exact ih _ q hq

theorem neutral_layout {v : Vocabulary} {name : String} (hname : isPlainText name = true)
    (path : List String) (elems : List Pat) :
    (∀ t ∈ (v.layout place path name elems).1, Neutral t.text.toList) ∧
      ∀ q ∈ (v.layout place path name elems).2, Neutral q.text.toList := by
  have hprop {key : String} (hkey : isPlainText key = true) := Js.Access.neutral_prop h hkey
  have hsame {q : Js.Access} (hq : Neutral q.text.toList) :
      ∀ r ∈ sameSpots q elems, Neutral r.text.toList := by
    intro r hr
    obtain ⟨p, -, rfl⟩ := List.mem_map.mp hr
    exact hq
  unfold Vocabulary.layout
  repeat' split
  · exact ⟨by simpa using Js.Test.neutral_notNull h, hsame h⟩
  · exact ⟨by simpa using Js.Test.neutral_hasKey h "ok" (by decide),
      hsame (hprop (by decide))⟩
  · exact ⟨by simpa using Js.Test.neutral_hasKey h "error" (by decide),
      hsame (hprop (by decide))⟩
  · exact ⟨by simp, neutral_cellSpots h _ _ elems⟩
  · have htype := Js.Test.neutral_equals (@hprop "type" (by decide)) (.word name)
      (Neutral.quoted hname)
    exact ⟨by simpa using htype, neutral_payloadSpots h 0 elems⟩

end Places

section Compiled

variable {law : Law} {v : Vocabulary}
  (hlaw : ∀ name, law.name name = true → isPlainText name = true)

include hlaw

theorem isPlainText_last {segments : List String} (hall : segments.all law.name = true)
    {name : String} (h : segments.getLast? = some name) : isPlainText name = true :=
  hlaw name (List.all_eq_true.mp hall name (List.mem_of_getLast? h))

variable (hscopes : ∀ name, isPlainText name = true → isPlainText (v.scopes.resolve name) = true)

include hscopes

theorem neutral_cases : Cases v
    (fun place p m => p.isLawful law = true → Neutral place.text.toList → m.IsNeutral)
    (fun places ps m => allLawful law ps = true → (∀ q ∈ places, Neutral q.text.toList) →
      m.IsNeutral)
    (fun place fs m => allFieldsLawful law fs = true → Neutral place.text.toList →
      m.IsNeutral) where
  wild _ _ _ := .empty
  rest _ _ _ := .empty
  ref h hp hplace := h hp hplace
  named h hp hplace := by
    rw [isLawful, Bool.and_eq_true] at hp
    exact (h hp.2 hplace).append ⟨by simp, by simpa using ⟨hplace, hlaw _ hp.1⟩⟩
  absent _ _ _ _ hplace := .test (Js.Test.neutral_isNull hplace)
  constant _ _ _ _ _ hp hplace :=
    .test (Js.Test.neutral_equals hplace _ (.of_plainText (hscopes _ (hlaw _ hp))))
  fresh _ _ _ _ _ hp hplace := ⟨by simp, by simpa using ⟨hplace, hlaw _ hp⟩⟩
  lit _ p _ hplace := .test (Js.Test.neutral_equals hplace _ p.neutral_spelling)
  range hlow hhigh _ hplace := by
    have hbound := Js.Test.neutral_bound hplace
    refine (Matcher.IsNeutral.bound (fun p => (hbound p).1) hlow).append
      (.bound (fun p => ?_) hhigh)
    split
    · exact (hbound p).2.1
    · exact (hbound p).2.2
  tuple h hp hplace := h hp (neutral_elementSpots hplace _)
  slice h hp hplace :=
    (Matcher.IsNeutral.test (Js.Test.neutral_length hplace _ _)).append
      (h hp (neutral_elementSpots hplace _))
  path hname h hp hplace := by
    have hplain := isPlainText_last hlaw hp hname
    rcases h with rfl | rfl | rfl
    · exact .test (Js.Test.neutral_isNull hplace)
    · exact .test (Js.Test.neutral_equals hplace _ (.of_plainText (hscopes _ hplain)))
    · exact .test (Js.Test.neutral_equals hplace _ (Neutral.quoted hplain))
  tupleStruct {_ segments _ ps _} hname h hp hplace := by
    rw [isLawful, Bool.and_eq_true] at hp
    have hlayout := neutral_layout (v := v) hplace (isPlainText_last hlaw hp.1 hname) segments ps
    exact .append ⟨hlayout.1, by simp⟩ (h hp.2 hlayout.2)
  variant _ hname h hp hplace := by
    rw [isLawful, Bool.and_eq_true] at hp
    refine (Matcher.IsNeutral.test ?_).append (h hp.2 hplace)
    exact Js.Test.neutral_equals (Js.Access.neutral_prop hplace (by decide)) _
      (Neutral.quoted (isPlainText_last hlaw hp.1 hname))
  struct _ h hp hplace := by
    rw [isLawful, Bool.and_eq_true] at hp
    exact h hp.2 hplace
  alt _ hms h hp hplace := .oneOf (neutral_alternatives hms hp hplace) h
  nil _ _ := .empty
  cons hp hps h hplaces := by
    rw [allLawful, Bool.and_eq_true] at h
    rw [List.forall_mem_cons] at hplaces
    exact (hp h.1 hplaces.1).append (hps h.2 hplaces.2)
  noFields _ _ _ := .empty
  field hp hfs h hplace := by
    simp only [allFieldsLawful, Bool.and_eq_true] at h
    exact (hp h.1.2 (Js.Access.neutral_prop hplace (hlaw _ h.1.1))).append (hfs h.2 hplace)

theorem neutral_compile (p : Pat) {place : Js.Access} {m : Matcher} (hp : p.isLawful law = true)
    (hplace : Neutral place.text.toList) (h : p.compile v place = .ok m) : m.IsNeutral :=
  (neutral_cases hlaw hscopes).compile p h hp hplace

end Compiled

end Pat

end RustScript
