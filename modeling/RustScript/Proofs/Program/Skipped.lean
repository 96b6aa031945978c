/-
  Declarations that are skipped.

  A declaration without meaning at run time leaves a comment with its label. A line comment ends
  where the line ends, so what counts is whether the label goes on over several lines
  (`Source.Parts.itemLabel_cases`).
-/
import RustScript.Proofs.Literal.Reading
import RustScript.Proofs.Source.Calls
import RustScript.Program.Assemble
import RustScript.Source.Entry

namespace RustScript

namespace Js

/-! ## Lines of code -/

/-- The lines of a text without their ends. The carriage return with its line feed is one end. -/
def linesOf : List Char → List (List Char)
  | [] => [[]]
  | '\r' :: '\n' :: cs => [] :: linesOf cs
  | c :: cs => if isLineEnd c then [] :: linesOf cs else Text.onFirst c (linesOf cs)

/-- Whether the line is a comment. -/
def isCommentLine (line : List Char) : Bool := ['/', '/'].isPrefixOf line

theorem linesOf_cons {c : Char} (h : isLineEnd c = false) (cs : List Char) :
    linesOf (c :: cs) = Text.onFirst c (linesOf cs) := by
  rw [linesOf, if_neg (ne_true_of_eq_false h)]
  rintro _ rfl
  cases h

theorem exists_linesOf (cs : List Char) : ∃ first rest, linesOf cs = first :: rest := by
  fun_cases linesOf cs with
  | case1 => exact ⟨_, _, rfl⟩
  | case2 => exact ⟨_, _, rfl⟩
  | case3 => exact ⟨_, _, rfl⟩
  | case4 c cs => cases linesOf cs <;> exact ⟨_, _, rfl⟩

theorem linesOf_append {as : List Char} (h : as.any isLineEnd = false) {bs first : List Char}
    {rest : List (List Char)} (hbs : linesOf bs = first :: rest) :
    linesOf (as ++ bs) = (as ++ first) :: rest := by
  induction as with
  | nil => exact hbs
  | cons a as ih =>
    obtain ⟨ha, has⟩ := Bool.or_eq_false_iff.mp h
    rw [List.cons_append, linesOf_cons ha, ih has]
    rfl

theorem linesOf_eq_singleton {cs : List Char} (h : cs.any isLineEnd = false) :
    linesOf cs = [cs] := by
  have hlines := linesOf_append h (show linesOf [] = [[]] from rfl)
  rwa [List.append_nil] at hlines

end Js

/-! ## Labels -/

namespace Text

theorem all_wordsFrom {word : List Char} (hword : word.all (!isBlank ·) = true) (cs : List Char) :
    ∀ w ∈ wordsFrom word cs, w.all (!isBlank ·) = true := by
  induction cs generalizing word with
  | nil =>
    rw [wordsFrom]
    split
    · exact fun w hw => absurd hw List.not_mem_nil
    · intro w hw
      rw [List.mem_singleton.mp hw, List.all_reverse]
      exact hword
  | cons c cs ih =>
    rw [wordsFrom]
    split
    · split
      · exact ih rfl
      · refine List.forall_mem_cons.mpr ⟨?_, ih rfl⟩
        rw [List.all_reverse]
        exact hword
    · next hc => exact ih (by simp [hc, hword])

theorem mem_intercalate {sep : String} {texts : List String} {c : Char}
    (h : c ∈ (sep.intercalate texts).toList) : c ∈ sep.toList ∨ ∃ t ∈ texts, c ∈ t.toList := by
  induction texts with
  | nil => simp at h
  | cons t ts ih =>
    cases ts with
    | nil => exact .inr ⟨t, List.mem_cons_self, by simpa using h⟩
    | cons u us =>
      rw [String.intercalate_cons_cons, String.toList_append, String.toList_append,
        List.mem_append, List.mem_append] at h
      rcases h with (h | h) | h
      · exact .inr ⟨t, List.mem_cons_self, h⟩
      · exact .inl h
      · exact (ih h).imp_right fun ⟨v, hv, hc⟩ => ⟨v, List.mem_cons_of_mem t hv, hc⟩

theorem isBlank_of_isLineEnd {c : Char} (h : Js.isLineEnd c = true) :
    isBlank c = true ∧ c ≠ ' ' := by
  simp only [Js.isLineEnd, Bool.or_eq_true, beq_iff_eq] at h
  rcases h with ((rfl | rfl) | h) | h
  · exact ⟨by decide, by decide⟩
  · exact ⟨by decide, by decide⟩
  all_goals
    rw [← Char.ofNat_toNat c, h]
    exact ⟨by decide, by decide⟩

theorem any_isLineEnd_collapse (s : String) : (collapse s).toList.any Js.isLineEnd = false := by
  refine List.any_eq_false.mpr fun c hc hend => ?_
  obtain ⟨hblank, hspace⟩ := isBlank_of_isLineEnd hend
  rcases mem_intercalate hc with hc | ⟨w, hw, hc⟩
  · exact hspace (List.mem_singleton.mp hc)
  · obtain ⟨cs, hcs, rfl⟩ := List.mem_map.mp hw
    rw [String.toList_ofList] at hc
    have hplain := List.all_eq_true.mp (all_wordsFrom (by rfl) s.toList cs hcs) c hc
    simp [hblank] at hplain

end Text

namespace Source

/-- The part whose text is the label of a declaration, if it has one. -/
def Parts.labelPart? (p : Parts) : Option Phrase :=
  (p.child? "name") <|> (p.child? "argument") <|> (p.child? "type")

variable {bytes : Bytes}

theorem Parts.itemLabel_cases {p : Parts} {label : String} (h : p.itemLabel bytes = .ok label) :
    (∃ c, p.labelPart? = some c ∧ c.parts.text bytes = .ok label) ∨
      (p.labelPart? = none ∧ label.toList.any Js.isLineEnd = false) := by
  unfold itemLabel at h
  split at h
  · next c hc => exact .inl ⟨c, hc, h⟩
  · next hc =>
    obtain ⟨text, -, rfl⟩ := exists_of_return_eq_ok h
    exact .inr ⟨hc, Text.any_isLineEnd_collapse text⟩

theorem any_isLineEnd_of_inert? {kind what : String} (h : inert? kind = some what) :
    what.toList.any Js.isLineEnd = false := by
  unfold inert? at h
  split at h <;> cases h <;> rfl

theorem ne_inert_of_item? {p : Parts} {i : Item} (h : item? bytes p = some (.ok i))
    (label what : String) : i ≠ .inert label what := by
  rintro rfl
  unfold item? at h
  split at h
  case h_7 => cases h
  all_goals
    obtain ⟨d, -, ⟨⟩⟩ := exists_of_return_eq_ok (Option.some.inj h)

theorem item_ensures (bytes : Bytes) (p : Parts) :
    Ensures (fun i => ∀ label what, i = .inert label what →
      inert? p.kind = some what ∧ p.itemLabel bytes = .ok label) (item bytes p) := by
  unfold item
  split
  · next what hwhat =>
    intro i hi label what' heq
    obtain ⟨label', hlabel, rfl⟩ := exists_of_return_eq_ok hi
    cases heq
    exact ⟨hwhat, hlabel⟩
  · split
    · refine .bindAny fun _ => .ok ?_
      rintro label what ⟨⟩
    · next i hitem => exact .ok fun label what heq => absurd heq (ne_inert_of_item? hitem label what)
    · split
      · refine .bindAny fun _ => .ok ?_
        rintro label what ⟨⟩
      · exact .error _

theorem exists_of_inert_mem {text : String} {root : Node} {is : List Item}
    (h : itemsOf text root = .ok is) {label what : String} (hmem : .inert label what ∈ is) :
    ∃ c ∈ (Phrase.ofNode (Text.encode text) root).parts.children,
      inert? c.kind = some what ∧ c.parts.itemLabel (Text.encode text) = .ok label := by
  obtain ⟨-, -, hitems⟩ := exists_of_bind_eq_ok h
  let Q : Item → Prop := fun i => ∀ label what, i = .inert label what →
    ∃ c ∈ (Phrase.ofNode (Text.encode text) root).parts.children,
      inert? c.kind = some what ∧ c.parts.itemLabel (Text.encode text) = .ok label
  have hall : Ensures (fun is => ∀ i ∈ is, Q i)
      (items (Text.encode text) (Phrase.ofNode (Text.encode text) root).parts) :=
    .mapM fun c hc => (item_ensures _ c.parts).mono fun i hi label what heq =>
      ⟨c, (List.mem_filter.mp hc).1, hi label what heq⟩
  exact hall is hitems _ hmem label what rfl

end Source

/-! ## Comments -/

/-- The comment that is left of a skipped declaration. -/
def skipped (label what : String) : String := "// Skipped " ++ what ++ ": " ++ label

/-- The comment goes on as long as the lines of the label begin like one. -/
theorem all_isCommentLine_skipped {what : String} (hwhat : what.toList.any Js.isLineEnd = false)
    (label : String) : (Js.linesOf (skipped label what).toList).all Js.isCommentLine =
      (Js.linesOf label.toList).tail.all Js.isCommentLine := by
  have hlead : ("// Skipped " ++ what ++ ": ").toList.any Js.isLineEnd = false := by
    rw [String.toList_append, String.toList_append, List.any_append, List.any_append, hwhat]
    decide
  obtain ⟨first, rest, hlines⟩ := Js.exists_linesOf label.toList
  rw [skipped, String.toList_append, Js.linesOf_append hlead hlines, hlines, List.tail_cons,
    List.all_cons]
  have hfirst : Js.isCommentLine (("// Skipped " ++ what ++ ": ").toList ++ first) = true := by
    simp only [String.toList_append]
    rfl
  rw [hfirst, Bool.true_and]

/-- A skipped declaration of a file leaves one fragment, the lines of which are all comments exactly
    if those of its label are, from the second on. The label is one line unless it is the text of a
    part of the declaration. -/
theorem skipped_declaration_is_comment_iff {text : String} {root : Source.Node} {items : List Item}
    (h : Source.itemsOf text root = .ok items) {label what : String}
    (hmem : .inert label what ∈ items) (r : Reader) (structs : Structs) (enums : Enums) :
    Item.fragments r structs enums (.inert label what) = .ok [skipped label what] ∧
    ((Js.linesOf (skipped label what).toList).all Js.isCommentLine = true ↔
      (Js.linesOf label.toList).tail.all Js.isCommentLine = true) ∧
    ∃ c ∈ (Source.Phrase.ofNode (Text.encode text) root).parts.children,
      Source.inert? c.kind = some what ∧
      ((∃ part, c.parts.labelPart? = some part ∧ part.parts.text (Text.encode text) = .ok label) ∨
        (c.parts.labelPart? = none ∧
          (Js.linesOf (skipped label what).toList).all Js.isCommentLine = true)) := by
  obtain ⟨c, hc, hkind, hlabel⟩ := Source.exists_of_inert_mem h hmem
  have hall := all_isCommentLine_skipped (Source.any_isLineEnd_of_inert? hkind) label
  refine ⟨rfl, iff_of_eq (congrArg (· = true) hall), c, hc, hkind, ?_⟩
  rcases Source.Parts.itemLabel_cases hlabel with hpart | ⟨hnone, hline⟩
  · exact .inl hpart
  · refine .inr ⟨hnone, ?_⟩
    rw [hall, Js.linesOf_eq_singleton hline]
    rfl

def attributeTree : Source.Node :=
  ⟨"source_file", 0, 8, true, false, none, [⟨"attribute_item", 0, 8, true, false, none, []⟩]⟩

theorem attribute_over_two_lines_is_comment :
    Source.itemsOf "#[a(\nb)]" attributeTree = .ok [.inert "#[a( b)]" "attribute"] ∧
      (Js.linesOf (skipped "#[a( b)]" "attribute").toList).all Js.isCommentLine = true := by
  have hitems : Source.itemsOf "#[a(\nb)]" attributeTree = .ok [.inert "#[a( b)]" "attribute"] := by
    rfl
  obtain ⟨-, hcomment, -⟩ := skipped_declaration_is_comment_iff hitems (List.mem_singleton.mpr rfl)
    (Reader.ofTable []) [] []
  exact ⟨hitems, hcomment.mpr (by decide)⟩

/-- An import of several names, written over several lines. -/
def importTree : Source.Node :=
  ⟨"source_file", 0, 12, true, false, none, [⟨"use_declaration", 0, 12, true, false, none,
      [⟨"scoped_use_list", 4, 11, true, false, some "argument", []⟩]⟩]⟩

/-- The second line of the import is not a comment. -/
theorem import_over_two_lines_is_no_comment :
    Source.itemsOf "use a::\x7b\nb\x7d;" importTree = .ok [.inert "a::\x7b\nb\x7d" "use"] ∧
      (Item.inert "a::\x7b\nb\x7d" "use").fragments (Reader.ofTable []) [] [] =
        .ok ["// Skipped use: a::\x7b\nb\x7d"] ∧
      Js.linesOf "// Skipped use: a::\x7b\nb\x7d".toList =
        ["// Skipped use: a::\x7b".toList, "b\x7d".toList] ∧
      Js.isCommentLine "b\x7d".toList = false :=
  ⟨by rfl, by rfl, by rfl, by rfl⟩

end RustScript
