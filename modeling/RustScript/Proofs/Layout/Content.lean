/-
  Indentation changes blanks only.

  The layout puts blanks in front of the trimmed line (`trim_indentFrom`). It reads nothing of a
  line but what trimming leaves, so a second layout does what the first did (`indentFrom_congr`).
-/
import RustScript.Program.Assemble
import RustScript.Proofs.Layout.Level

namespace RustScript

namespace Text

/-! ## Contents -/

/-- The lines that hold more than blanks, without the blanks at their ends. -/
def contents (text : String) : List String :=
  (((cutLines text.toList).map trim).filter fun line => !line.isEmpty).map String.ofList

theorem contents_eq_of_map_trim {s t : String}
    (h : (cutLines s.toList).map trim = (cutLines t.toList).map trim) : contents s = contents t := by
  rw [contents, contents, h]

theorem contents_feeds (s t : String) (n : Nat) :
    contents (s ++ String.ofList (List.replicate (n + 1) '\n') ++ t) = contents s ++ contents t := by
  have hcut (k : Nat) (ds : List Char) :
      ((cutLines (List.replicate k '\n' ++ ds)).map trim).filter (fun line => !line.isEmpty) =
        ((cutLines ds).map trim).filter fun line => !line.isEmpty := by
    induction k with
    | zero => rfl
    | succ k ih =>
      rw [List.replicate_succ, List.cons_append, cutLines, if_pos (by decide), List.map_cons]
      exact ih
  simp only [contents, String.toList_append, String.toList_ofList, List.append_assoc,
    List.replicate_succ, List.cons_append, Layout.cutLines_newline, List.map_append,
    List.filter_append, hcut]

theorem contents_intercalate (n : Nat) (texts : List String) :
    contents ((String.ofList (List.replicate (n + 1) '\n')).intercalate texts) =
      texts.flatMap contents := by
  induction texts with
  | nil => rfl
  | cons t texts ih =>
    cases texts with
    | nil => simp
    | cons u texts => rw [String.intercalate_cons_cons, contents_feeds, ih, ← List.flatMap_cons]

theorem newline_notMem_of_mem_cutLines {cs line : List Char} (h : line ∈ cutLines cs) :
    '\n' ∉ line := by
  induction cs generalizing line with
  | nil => simp_all [cutLines]
  | cons c cs ih =>
    rw [cutLines] at h
    split at h
    · rcases List.mem_cons.mp h with rfl | h
      · exact List.not_mem_nil
      · exact ih h
    · next hc =>
      obtain ⟨first, lines, hcut⟩ := Layout.exists_cutLines cs
      rw [hcut, onFirst] at h
      rcases List.mem_cons.mp h with rfl | h
      · have hfirst : '\n' ∉ first := ih (hcut ▸ List.mem_cons_self)
        have hne : '\n' ≠ c := fun heq => hc (by rw [← heq]; rfl)
        exact fun hmem => (List.mem_cons.mp hmem).elim hne hfirst
      · exact ih (hcut ▸ List.mem_cons_of_mem _ h)

theorem cutLines_intercalate {lines : List String} (hne : lines ≠ [])
    (hlines : ∀ line ∈ lines, '\n' ∉ line.toList) :
    cutLines ("\n".intercalate lines).toList = lines.map String.toList := by
  have hwhole : lines.flatMap (fun t => cutLines t.toList) = lines.map String.toList := by
    rw [List.map_eq_flatMap]
    refine List.flatMap_congr fun line hline => ?_
    have hone := Layout.cutLines_append (hlines line hline) (rfl : cutLines [] = [[]])
    rwa [List.append_nil] at hone
  have hends := Layout.cutLines_linesText lines
  rw [Js.linesText_eq hne, Layout.cutLines_newline, hwhole] at hends
  exact List.append_cancel_right hends

end Text

namespace Layout

open Text

section Indent

variable {unit : String}

theorem indentFrom_cons (unit : String) (depth : Nat) (opened : List Opening) (raw : List Char)
    (lines : List (List Char)) :
    ∃ count depth' opened',
      indentFrom unit depth opened (raw :: lines) =
        (if (trim raw).isEmpty then "" else repeated unit count ++ String.ofList (trim raw)) ::
          indentFrom unit depth' opened' lines := by
  rw [indentFrom]
  split
  · exact ⟨0, depth, opened, rfl⟩
  · exact ⟨_, _, _, rfl⟩

/-- Only what is left of a line after trimming decides how it and those after it are laid out. -/
theorem indentFrom_congr {lines lines' : List (List Char)}
    (h : lines.map trim = lines'.map trim) (depth : Nat) (opened : List Opening) :
    indentFrom unit depth opened lines = indentFrom unit depth opened lines' := by
  induction lines generalizing lines' depth opened with
  | nil =>
    obtain rfl : lines' = [] := List.map_eq_nil_iff.mp h.symm
    rfl
  | cons raw lines ih =>
    cases lines' with
    | nil => cases h
    | cons raw' lines' =>
      obtain ⟨hraw, hlines⟩ := List.cons.inj h
      rw [indentFrom, indentFrom, hraw]
      dsimp only
      split
      · rw [ih hlines]
      · rw [ih hlines]

theorem all_repeated {p : Char → Bool} (hunit : unit.toList.all p = true) (count : Nat) :
    (repeated unit count).toList.all p = true := by
  rw [repeated, String.toList_join, List.all_flatMap]
  exact List.all_eq_true.mpr fun u hu => List.eq_of_mem_replicate hu ▸ hunit

variable (hunit : unit.toList.all isBlank = true)

include hunit

theorem trim_indentFrom (depth : Nat) (opened : List Opening) (lines : List (List Char)) :
    (indentFrom unit depth opened lines).map (fun line => trim line.toList) = lines.map trim := by
  induction lines generalizing depth opened with
  | nil => rfl
  | cons raw lines ih =>
    obtain ⟨count, depth', opened', hcons⟩ := indentFrom_cons unit depth opened raw lines
    rw [hcons, List.map_cons, ih depth' opened', List.map_cons]
    congr 1
    split
    · next hempty => exact (List.isEmpty_iff.mp hempty).symm
    · rw [String.toList_append, String.toList_ofList, trim_blanks_append (all_repeated hunit count),
        trim_trim]

omit hunit

theorem newline_notMem_indentFrom (hfeed : '\n' ∉ unit.toList) (depth : Nat)
    (opened : List Opening) {lines : List (List Char)} (hlines : ∀ line ∈ lines, '\n' ∉ line) :
    ∀ line ∈ indentFrom unit depth opened lines, '\n' ∉ line.toList := by
  induction lines generalizing depth opened with
  | nil => simp [indentFrom]
  | cons raw lines ih =>
    obtain ⟨count, depth', opened', hcons⟩ := indentFrom_cons unit depth opened raw lines
    rw [hcons, List.forall_mem_cons]
    refine ⟨?_, ih depth' opened' fun line hline => hlines line (List.mem_cons_of_mem _ hline)⟩
    split
    · exact List.not_mem_nil
    · rw [String.toList_append, String.toList_ofList, List.mem_append, not_or]
      have hkept : unit.toList.all (· != '\n') = true := by
        simp only [List.all_eq_true, bne_iff_ne]
        exact fun c hc heq => hfeed (heq ▸ hc)
      have hblanks := all_repeated hkept count
      refine ⟨fun hmem => absurd rfl (bne_iff_ne.mp (List.all_eq_true.mp hblanks _ hmem)), ?_⟩
      exact fun hmem => hlines raw List.mem_cons_self ((trim_isInfix raw).subset hmem)

include hunit

/-- The lines of a text that was laid out are those of the text, up to blanks at their ends. -/
theorem map_trim_indent (hfeed : '\n' ∉ unit.toList) (code : String) :
    (cutLines (indent unit code).toList).map trim = (cutLines code.toList).map trim := by
  obtain ⟨line, lines, hcut⟩ := exists_cutLines code.toList
  have hne : indentFrom unit 0 [] (cutLines code.toList) ≠ [] := by
    obtain ⟨_, _, _, hcons⟩ := indentFrom_cons unit 0 [] line lines
    rw [hcut, hcons]
    exact List.cons_ne_nil _ _
  rw [indent, cutLines_intercalate hne (newline_notMem_indentFrom hfeed 0 []
    fun line hline => newline_notMem_of_mem_cutLines hline), List.map_map]
  exact trim_indentFrom hunit 0 [] _

theorem indent_indent (hfeed : '\n' ∉ unit.toList) (code : String) :
    indent unit (indent unit code) = indent unit code :=
  congrArg "\n".intercalate (indentFrom_congr (map_trim_indent hunit hfeed code) 0 [])

end Indent

end Layout

/-- The contents of a program are those of its parts, whatever separates them. -/
theorem Program.contents_assemble (fragments : List String) (style : Program.Style) :
    Text.contents (Program.assemble fragments style) =
      (Program.parts fragments style).flatMap Text.contents := by
  have hend (s : String) : Text.contents (s ++ "\n") = Text.contents s := by
    have hfeed := Text.contents_feeds s "" 0
    have hempty : Text.contents "" = [] := by decide
    rwa [hempty, List.append_nil, String.append_empty] at hfeed
  cases hpretty : style.pretty with
  | false =>
    simp only [assemble, hpretty, Bool.false_eq_true, if_false]
    exact (hend _).trans (Text.contents_intercalate 0 _)
  | true =>
    simp only [assemble, hpretty, if_true]
    have hlaid := Text.contents_eq_of_map_trim
      (@Layout.map_trim_indent "  " (by decide) (by decide)
        ("\n\n".intercalate (parts fragments style) ++ "\n"))
    exact hlaid.trans ((hend _).trans (Text.contents_intercalate 1 _))

/-- Whatever the fragments are, and with the preamble or without, the program that is laid out and
    the one that is not have the same contents line by line. Laying out any text keeps the number
    of its lines and what each of them holds between its blanks, and doing it again changes
    nothing. -/
theorem pretty_printing_changes_blanks_only (fragments : List String) (preamble : Bool)
    (code : String) :
    Text.contents (Program.assemble fragments { preamble, pretty := true }) =
      Text.contents (Program.assemble fragments { preamble, pretty := false }) ∧
    (Text.cutLines (Layout.indent "  " code).toList).length = (Text.cutLines code.toList).length ∧
    (Text.cutLines (Layout.indent "  " code).toList).map Text.trim =
      (Text.cutLines code.toList).map Text.trim ∧
    Layout.indent "  " (Layout.indent "  " code) = Layout.indent "  " code := by
  have hblank : "  ".toList.all Text.isBlank = true := by decide
  have hfeed : '\n' ∉ "  ".toList := by decide
  have hlines := Layout.map_trim_indent hblank hfeed code
  refine ⟨?_, ?_, hlines, Layout.indent_indent hblank hfeed code⟩
  · rw [Program.contents_assemble, Program.contents_assemble]
    rfl
  · simpa using congrArg List.length hlines

end RustScript
