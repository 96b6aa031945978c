/-
  The result of an evaluation among the output of the program.

  The output is cut into lines at every mark that Unicode takes for the end of a line, but JSON
  escapes the control characters only: a result with one of the other three (`splitsJson`) is itself
  cut.
-/
import RustScript.Engine.Run
import RustScript.Proofs.Outcome

namespace RustScript

/-! ## Lines of output -/

namespace Text

variable {cs : List Char}

theorem outputLinesFrom_cons {c : Char} (line : List Char) (h : c = '\r' → cs.head? ≠ some '\n') :
    outputLinesFrom line (c :: cs) =
      if endsLine c then line.reverse :: outputLinesFrom [] cs
      else outputLinesFrom (c :: line) cs := by
  rw [outputLinesFrom]
  rintro ds rfl rfl
  exact h rfl rfl

theorem outputLinesFrom_newline (line cs : List Char) :
    outputLinesFrom line ('\n' :: cs) = line.reverse :: outputLinesFrom [] cs :=
  outputLinesFrom_cons line fun h => absurd h (by decide)

theorem outputLinesFrom_append (line cs ds : List Char) :
    outputLinesFrom line (cs ++ '\n' :: ds) =
      outputLinesFrom line (cs ++ ['\n']) ++ outputLinesFrom [] ds := by
  fun_induction outputLinesFrom line cs with
  | case1 | case2 => rw [List.nil_append, List.nil_append, outputLinesFrom_newline,
      outputLinesFrom_newline]; rfl
  | case3 line cs ih => simp [outputLinesFrom, ih]
  | case4 line c cs hpair hends ih =>
    cases cs with
    | nil =>
      by_cases hc : c = '\r'
      · subst hc
        rfl
      · simp only [List.cons_append, List.nil_append, outputLinesFrom_cons line (absurd · hc),
          hends, if_true, outputLinesFrom_newline]
        rfl
    | cons d cs =>
      have hhead : ∀ es, c = '\r' → (d :: cs ++ es).head? ≠ some '\n' := by
        rintro es rfl heq
        exact hpair cs rfl (congrArg (· :: cs) (Option.some.inj heq))
      have hcut : ∀ es, outputLinesFrom line (c :: d :: cs ++ es) =
          line.reverse :: outputLinesFrom [] (d :: cs ++ es) :=
        fun es => (outputLinesFrom_cons line (hhead es)).trans (if_pos hends)
      rw [hcut, hcut, ih]
      rfl
  | case5 line c cs hpair hends ih =>
    have hc : c ≠ '\r' := by
      rintro rfl
      exact hends rfl
    rw [List.cons_append, List.cons_append, outputLinesFrom_cons line (absurd · hc),
      outputLinesFrom_cons line (absurd · hc), if_neg hends, if_neg hends, ih]

theorem outputLinesFrom_plain (h : cs.any endsLine = false) (line ds : List Char) :
    outputLinesFrom line (cs ++ ds) = outputLinesFrom (cs.reverse ++ line) ds := by
  induction cs generalizing line with
  | nil => rfl
  | cons c cs ih =>
    obtain ⟨hc, hcs⟩ := Bool.or_eq_false_iff.mp h
    have hreturn : c = '\r' → (cs ++ ds).head? ≠ some '\n' := by
      rintro rfl
      cases hc
    rw [List.cons_append, outputLinesFrom_cons line hreturn, if_neg (ne_true_of_eq_false hc),
      ih hcs, List.reverse_cons, List.append_assoc]
    rfl

theorem any_endsLine_of_mem {line cs l : List Char} (hline : line.any endsLine = false)
    (h : l ∈ outputLinesFrom line cs) : l.any endsLine = false := by
  have hdone : line.reverse.any endsLine = false := by rw [List.any_reverse, hline]
  fun_induction outputLinesFrom line cs with
  | case1 => cases h
  | case2 line hne => rwa [List.mem_singleton.mp h]
  | case3 line cs ih | case4 line c cs hpair hends ih =>
    rcases List.mem_cons.mp h with rfl | h
    · exact hdone
    · exact ih rfl h rfl
  | case5 line c cs hpair hends ih =>
    have hcons : (c :: line).any endsLine = false := by
      rw [List.any_cons, hline, Bool.or_false]
      exact Bool.eq_false_iff.mpr hends
    exact ih hcons h (by rw [List.any_reverse, hcons])

end Text

namespace Engine

/-- A character that JSON leaves as it is in a string and that ends a line of output. -/
def splitsJson (c : Char) : Bool := c == '\u0085' || c == '\u2028' || c == '\u2029'

theorem endsLine_eq_splitsJson {c : Char} (h : 0x20 ≤ c.toNat) :
    Text.endsLine c = splitsJson c := by
  have hnat : ∀ d : Char, c = d ↔ c.toNat = d.toNat := fun d =>
    ⟨congrArg Char.toNat, fun heq => Char.ext (UInt32.toNat_inj.mp heq)⟩
  rw [Bool.eq_iff_iff]
  simp only [Text.endsLine, splitsJson, Bool.or_eq_true, Bool.and_eq_true, beq_iff_eq,
    decide_eq_true_eq, hnat]
  have h1 : '\n'.toNat = 10 := rfl
  have h2 : '\r'.toNat = 13 := rfl
  have h3 : '\u0085'.toNat = 0x85 := rfl
  have h4 : '\u2028'.toNat = 0x2028 := rfl
  have h5 : '\u2029'.toNat = 0x2029 := rfl
  omega

/-- What stands behind the mark on a line that has one. -/
def marked? (line : String) : Option String :=
  if resultMark.toList.isPrefixOf line.toList then
    some (String.ofList (line.toList.drop resultMark.length))
  else none

theorem markedText?_eq (stdout : String) :
    markedText? stdout = (Text.outputLines stdout).reverse.findSome? marked? :=
  rfl

theorem marked?_mark (cs : List Char) :
    marked? (String.ofList (resultMark.toList ++ cs)) = some (String.ofList cs) := by
  have hpre : resultMark.toList.isPrefixOf (resultMark.toList ++ cs) = true :=
    List.isPrefixOf_iff_prefix.mpr (List.prefix_append _ _)
  rw [marked?, String.toList_ofList, if_pos hpre, ← String.length_toList, List.drop_left]

theorem any_endsLine_of_markedText? {stdout text : String} (h : markedText? stdout = some text) :
    text.toList.any Text.endsLine = false := by
  obtain ⟨line, hline, hmarked⟩ := List.exists_of_findSome?_eq_some ((markedText?_eq _).symm.trans h)
  obtain ⟨cs, hcs, rfl⟩ := List.mem_map.mp (List.mem_reverse.mp hline)
  have hplain := Text.any_endsLine_of_mem rfl hcs
  unfold marked? at hmarked
  split at hmarked
  · cases hmarked
    rw [String.toList_ofList, String.toList_ofList]
    exact List.any_eq_false.mpr fun c hc => List.any_eq_false.mp hplain c (List.mem_of_mem_drop hc)
  · cases hmarked

/-- Output that is empty or ends in a line feed. -/
def EndsLines (output : String) : Prop := output = "" ∨ ∃ cs, output.toList = cs ++ ['\n']

theorem markedText?_append {before : String} (h : EndsLines before) (rest : String) :
    markedText? (before ++ rest) = (markedText? rest).or (markedText? before) := by
  have hlines : Text.outputLines (before ++ rest) =
      Text.outputLines before ++ Text.outputLines rest := by
    rcases h with rfl | ⟨cs, hcs⟩
    · rw [String.empty_append]
      rfl
    · rw [Text.outputLines, Text.outputLines, Text.outputLines, String.toList_append, hcs,
        List.append_assoc, List.singleton_append, Text.outputLinesFrom_append, List.map_append]
  rw [markedText?_eq, hlines, List.reverse_append, List.findSome?_append]
  rfl

theorem any_endsLine_mark : resultMark.toList.any Text.endsLine = false := by decide

theorem markedText?_of_whole {json : String} (h : json.toList.any Text.endsLine = false) :
    markedText? (resultMark ++ json ++ "\n") = some json := by
  have hplain : (resultMark.toList ++ json.toList).any Text.endsLine = false := by
    rw [List.any_append, any_endsLine_mark, h]
    rfl
  have hlines : Text.outputLines (resultMark ++ json ++ "\n") =
      [String.ofList (resultMark.toList ++ json.toList)] := by
    rw [Text.outputLines, String.toList_append, String.toList_append,
      Text.outputLinesFrom_plain hplain, List.append_nil]
    change ((Text.outputLinesFrom _ ['\n']).map String.ofList) = _
    rw [Text.outputLinesFrom_newline, List.reverse_reverse]
    rfl
  rw [markedText?_eq, hlines, List.reverse_singleton, List.findSome?_singleton, marked?_mark,
    String.ofList_toList]

theorem any_endsLine_eq {json : String} (h : json.toList.all (0x20 ≤ ·.toNat) = true) :
    json.toList.any Text.endsLine = json.toList.any splitsJson := by
  have hmem : ∀ c ∈ json.toList, Text.endsLine c = splitsJson c := fun c hc =>
    endsLine_eq_splitsJson (of_decide_eq_true (List.all_eq_true.mp h c hc))
  rw [List.any_eq, List.any_eq]
  exact decide_eq_decide.mpr (exists_congr fun c => and_congr_right fun hc => by rw [hmem c hc])

/-- A result that is printed behind other lines is found whole exactly if nothing in it is taken for
    the end of a line. -/
theorem markedText?_printed_iff {before json : String} (hbefore : EndsLines before)
    (hjson : json.toList.all (0x20 ≤ ·.toNat) = true) :
    markedText? (before ++ (resultMark ++ json ++ "\n")) = some json ↔
      json.toList.any splitsJson = false := by
  rw [← any_endsLine_eq hjson]
  refine ⟨any_endsLine_of_markedText?, fun hwhole => ?_⟩
  rw [markedText?_append hbefore, markedText?_of_whole hwhole, Option.some_or]

section Evaluate

variable {engine : Call → Reply} {vars : Variables} {choice : Choice}
  {code expression stdout stderr : String} {c : Call}

theorem evaluate_of_markedText? {text : String}
    (hcall : evaluationCall vars choice code expression = .ok c)
    (hreply : engine c = .finished stdout stderr 0) (htext : markedText? stdout = some text) :
    evaluate engine vars choice code expression = (Json.read text).mapError .result := by
  have houtput : runResult c (engine c) = .ok ⟨stdout, stderr⟩ := by
    rw [hreply]
    rfl
  have hresult : evaluate engine vars choice code expression =
      evaluationResult c expression (engine c) := by
    rw [evaluate, hcall]
    rfl
  simp only [hresult, evaluationResult, houtput, bind, Except.bind, htext]

/-- If the engine succeeds and the last thing it printed is the mark, a JSON text and a line feed,
    then this text is found, whatever was printed before, exactly if it holds no character that
    splits it; and then the evaluation gives what the text says. -/
theorem evaluation_reads_printed_text {before json : String} (hbefore : EndsLines before)
    (hjson : json.toList.all (0x20 ≤ ·.toNat) = true)
    (hcall : evaluationCall vars choice code expression = .ok c)
    (hstdout : stdout = before ++ (resultMark ++ json ++ "\n"))
    (hreply : engine c = .finished stdout stderr 0) :
    (markedText? stdout = some json ↔ json.toList.any splitsJson = false) ∧
      (json.toList.any splitsJson = false →
        evaluate engine vars choice code expression = (Json.read json).mapError .result) := by
  have hfound := markedText?_printed_iff hbefore hjson
  rw [← hstdout] at hfound
  exact ⟨hfound, fun hwhole => evaluate_of_markedText? hcall hreply (hfound.mpr hwhole)⟩

end Evaluate

/-- An engine that prints a line of the program and then a text as the result. -/
def printing (json : String) : Call → Reply :=
  fun _ => .finished ("__ferrojs_result__0\n" ++ (resultMark ++ json ++ "\n")) "" 0

theorem text_with_accent_is_read :
    EndsLines "__ferrojs_result__0\n" ∧
      evaluate (printing "\"\u00e9\"") [] ⟨none, some (.whole 5)⟩ "" "f()" =
        .ok (.string [0xe9]) := by
  have hbefore : EndsLines "__ferrojs_result__0\n" := .inr ⟨"__ferrojs_result__0".toList, by decide⟩
  have hjson : "\"\u00e9\"".toList.all (0x20 ≤ ·.toNat) = true := by decide
  have hcall : evaluationCall [] ⟨none, some (.whole 5)⟩ "" "f()" = .ok _ := rfl
  obtain ⟨-, hresult⟩ := evaluation_reads_printed_text hbefore hjson hcall rfl
    (rfl : printing "\"\u00e9\"" _ = _)
  have hread : Json.read "\"\u00e9\"" = .ok (.string [0xe9]) := rfl
  rw [hresult (by decide), hread]
  exact ⟨hbefore, rfl⟩

/-- A text with a line separator in it is JSON, but it is not found whole. -/
theorem text_with_line_separator_is_not_read :
    let json := "\"\u2028\""
    json.toList.all (0x20 ≤ ·.toNat) = true ∧ Json.read json = .ok (.string [0x2028]) ∧
      evaluate (printing json) [] ⟨none, some (.whole 5)⟩ "" "f()" =
        .error (.result .malformed) := by
  intro json
  have hpart : markedText? ("__ferrojs_result__0\n" ++ (resultMark ++ json ++ "\n")) =
      some "\"" := by decide
  have hread : Json.read "\"" = .error .malformed := rfl
  have hwhole : Json.read "\"\u2028\"" = .ok (.string [0x2028]) := rfl
  refine ⟨by decide, hwhole, ?_⟩
  have hcall : evaluationCall [] ⟨none, some (.whole 5)⟩ "" "f()" = .ok _ := rfl
  rw [evaluate_of_markedText? hcall (rfl : printing json _ = _) hpart, hread]
  rfl

end Engine

end RustScript
