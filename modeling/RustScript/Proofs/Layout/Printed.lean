/-
  Code that keeps the rules is printed as neutral text.

  Each fixed piece moves from the brackets open before it to those open after it, and neutral text
  may stand inside any brackets, so the pieces of a form need only fit together.
-/
import RustScript.Proofs.Js.Policy

namespace RustScript.Js

open Layout

/-! ## Texts in a row -/

/-- The text goes from inside the brackets that `before` closes to inside those that `after`
    closes. -/
def Spans (before after : List Char) (text : String) : Prop := Moves before after text.toList

section Spans

variable {a b c : List Char} {s t : String} {cs : List Char} {texts : List String}

theorem Spans.append (hs : Spans a b s) (ht : Spans b c t) : Spans a c (s ++ t) := by
  unfold Spans
  rw [String.toList_append]
  exact .append hs ht

theorem Spans.code (h : closersAfter false a cs = some b) : Spans a b (String.ofList cs) := by
  unfold Spans
  rw [String.toList_ofList]
  exact .code h

theorem Spans.of_neutral (h : Neutral s.toList) : Spans a a s := h.moves

/-- Fixed code behind a text. -/
theorem Spans.lit (hs : Spans a b s) (h : closersAfter false b cs = some c) :
    Spans a c (s ++ String.ofList cs) :=
  hs.append (.code h)

theorem Spans.text (hs : Spans a b s) (ht : Neutral t.toList) : Spans a b (s ++ t) :=
  hs.append (.of_neutral ht)

theorem Spans.neutral (h : Spans [] [] s) : Neutral s.toList := Moves.neutral h

theorem Spans.intercalate {sep : String} (hsep : Neutral sep.toList)
    (h : ∀ t ∈ texts, Neutral t.toList) : Spans a a (sep.intercalate texts) := by
  induction texts with
  | nil => exact .code rfl
  | cons t texts ih =>
    have ht : Spans a a t := .of_neutral (h t List.mem_cons_self)
    cases texts with
    | nil => exact ht
    | cons u texts =>
      rw [String.intercalate_cons_cons]
      exact (ht.text hsep).append (ih fun v hv => h v (List.mem_cons_of_mem t hv))

theorem Spans.commas (h : ∀ t ∈ texts, Neutral t.toList) : Spans a a (commas texts) :=
  Spans.intercalate (.code (by decide)) h

end Spans

open Spans (code neutral of_neutral)

section Fixed

variable {P : Policy} {cs : List Char}

theorem Policy.Text.code (h : closersAfter false [] cs = some []) : P.Text (String.ofList cs) :=
  fun _ => (Spans.code h).neutral

theorem Policy.Text.append {s t : String} (hs : P.Text s) (ht : P.Text t) : P.Text (s ++ t) :=
  fun hP => ((of_neutral (hs hP)).text (ht hP)).neutral

theorem text_operator (h : closersAfter false [] (' ' :: cs ++ [' ']) = some []) :
    P.Text (" " ++ String.ofList cs ++ " ") := by
  have htext : " " ++ String.ofList cs ++ " " = String.ofList (' ' :: cs ++ [' ']) := by
    apply String.toList_injective
    simp
  rw [htext]
  exact .code h

end Fixed

/-! ## Template literals -/

section Templates

variable {ps : List Part} {c : Char} {rest : List Char}

theorem join_chunk (value : String) (ps : List Part) :
    (String.join (partTexts (.chunk value :: ps))).toList =
      Literal.escapeTemplateChars value.toList ++ (String.join (partTexts ps)).toList := by
  simp [partTexts, Literal.toList_escapeTemplate]

theorem join_slot (e : Expr) (ps : List Part) :
    (String.join (partTexts (.slot e :: ps))).toList =
      '$' :: '\x7b' :: (e.text.toList ++ '\x7d' :: (String.join (partTexts ps)).toList) := by
  simp [partTexts]

theorem firstChar?_of_head? (hc : c.toNat = 0x60)
    (h : ((String.join (partTexts ps)).toList ++ c :: rest).head? = some '\x7b') :
    firstChar? (ps.map Part.text?) = some '\x7b' := by
  induction ps with
  | nil =>
    obtain rfl : c = '\x7b' := by simpa [partTexts] using h
    exact absurd hc (by decide)
  | cons part ps ih =>
    cases part with
    | slot e =>
      rw [join_slot] at h
      simp at h
    | chunk value =>
      rw [join_chunk, List.append_assoc] at h
      have hhead := head?_escapeTemplate h
      rw [List.map_cons, Part.text?, firstChar?]
      cases hv : value.toList with
      | nil =>
        rw [hv] at hhead
        simpa using ih hhead
      | cons d ds =>
        rw [hv] at hhead
        simpa using hhead

/-- By induction on the parts: a chunk stays in the text, and a slot comes back to it. -/
theorem endsLevel_parts (hc : c.toNat = 0x60) {p q : Point} (hq : Within [.template] p q)
    (hslots : ∀ e, Part.slot e ∈ ps → Neutral e.text.toList)
    (hjoins : joinsSafely (ps.map Part.text?) = true) (h : ∀ r, Point.Like p r → EndsLevel r rest) :
    EndsLevel q ((String.join (partTexts ps)).toList ++ c :: rest) := by
  induction ps generalizing q with
  | nil => exact .closeTemplate hc hq fun r hr => h r ⟨hr.opened, hr.total, hr.steady⟩
  | cons part ps ih =>
    have ih := fun {q : Point} (hq : Within [.template] p q) => ih hq fun e he =>
      hslots e (List.mem_cons_of_mem part he)
    cases part with
    | chunk value =>
      simp only [List.map_cons, Part.text?, joinsSafely, Bool.and_eq_true, Bool.not_eq_true',
        Bool.and_eq_false_iff] at hjoins
      rw [join_chunk, List.append_assoc]
      refine .chunk (by simp [hq.opened]) (fun hlast hhead => ?_) (ih hq hjoins.2)
      have hfirst := firstChar?_of_head? hc hhead
      simp [hlast, hfirst] at hjoins
    | slot e =>
      rw [join_slot, List.cons_append, List.cons_append, List.append_assoc]
      refine .openSlot hq fun r hr => ?_
      refine (hslots e List.mem_cons_self).before r _ ?_ hr.steady fun t ht => ?_
      · rw [Point.InCode, hr.opened]
        simp
      · exact .closeSlot (hr.like ht) fun u hu => ih hu hjoins

theorem neutral_template (hslots : ∀ e, Part.slot e ∈ ps → Neutral e.text.toList)
    (hjoins : joinsSafely (ps.map Part.text?) = true) :
    Neutral ("`" ++ String.join (partTexts ps) ++ "`").toList := by
  have htick : ("`" : String).toList = [Char.ofNat 0x60] := by decide
  refine ⟨fun p rest hcode hp h => ?_⟩
  rw [String.toList_append, String.toList_append, htick, List.append_assoc, List.append_assoc,
    List.singleton_append, List.singleton_append]
  exact .openTemplate (by decide) hcode hp fun q hq =>
    endsLevel_parts (by decide) hq hslots hjoins h

end Templates

/-! ## Lines -/

/-- The lines with a line feed behind each. -/
def linesText (lines : List String) : List Char := lines.flatMap fun line => line.toList ++ ['\n']

@[simp] theorem linesText_append (ls ms : List String) :
    linesText (ls ++ ms) = linesText ls ++ linesText ms :=
  List.flatMap_append

@[simp] theorem linesText_cons (l : String) (ls : List String) :
    linesText (l :: ls) = l.toList ++ '\n' :: linesText ls := by
  simp [linesText]

theorem linesText_eq {lines : List String} (h : lines ≠ []) :
    linesText lines = ("\n".intercalate lines).toList ++ ['\n'] := by
  induction lines with
  | nil => exact absurd rfl h
  | cons l ls ih =>
    cases ls with
    | nil => simp [linesText]
    | cons m ls =>
      rw [linesText_cons, ih (List.cons_ne_nil m ls), String.intercalate_cons_cons]
      simp

/-- The lines go from inside some brackets to inside others. -/
def Lines (before after : List Char) (lines : List String) : Prop :=
  Moves before after (linesText lines)

section Lines

variable {a b c : List Char} {l : String} {ls ms : List String}

theorem Lines.nil : Lines a a [] := Neutral.nil.moves

theorem Lines.cons (hl : Spans a b l) (hls : Lines b c ls) : Lines a c (l :: ls) := by
  unfold Lines
  have hnewline : Neutral ['\n'] := .code (by decide)
  rw [linesText_cons]
  exact .append hl (Moves.append hnewline.moves hls)

theorem Lines.append (hls : Lines a b ls) (hms : Lines b c ms) : Lines a c (ls ++ ms) := by
  unfold Lines
  rw [linesText_append]
  exact .append hls hms

theorem Lines.single (hl : Spans a b l) : Lines a b [l] := .cons hl .nil

theorem Lines.of_neutral (h : Lines [] [] ls) : Lines a a ls := (Moves.neutral h).moves

theorem neutral_braces (h : Lines [] [] ls) : Spans a a (braces ls) := by
  unfold braces
  split
  case isTrue => exact Neutral.moves (.code (by decide))
  case isFalse hne =>
    have hne : ls ≠ [] := by simpa using hne
    have htext : ("\x7b\n" ++ "\n".intercalate ls ++ "\n\x7d").toList =
        '\x7b' :: '\n' :: (linesText ls ++ ['\x7d']) := by
      rw [linesText_eq hne]
      simp
    have hopen : Moves [] ['\x7d'] ['\x7b', '\n'] := .code (by decide)
    have hclose : Moves ['\x7d'] [] ['\x7d'] := .code (by decide)
    refine Neutral.moves ?_
    rw [htext]
    exact Moves.neutral (hopen.append (Moves.append h.of_neutral hclose))

end Lines

/-! ## Trees -/

theorem spans_async (isAsync : Bool) {a : List Char} : Spans a a (asyncText isAsync) := by
  cases isAsync <;> exact .of_neutral (.code (by decide))

theorem spans_keyword (keyword : Keyword) {a : List Char} : Spans a a keyword.text := by
  cases keyword <;> exact .of_neutral (.code (by decide))

theorem neutral_exprTexts {es : List Expr} (h : ∀ e ∈ es, Neutral e.text.toList) :
    ∀ t ∈ exprTexts es, Neutral t.toList := by
  induction es with
  | nil => simp [exprTexts]
  | cons e es ih =>
    rintro t (_ | ⟨_, ht⟩)
    · exact h e List.mem_cons_self
    · exact ih (fun d hd => h d (List.mem_cons_of_mem e hd)) t ht

section Trees

-- the rule is assumed once for the whole recursion
set_option linter.unusedSectionVars false

variable {P : Policy} (hP : P.neutral) {a : List Char}

include hP

theorem Policy.Text.spans {s : String} (h : P.Text s) : Spans a a s := .of_neutral (h hP)

theorem Policy.Label.spans {label : Option String} (h : P.Label label) :
    Spans a a (labelText label) := by
  cases label with
  | none => exact .of_neutral (.code rfl)
  | some name => exact ((h name rfl).spans hP).text (.code rfl)

theorem lines_block {head : String} {lines : List String} (hhead : Spans [] ['\x7d'] head)
    (hlines : Lines [] [] lines) : Lines [] [] (head :: lines ++ ["\x7d"]) :=
  (Lines.cons hhead hlines.of_neutral).append (.single (.code rfl))

theorem lines_break {label : Option String} (h : P.Label label) : Lines [] [] [breakLine label] := by
  cases label with
  | none => exact .single (.code rfl)
  | some label => exact .single (((code rfl).text ((h label rfl) hP)).lit rfl)

theorem spans_count {label limit : Option String} {var first bound op step : String}
    (hlabel : P.Label label) (hvar : P.Text var) (hfirst : Neutral first.toList)
    (hlimit : P.Label limit) (hbound : Neutral bound.toList) (hop : Spans [')'] [')'] op)
    (hstep : Spans [')'] ['\x7d'] step) :
    Spans [] ['\x7d'] (labelText label ++ "for (let " ++ var ++ " = " ++ first ++ (match limit with
       | none => "; " ++ var ++ op ++ bound
       | some limit => ", " ++ limit ++ " = " ++ bound ++ "; " ++ var ++ op ++ limit) ++
      "; " ++ var ++ step) := by
  have hhead : Spans [] [')'] (labelText label ++ "for (let " ++ var ++ " = " ++ first) :=
    ((((hlabel.spans hP).lit rfl).text (hvar hP)).lit rfl).text hfirst
  have hcond : Spans [')'] [')'] (match limit with
       | none => "; " ++ var ++ op ++ bound
       | some limit => ", " ++ limit ++ " = " ++ bound ++ "; " ++ var ++ op ++ limit) := by
    cases limit with
    | none => exact (((code rfl).text (hvar hP)).append hop).text hbound
    | some limit =>
      have hlimit := hlimit limit rfl
      exact (((((((code rfl).text (hlimit hP)).lit rfl).text hbound).lit rfl).text
        (hvar hP)).append hop).text (hlimit hP)
  exact (((hhead.append hcond).lit rfl).text (hvar hP)).append hstep

theorem neutral_arrow {isAsync : Bool} {params : List Binding} {body : String}
    (hparams : P.Text (paramsText params)) (hbody : Neutral body.toList) :
    Neutral (asyncText isAsync ++ "(" ++ paramsText params ++ ") => " ++ body).toList :=
  neutral (((((spans_async isAsync).lit rfl).text (hparams hP)).lit rfl).text hbody)

mutual

theorem Expr.neutral_text {around : Around} : ∀ e : Expr, e.Obeys P around → Neutral e.text.toList
  | .atom text, h => h hP
  | .str value, _ => .quote value
  | .template parts, h => neutral_template (slots_neutral parts h.2) (h.1 hP)
  | .paren e, h => by
    have he := e.neutral_text h
    exact neutral (((code rfl).text he).lit rfl)
  | .unary op e, h => by
    have he := e.neutral_text h.2
    exact neutral ((h.1.spans hP).text he)
  | .binary op l r, h => by
    obtain ⟨hop, hl, hr⟩ := h
    have hl := l.neutral_text hl
    have hr := r.neutral_text hr
    rw [Expr.text]
    have htext : l.text ++ " " ++ op ++ " " ++ r.text = l.text ++ (" " ++ op ++ " ") ++ r.text := by
      simp [String.append_assoc]
    rw [htext]
    exact neutral (((of_neutral hl).text (hop hP)).text hr)
  | .ternary c y n, h => by
    obtain ⟨hc, hy, hn⟩ := h
    have hc := c.neutral_text hc
    have hy := y.neutral_text hy
    have hn := n.neutral_text hn
    exact neutral (((((((code rfl).text hc).lit rfl).text hy).lit rfl).text hn).lit rfl)
  | .call f args, h => by
    have hf := f.neutral_text h.1
    have hargs := neutral_exprTexts (exprs_neutral args h.2)
    exact neutral ((((of_neutral hf).lit rfl).append (.commas hargs)).lit rfl)
  | .construct type args, h => by
    have hargs := neutral_exprTexts (exprs_neutral args h.2)
    exact neutral (((((code rfl).text (h.1 hP)).lit rfl).append (.commas hargs)).lit rfl)
  | .member e name, h => by
    have he := e.neutral_text h.2
    exact neutral (((of_neutral he).lit rfl).text (h.1 hP))
  | .index e i, h => by
    have he := e.neutral_text h.1
    have hi := i.neutral_text h.2
    exact neutral ((((of_neutral he).lit rfl).text hi).lit rfl)
  | .array elems, h => by
    have helems := neutral_exprTexts (exprs_neutral elems h)
    exact neutral (((code rfl).append (.commas helems)).lit rfl)
  | .object props, h => by
    have hprops := props_neutral props h
    exact neutral (((code rfl).append (.commas hprops)).lit rfl)
  | .arrow origin isAsync params body, h => by
    cases origin <;>
      · exact neutral_arrow hP h.1 (body.neutral_text h.2)
  | .arrowBlock origin isAsync params body, h => by
    cases origin <;>
      · exact neutral_arrow hP h.1 (neutral_braces (block_lines body h.2)).neutral
  | .await e, h => by
    have he := e.neutral_text h.2
    exact neutral (((code rfl).text he).lit rfl)
  | .tryUnwrap e, h => by
    have he := e.neutral_text h.2
    exact neutral (((code rfl).text he).lit rfl)
  | .spread e, h => by
    have he := e.neutral_text h
    exact neutral ((code rfl).text he)
  | .note e comment, h => by
    have he := e.neutral_text h.2
    have htext : e.text ++ " /* " ++ comment ++ " */" =
        e.text ++ " " ++ ("/* " ++ comment ++ " */") := by
      rw [show (" /* " : String) = " " ++ "/* " from rfl]
      simp only [String.append_assoc]
    rw [Expr.text, htext]
    exact neutral (((of_neutral he).lit rfl).text (h.1 hP))
  | .tests ts, h => h hP

theorem exprs_neutral {around : Around} : ∀ es : List Expr, exprsObey P around es →
    ∀ e ∈ es, Neutral e.text.toList
  | [], _ => by simp
  | e :: es, h => by
    rintro d (_ | ⟨_, hd⟩)
    · exact e.neutral_text h.1
    · exact exprs_neutral es h.2 d hd

theorem slots_neutral {around : Around} : ∀ ps : List Part, partsObey P around ps →
    ∀ e, Part.slot e ∈ ps → Neutral e.text.toList
  | [], _ => by simp
  | .chunk value :: ps, h => by
    rintro e (_ | ⟨_, he⟩)
    exact slots_neutral ps h e he
  | .slot d :: ps, h => by
    rintro e (_ | ⟨_, he⟩)
    · exact d.neutral_text h.1
    · exact slots_neutral ps h.2 e he

theorem props_neutral {around : Around} : ∀ ps : List Property, propsObey P around ps →
    ∀ t ∈ propTexts ps, Neutral t.toList
  | [], _ => by simp [propTexts]
  | .short name :: ps, h => by
    rintro t (_ | ⟨_, ht⟩)
    · exact h.1 hP
    · exact props_neutral ps h.2 t ht
  | .pair name value :: ps, h => by
    obtain ⟨hname, hvalue, hps⟩ := h
    have hvalue := value.neutral_text hvalue
    rintro t (_ | ⟨_, ht⟩)
    · exact neutral (((hname.spans hP).lit rfl).text hvalue)
    · exact props_neutral ps hps t ht

theorem Stmt.lines_neutral {site : Site} : ∀ s : Stmt, s.Obeys P site → Lines [] [] s.lines
  | .expr e, h => by
    have he := e.neutral_text h
    exact .single ((of_neutral he).lit rfl)
  | .deliver tail e, h => by
    have he := e.neutral_text h.2
    exact .single (((h.1.spans hP).text he).lit rfl)
  | .exit tail e label, h => by
    obtain ⟨hlead, he, hjump⟩ := h
    refine .cons (((hlead.spans hP).text (e.neutral_text he)).lit rfl) ?_
    split
    · exact .nil
    · next hstays => exact lines_break hP (hjump (by simpa using hstays)).2
  | .declare keyword binding none, h =>
    .single ((((spans_keyword keyword).lit rfl).text (h hP)).lit rfl)
  | .declare keyword binding (some e), h => by
    have he := e.neutral_text h.2
    exact .single ((((((spans_keyword keyword).lit rfl).text (h.1 hP)).lit rfl).text he).lit rfl)
  | .block label body, h => lines_block hP ((h.1.spans hP).lit rfl) (block_lines body h.2)
  | .branch [] otherwise, h => absurd rfl (h.1 hP)
  | .branch (.mk c body :: rest) otherwise, h => by
    obtain ⟨-, ⟨hc, hbody, hrest⟩, hotherwise⟩ := h
    have hc := c.neutral_text hc
    exact ((Lines.cons (((code rfl).text hc).lit rfl)
      (block_lines body hbody).of_neutral).append (branch_lines rest hrest)).append
      (otherwise_lines otherwise hotherwise)
  | .whileLoop label c body, h => by
    obtain ⟨hlabel, hc, hbody⟩ := h
    have hc := c.neutral_text hc
    exact lines_block hP ((((hlabel.spans hP).lit rfl).text hc).lit rfl) (block_lines body hbody)
  | .forOf label keyword binding source body, h => by
    obtain ⟨hlabel, hbinding, hsource, hbody⟩ := h
    have hsource := source.neutral_text hsource
    exact lines_block hP ((((((((hlabel.spans hP).lit rfl).append
      (spans_keyword keyword)).lit rfl).text (hbinding hP)).lit rfl).text hsource).lit rfl)
      (block_lines body hbody)
  | .countUp label var first limit bound inclusive body, h => by
    obtain ⟨hlabel, hvar, hlimit, hfirst, hbound, hbody⟩ := h
    have hop : Spans [')'] [')'] (if inclusive then " <= " else " < ") := by
      cases inclusive <;> exact .code rfl
    cases limit <;>
      · exact lines_block hP (spans_count hP hlabel hvar (first.neutral_text hfirst) hlimit
          (bound.neutral_text hbound) hop (.code rfl)) (block_lines body hbody)
  | .countDown label var first limit bound body, h => by
    obtain ⟨hlabel, hvar, hlimit, hfirst, hbound, hbody⟩ := h
    cases limit <;>
      · exact lines_block hP (spans_count hP hlabel hvar (first.neutral_text hfirst) hlimit
          (bound.neutral_text hbound) (.code rfl) (.code rfl)) (block_lines body hbody)
  | .ret none, _ => .single (.code rfl)
  | .ret (some e), h => by
    have he := e.neutral_text h.2
    exact .single (((code rfl).text he).lit rfl)
  | .brk label, h => lines_break hP h.2
  | .cont none, _ => .single (.code rfl)
  | .cont (some label), h => .single (((code rfl).text ((h.2 label rfl) hP)).lit rfl)
  | .breakUnless c, h => by
    have hc := c.neutral_text h.2
    exact .single (((code rfl).text hc).lit rfl)
  | .leave label, h => .single (((code rfl).text (h.2 hP)).lit rfl)
  | .function isAsync name params body, h => by
    obtain ⟨hname, hparams, hbody⟩ := h
    exact .single (((((((spans_async isAsync).lit rfl).text (hname hP)).lit rfl).text
      (hparams hP)).lit rfl).append (neutral_braces (block_lines body hbody)))
  | .catchTry body, h => by
    have hreturn : Spans ['\x7d'] ['\x7d']
        "if ($e instanceof TryPropagation) return $e.value;" := .code (by decide)
    refine (Lines.cons (b := ['\x7d']) (.code rfl) (block_lines body h.2).of_neutral).append ?_
    exact .cons (.code rfl) (.cons hreturn (.cons (.code rfl) (.single (.code rfl))))

theorem block_lines {site : Site} : ∀ ss : List Stmt, blockObeys P site ss →
    Lines [] [] (blockLines ss)
  | [], _ => .nil
  | s :: ss, h => (s.lines_neutral h.1).append (block_lines ss h.2)

theorem branch_lines {site : Site} : ∀ bs : List Branch, branchesObey P site bs →
    Lines ['\x7d'] ['\x7d'] (branchLines bs)
  | [], _ => .nil
  | .mk c body :: rest, h => by
    obtain ⟨hc, hbody, hrest⟩ := h
    have hc := c.neutral_text hc
    exact (Lines.cons (((code rfl).text hc).lit rfl)
      (block_lines body hbody).of_neutral).append (branch_lines rest hrest)

theorem otherwise_lines {site : Site} : ∀ otherwise : Option (List Stmt),
    otherwiseObeys P site otherwise → Lines ['\x7d'] [] (otherwiseLines otherwise)
  | none, _ => .single (.code rfl)
  | some body, h =>
    (Lines.cons (.code rfl) (block_lines body h).of_neutral).append (.single (.code rfl))

end

end Trees

end RustScript.Js
