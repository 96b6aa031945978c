/-
  Template literals as JavaScript reads them.

  The emitter escapes the texts of a template one by one. That is good enough exactly if no text
  that ends in a dollar sign meets one that begins with a brace (`readTemplate?_text_iff`).
-/
import RustScript.Proofs.Js.Extent
import RustScript.Proofs.Literal.Reading

namespace RustScript.Js

open Json (Units unitsOfChar units)

/-! ## The rules -/

/-- What a template literal says: its first chunk, and the code of each substitution with the chunk
    that follows it. -/
structure Filling where
  first : Units
  rest : List (String × Units)
  deriving DecidableEq

/-- The code of a substitution whose opening has been read, and what follows its closing brace. -/
def readSlot? (cs : List Char) : Option (String × List Char) :=
  (extent 0 [.brace] cs).map fun n => (String.ofList (cs.take (n - 1)), cs.drop n)

variable {value : Units}

theorem length_le_of_readBody {piece? : Char → List Char → Option Piece} {cs rest : List Char}
    {isSlot : Bool} (h : readBody piece? cs = some (value, isSlot, rest)) :
    rest.length < cs.length := by
  fun_induction readBody piece? cs generalizing value with
  | case1 => cases h
  | case2 c cs v more _ ih =>
    obtain ⟨⟨u, r⟩, hr, heq⟩ := Option.map_eq_some_iff.mp h
    cases heq
    have hlt := ih hr
    simp only [List.length_drop, List.length_cons] at hlt ⊢
    omega
  | case3 c cs =>
    cases h
    simp
  | case4 c cs =>
    cases h
    simp only [List.length_tail, List.length_cons]
    omega
  | case5 => cases h

variable {code : String}

theorem length_le_of_readSlot? {cs rest : List Char} (h : readSlot? cs = some (code, rest)) :
    rest.length ≤ cs.length := by
  obtain ⟨n, -, heq⟩ := Option.map_eq_some_iff.mp h
  cases heq
  rw [List.length_drop]
  omega

/-- What the rest of a template literal says, from inside its text on, and what follows it. -/
def readParts (cs : List Char) : Option (Filling × List Char) :=
  match h : readBody templatePiece? cs with
  | none => none
  | some (value, false, rest) => some (⟨value, []⟩, rest)
  | some (value, true, rest) =>
    match k : readSlot? rest with
    | none => none
    | some (code, after) =>
      have := length_le_of_readBody h
      have := length_le_of_readSlot? k
      (readParts after).map fun r => (⟨value, (code, r.1.first) :: r.1.rest⟩, r.2)
termination_by cs.length
decreasing_by omega

/-- What the template literal at the front of a text says, and what follows it. -/
def readTemplate? : List Char → Option (Filling × List Char)
  | c :: cs => if c.toNat == 0x60 then readParts cs else none
  | [] => none

/-! ## What a template literal is meant to say -/

/-- The filling with more in its first chunk. -/
def Filling.prepend (value : Units) (f : Filling) : Filling := { f with first := value ++ f.first }

/-- The filling behind a substitution. -/
def Filling.behind (code : String) (f : Filling) : Filling := ⟨[], (code, f.first) :: f.rest⟩

/-- The texts and codes of a template literal in order. Neighbouring texts are one chunk. -/
def filling : List Part → Filling
  | [] => ⟨[], []⟩
  | .chunk value :: ps => (filling ps).prepend (units value)
  | .slot e :: ps => (filling ps).behind e.text

variable {f g : Filling}

theorem Filling.prepend_inj : f.prepend value = g.prepend value ↔ f = g := by
  cases f
  cases g
  simp [prepend]

theorem Filling.behind_inj : f.behind code = g.behind code ↔ f = g := by
  cases f
  cases g
  simp [behind]

theorem map_filling_iff {g : Filling → Filling} (hg : ∀ {f f'}, g f = g f' ↔ f = f')
    {o : Option (Filling × List Char)} {f : Filling} {rest : List Char} :
    (o.map fun r => (g r.1, r.2)) = some (g f, rest) ↔ o = some (f, rest) := by
  cases o with
  | none => simp
  | some r =>
    rw [Option.map_some, Option.some.injEq, Option.some.injEq, Prod.mk.injEq, hg, Prod.ext_iff]

/-! ## Reading a chunk or a substitution -/

section Parts

variable {cs ds rest : List Char}

theorem readParts_eq (cs : List Char) :
    readParts cs = (readBody templatePiece? cs).bind fun chunk =>
      if chunk.2.1 then
        (readSlot? chunk.2.2).bind fun slot =>
          (readParts slot.2).map fun r => ((r.1.behind slot.1).prepend chunk.1, r.2)
      else some (⟨chunk.1, []⟩, chunk.2.2) := by
  rw [readParts]
  split
  · next h => simp [h]
  · next value rest h => simp [h]
  · next value rest h =>
    split
    · next k => simp [h, k]
    · next code after k => simp [h, k, Filling.behind, Filling.prepend]

theorem readParts_prepend {value : Units}
    (h : readBody templatePiece? cs = (readBody templatePiece? ds).map fun r => (value ++ r.1, r.2)) :
    readParts cs = (readParts ds).map fun r => (r.1.prepend value, r.2) := by
  rw [readParts_eq cs, readParts_eq ds, h, Option.bind_map, Option.map_bind]
  congr 1
  funext chunk
  obtain ⟨u, isSlot, rest⟩ := chunk
  cases isSlot with
  | false => rfl
  | true =>
    simp only [Function.comp_apply, if_true, Option.map_bind]
    congr 1
    funext slot
    simp [Function.comp_def, Filling.prepend]

theorem readParts_chunk (value : String) (hjoin : value.toList.getLast? = some '$' →
      rest.head? ≠ some '\x7b') :
    readParts (Literal.escapeTemplateChars value.toList ++ rest) =
      (readParts rest).map fun r => (r.1.prepend (units value), r.2) :=
  readParts_prepend (readBody_chunk _ _ hjoin)

theorem readSlot?_closed (hcs : Closed cs) (rest : List Char) :
    readSlot? (cs ++ '\x7d' :: rest) = some (String.ofList cs, rest) := by
  have hextent : extent 0 [.brace] (cs ++ '\x7d' :: rest) = some (cs.length + 1) :=
    extent_bracket hcs (show Layout.closerOf? '\x7b' = some '\x7d' from rfl) rest
  have htake : (cs ++ '\x7d' :: rest).take cs.length = cs := List.take_left
  have hdrop : (cs ++ '\x7d' :: rest).drop (cs.length + 1) = rest := by
    rw [List.drop_append]
    simp
  rw [readSlot?, hextent, Option.map_some, Nat.add_sub_cancel, htake, hdrop]

theorem readParts_slot (hcs : Closed cs) (rest : List Char) :
    readParts ('$' :: '\x7b' :: (cs ++ '\x7d' :: rest)) =
      (readParts rest).map fun r => (r.1.behind (String.ofList cs), r.2) := by
  have hopen : readBody templatePiece? ('$' :: '\x7b' :: (cs ++ '\x7d' :: rest)) =
      some ([], true, cs ++ '\x7d' :: rest) := by
    rw [readBody]
    rfl
  rw [readParts_eq, hopen, Option.bind_some, if_pos rfl, readSlot?_closed hcs]
  rfl

open Literal in
theorem escapeTemplateChars_append (hjoin : cs.getLast? = some '$' → ds.head? ≠ some '\x7b') :
    escapeTemplateChars (cs ++ ds) = escapeTemplateChars cs ++ escapeTemplateChars ds := by
  fun_induction escapeTemplateChars cs with
  | case1 => rfl
  | case2 cs ih =>
    have hrest := ih fun hlast => hjoin (by
      rw [List.getLast?_cons_cons, List.getLast?_cons, hlast]
      rfl)
    rw [List.cons_append, List.cons_append, escapeTemplateChars, hrest]
    rfl
  | case3 c cs hno ih =>
    have hrest := ih fun hlast => hjoin (by
      rw [List.getLast?_cons, hlast]
      rfl)
    have hno' : ∀ es, c = '$' → cs ++ ds = '\x7b' :: es → False := by
      intro es hc hes
      cases cs with
      | nil => exact hjoin (by rw [hc]; rfl) (by rw [← List.nil_append ds, hes]; rfl)
      | cons d cs' => exact hno cs' hc (congrArg (· :: cs') (List.cons.inj hes).1)
    rw [List.cons_append, escapeTemplateChars.eq_3 c _ hno', hrest, List.append_assoc]

theorem readBody_dollar (cs rest : List Char) :
    readBody templatePiece? (Literal.escapeTemplateChars (cs ++ ['$']) ++ '\x7b' :: rest) =
      some (cs.flatMap unitsOfChar, true, rest) := by
  have hescape : Literal.escapeTemplateChars (cs ++ ['$']) =
      Literal.escapeTemplateChars cs ++ ['$'] :=
    escapeTemplateChars_append fun _ h => absurd h (by decide)
  have hopen : readBody templatePiece? ('$' :: '\x7b' :: rest) = some ([], true, rest) := by
    rw [readBody]
    rfl
  rw [hescape, List.append_assoc, List.singleton_append,
    readBody_chunk cs _ fun _ h => absurd h (by simp), hopen]
  simp

end Parts

/-! ## Whole template literals -/

section Whole

variable {ps : List Part} {tick : Char} {rest : List Char}

theorem exists_of_firstChar? (h : firstChar? (ps.map Part.text?) = some '\x7b') (rest : List Char) :
    ∃ more, (String.join (partTexts ps)).toList ++ rest = '\x7b' :: more := by
  induction ps with
  | nil => cases h
  | cons part ps ih =>
    cases part with
    | slot e => cases h
    | chunk value =>
      rw [join_chunk]
      rw [List.map_cons, Part.text?, firstChar?] at h
      cases hv : value.toList with
      | nil =>
        rw [hv] at h
        exact ih h
      | cons c cs =>
        rw [hv] at h
        cases h
        exact ⟨_, rfl⟩

theorem readParts_join_iff (htick : tick.toNat = 0x60)
    (hslots : ∀ e, Part.slot e ∈ ps → Closed e.text.toList) :
    readParts ((String.join (partTexts ps)).toList ++ tick :: rest) = some (filling ps, rest) ↔
      joinsSafely (ps.map Part.text?) = true := by
  induction ps with
  | nil =>
    have hread : readParts (tick :: rest) = some (⟨[], []⟩, rest) := by
      rw [readParts_eq, readBody_tick htick]
      rfl
    simpa [partTexts, joinsSafely, filling] using hread
  | cons part ps ih =>
    have ih := ih fun e he => hslots e (List.mem_cons_of_mem part he)
    cases part with
    | slot e =>
      rw [join_slot, List.cons_append, List.cons_append, List.append_assoc, List.cons_append,
        readParts_slot (hslots e List.mem_cons_self), String.ofList_toList]
      exact (map_filling_iff Filling.behind_inj).trans ih
    | chunk value =>
      rw [join_chunk, List.append_assoc, List.map_cons, Part.text?, joinsSafely]
      by_cases hmeet : value.toList.getLast? = some '$' ∧
          firstChar? (ps.map Part.text?) = some '\x7b'
      · -- the text is read without its last character
        obtain ⟨cs, hcs⟩ := List.getLast?_eq_some_iff.mp hmeet.1
        obtain ⟨more, hmore⟩ := exists_of_firstChar? hmeet.2 (tick :: rest)
        refine iff_of_false (fun hread => ?_) (by simp [hmeet])
        rw [hmore, hcs, readParts_eq, readBody_dollar, Option.bind_some, if_pos rfl] at hread
        obtain ⟨slot, -, hread⟩ := Option.bind_eq_some_iff.mp hread
        obtain ⟨r, -, heq⟩ := Option.map_eq_some_iff.mp hread
        have hfirst := congrArg (fun f => f.1.first.length) heq
        simp [filling, Filling.prepend, Filling.behind, units, hcs, unitsOfChar] at hfirst
      · have hjoin : value.toList.getLast? = some '$' →
            ((String.join (partTexts ps)).toList ++ tick :: rest).head? ≠ some '\x7b' :=
          fun hlast hhead => hmeet ⟨hlast, firstChar?_of_head? htick hhead⟩
        rw [readParts_chunk value hjoin]
        have hsafe : (value.toList.getLast? == some '$' &&
            firstChar? (ps.map Part.text?) == some '\x7b') = false := by
          simpa using hmeet
        rw [hsafe]
        exact (map_filling_iff Filling.prepend_inj).trans ih

/-- Wherever it stands, a template literal is read as its texts and codes in order exactly if no
    two of its texts open a substitution together. -/
theorem readTemplate?_text_iff (hslots : ∀ e, Part.slot e ∈ ps → Closed e.text.toList)
    (rest : List Char) :
    readTemplate? ((Expr.template ps).text.toList ++ rest) = some (filling ps, rest) ↔
      joinsSafely (ps.map Part.text?) = true := by
  have htext : (Expr.template ps).text.toList ++ rest =
      '\x60' :: ((String.join (partTexts ps)).toList ++ '\x60' :: rest) := by
    simp [Expr.text]
  rw [htext, readTemplate?, if_pos (by decide)]
  exact readParts_join_iff (by decide) hslots

end Whole

/-! ## Texts and codes in a row -/

/-- A row of texts, with codes in order where there is none. -/
def inOrder : List (Option String) → List Expr → List Part
  | [], _ => []
  | some text :: row, codes => .chunk text :: inOrder row codes
  | none :: row, code :: codes => .slot code :: inOrder row codes
  | none :: _, [] => []

section InOrder

variable {row : List (Option String)} {codes : List Expr}

theorem inOrder_append (h : codes.length = row.count none) (row' : List (Option String))
    (codes' : List Expr) :
    inOrder (row ++ row') (codes ++ codes') = inOrder row codes ++ inOrder row' codes' := by
  induction row generalizing codes with
  | nil =>
    obtain rfl : codes = [] := List.length_eq_zero_iff.mp h
    rfl
  | cons text row ih =>
    cases text with
    | some text => rw [List.cons_append, inOrder, inOrder, ih (by simpa using h), List.cons_append]
    | none =>
      cases codes with
      | nil => simp at h
      | cons code codes =>
        rw [List.cons_append, List.cons_append, inOrder, inOrder, ih (by simpa using h),
          List.cons_append]

theorem map_text?_inOrder (h : codes.length = row.count none) :
    (inOrder row codes).map Part.text? = row := by
  induction row generalizing codes with
  | nil => rfl
  | cons text row ih =>
    cases text with
    | some text => rw [inOrder, List.map_cons, ih (by simpa using h), Part.text?]
    | none =>
      cases codes with
      | nil => simp at h
      | cons code codes => rw [inOrder, List.map_cons, ih (by simpa using h), Part.text?]

theorem mem_of_slot_mem_inOrder {code : Expr} (h : Part.slot code ∈ inOrder row codes) :
    code ∈ codes := by
  fun_induction inOrder row codes with
  | case1 => cases h
  | case2 text row codes ih => exact ih (by simpa using h)
  | case3 row c codes ih =>
    rcases List.mem_cons.mp h with heq | hmem
    · cases heq
      exact List.mem_cons_self
    · exact List.mem_cons_of_mem c (ih hmem)
  | case4 => cases h

theorem readTemplate?_inOrder_iff (hlength : codes.length = row.count none)
    (hclosed : ∀ code ∈ codes, Closed code.text.toList) (rest : List Char) :
    readTemplate? ((Expr.template (inOrder row codes)).text.toList ++ rest) =
        some (filling (inOrder row codes), rest) ↔
      joinsSafely row = true := by
  have hslots (code : Expr) (hmem : .slot code ∈ inOrder row codes) : Closed code.text.toList :=
    hclosed code (mem_of_slot_mem_inOrder hmem)
  rw [readTemplate?_text_iff hslots, map_text?_inOrder hlength]

end InOrder

end RustScript.Js
