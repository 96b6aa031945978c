/-
  What a format says.

  The template falls apart into texts and placeholders, and each placeholder chooses what it shows
  (`chosen?`). With a placeholder the literal that is emitted is a template literal and always
  right. Without one it is a string literal made of the template as it was written: a doubled brace
  stays doubled.
-/
import RustScript.Proofs.Literal.Templates
import RustScript.Proofs.Macro.Nesting

namespace RustScript

open Json (units unitsOfChar)
open Emit (exists_of_bind exists_of_both bind_of_ok)

/-! ## Literals of either kind -/

/-- What the literal at the front of a text says, and what follows it. A string literal is one
    chunk. -/
def Js.readLiteral? (cs : List Char) : Option (Js.Filling × List Char) :=
  if cs.head? == some '"' then (Js.readString? cs).map fun r => (⟨r.1, []⟩, r.2)
  else Js.readTemplate? cs

theorem Js.readLiteral?_quote (s : String) (rest : List Char) :
    Js.readLiteral? ((Literal.quote s).toList ++ rest) = some (⟨units s, []⟩, rest) := by
  have htext : (Literal.quote s).toList ++ rest =
      '"' :: (Literal.escapeStringChars s.toList ++ '"' :: rest) := by
    simp [Literal.quote, Literal.toList_escapeString]
  rw [htext, readLiteral?, if_pos (by simp), readString?, readBody_escapeString]
  rfl

theorem Js.readLiteral?_template (ps : List Js.Part) (rest : List Char) :
    Js.readLiteral? ((Js.Expr.template ps).text.toList ++ rest) =
      Js.readTemplate? ((Js.Expr.template ps).text.toList ++ rest) := by
  have hhead : ((Js.Expr.template ps).text.toList ++ rest).head? = some '\x60' := by
    simp [Expr.text]
  rw [readLiteral?, hhead, if_neg (by decide)]

/-! ## Templates without placeholders -/

namespace Template

def isBrace (c : Char) : Bool := c == '\x7b' || c == '\x7d'

/-- What the texts among the pieces say. -/
def textChars (pieces : List Piece) : List Char :=
  pieces.flatMap fun piece => (piece.text?.getD "").toList

theorem textChars_flush (buffer : List Char) (pieces : List Piece) :
    textChars (flush buffer pieces) = buffer.reverse ++ textChars pieces := by
  unfold flush
  split
  · next h => simp [List.isEmpty_iff.mp h]
  · simp [textChars, Piece.text?]

theorem length_unitsOfChar_pos (c : Char) : 0 < (unitsOfChar c).length := by
  simp only [unitsOfChar]
  split <;> simp

/-- Behind the text `done`, the texts of the pieces go on like the template, or are shorter if it
    has a brace. -/
structure LosesBraces (done cs : List Char) (pieces : List Piece) : Prop where
  plain : cs.any isBrace = false → textChars pieces = done ++ cs
  braced : cs.any isBrace = true →
    ((textChars pieces).flatMap unitsOfChar).length < ((done ++ cs).flatMap unitsOfChar).length

namespace LosesBraces

variable {done cs : List Char} {c : Char} {pieces : List Piece}

theorem le (h : LosesBraces done cs pieces) :
    ((textChars pieces).flatMap unitsOfChar).length ≤
      ((done ++ cs).flatMap unitsOfChar).length := by
  cases hbrace : cs.any isBrace with
  | false => rw [h.plain hbrace]
  | true => exact Nat.le_of_lt (h.braced hbrace)

theorem step (hc : isBrace c = false) (h : LosesBraces (done ++ [c]) cs pieces) :
    LosesBraces done (c :: cs) pieces where
  plain hno := by rw [h.plain (by simpa [hc] using hno), List.append_assoc, List.singleton_append]
  braced hany := by
    have hlt := h.braced (by simpa [hc] using hany)
    rwa [List.append_assoc, List.singleton_append] at hlt

theorem double (hc : isBrace c = true) (d : Char) (h : LosesBraces (done ++ [c]) cs pieces) :
    LosesBraces done (c :: d :: cs) pieces where
  plain hno := by simp [hc] at hno
  braced _ := by
    have hle := h.le
    have hpos := length_unitsOfChar_pos d
    simp only [List.flatMap_append, List.flatMap_cons, List.flatMap_nil, List.length_append,
      List.length_nil] at hle ⊢
    omega

end LosesBraces

variable {template : String}

/-- By induction on the template: every character joins the text, of a doubled brace the first. -/
theorem losesBraces_piecesFrom {skip : Nat} {buffer cs : List Char} {pieces : List Piece}
    (h : piecesFrom template skip buffer cs = .ok pieces) (hno : pieces.any Macro.isSlot = false) :
    LosesBraces buffer.reverse (cs.drop skip) pieces := by
  induction cs generalizing skip buffer pieces with
  | nil =>
    have hpieces : flush buffer [] = pieces := by cases skip <;> exact Except.ok.inj h
    rw [← hpieces, List.drop_nil]
    refine ⟨fun _ => textChars_flush buffer [], fun h => ?_⟩
    cases h
  | cons c cs ih =>
    cases skip with
    | succ skip => exact ih h hno
    | zero =>
      have hdouble (hc : isBrace c = true) {d : Char} (hhead : cs.head? = some d)
          (hpieces : piecesFrom template 1 (c :: buffer) cs = .ok pieces) :
          LosesBraces buffer.reverse (c :: cs) pieces := by
        obtain ⟨ds, rfl⟩ := List.head?_eq_some_iff.mp hhead
        have hrest := ih hpieces hno
        rw [List.reverse_cons] at hrest
        exact hrest.double hc d
      rw [piecesFrom] at h
      split at h
      · next hopen =>
        have hc : isBrace c = true := by simp [isBrace, beq_iff_eq.mp hopen]
        split at h
        · next hhead => exact hdouble hc (beq_iff_eq.mp hhead) h
        split at h
        · obtain ⟨rest, -, rfl⟩ := exists_of_return_eq_ok h
          unfold flush at hno
          split at hno <;> simp [Macro.isSlot] at hno
        · cases h
      next hopen =>
      split at h
      · next hclose =>
        have hc : isBrace c = true := by simp [isBrace, beq_iff_eq.mp hclose]
        split at h
        · next hhead => exact hdouble hc (beq_iff_eq.mp hhead) h
        · cases h
      · next hclose =>
        have hc : isBrace c = false := by
          rw [isBrace, Bool.eq_false_iff.mpr hopen, Bool.eq_false_iff.mpr hclose]
          rfl
        have hrest := ih h hno
        rw [List.reverse_cons, List.drop_zero] at hrest
        exact hrest.step hc

/-- Without a placeholder, the texts mean the template as it is written exactly if it has no
    brace. -/
theorem units_textChars_iff {pieces : List Piece} (h : Template.pieces template = .ok pieces)
    (hno : pieces.any Macro.isSlot = false) :
    (textChars pieces).flatMap unitsOfChar = units template ↔
      template.toList.any isBrace = false := by
  have hloses : LosesBraces [] template.toList pieces := losesBraces_piecesFrom h hno
  constructor
  · intro heq
    rw [← Bool.not_eq_true]
    intro hany
    have hlt := hloses.braced hany
    rw [heq] at hlt
    exact Nat.lt_irrefl _ hlt
  · intro hplain
    rw [hloses.plain hplain, List.nil_append, units]

theorem filling_texts {pieces : List Piece} (hno : pieces.any Macro.isSlot = false) :
    Js.filling (Js.inOrder (pieces.map Piece.text?) []) =
      ⟨(textChars pieces).flatMap unitsOfChar, []⟩ := by
  induction pieces with
  | nil => rfl
  | cons piece pieces ih =>
    cases piece with
    | slot p => cases hno
    | text value =>
      rw [List.map_cons, Piece.text?, Js.inOrder, Js.filling, ih hno]
      simp [Js.Filling.prepend, textChars, Piece.text?, units]

end Template

/-! ## Choices -/

namespace Macro

section Choices

variable (parts : List String) (codes captured : List Js.Expr)

/-- The arguments without a name. -/
def positionals : List Js.Expr :=
  ((parts.zip codes).filter fun argument => (namedArgument? argument.1).isNone).map Prod.snd

/-- The last argument of that name. -/
def lastNamed? (name : String) : Option Js.Expr :=
  ((parts.zip codes).reverse.find? fun argument =>
    (namedArgument? argument.1).any (·.1 == name)).map Prod.snd

/-- Whether the piece shows the next argument without a name. -/
def takesNext : Template.Piece → Bool
  | .slot p => p.key.isEmpty
  | .text _ => false

/-- The number of arguments that the pieces take one after the other. -/
def nextIndex (before : List Template.Piece) : Nat := before.countP takesNext

/-- How many variables around the call are named before. -/
def captureIndex (before : List Template.Piece) : Nat :=
  before.countP fun piece => (captured? parts piece).isSome

/-- What a placeholder shows, with the pieces before it. `captured` holds the variables around the
    call that placeholders name, in order. -/
def chosen? (before : List Template.Piece) (p : Placeholder) : Option Js.Expr :=
  if p.key.isEmpty then (positionals parts codes)[nextIndex before]?
  else if p.key.toList.all Text.isDigit then
    (Reading.natural? p.key.toList).bind fun index => (positionals parts codes)[index]?
  else
    (lastNamed? parts codes p.key).or captured[captureIndex parts before]?

/-- What the placeholders among the pieces show, each as its specification wants it. -/
def shown? (before : List Template.Piece) : List Template.Piece → Option (List Js.Expr)
  | [] => some []
  | .text s :: pieces => shown? (before ++ [.text s]) pieces
  | .slot p :: pieces => do
    let value ← chosen? parts codes captured before p
    return showAs value p :: (← shown? (before ++ [.slot p]) pieces)

end Choices

/-! ## What is emitted -/

section Emission

variable {arg : String → Emit Js.Expr} {parts : List String} {codes captured : List Js.Expr}
  {place : Place} {s t : State} {value : Js.Expr} {shown : List Js.Expr}

theorem positionals_cons (part : String) (code : Js.Expr) :
    positionals (part :: parts) (code :: codes) =
      if (namedArgument? part).isNone then code :: positionals parts codes
      else positionals parts codes := by
  unfold positionals
  rw [List.zip_cons_cons, List.filter_cons]
  split <;> rfl

theorem lastNamed?_cons (part : String) (code : Js.Expr) (name : String) :
    lastNamed? (part :: parts) (code :: codes) name =
      (lastNamed? parts codes name).or
        (if (namedArgument? part).any (·.1 == name) then some code else none) := by
  unfold lastNamed?
  rw [List.zip_cons_cons, List.reverse_cons, List.find?_append, Option.map_or, List.find?_singleton]
  congr 1
  split <;> rfl

theorem given_of_each (h : each arg (parts.map argumentText) place s = (.ok codes, t)) :
    ∃ args, given arg parts place s = (.ok args, t) ∧ args.IsFor parts ∧
      args.positional = positionals parts codes ∧
      ∀ name, args.byName.lookup name = lastNamed? parts codes name := by
  induction parts generalizing s codes with
  | nil =>
    cases h
    exact ⟨{}, rfl, rfl, rfl, fun _ => rfl⟩
  | cons part parts ih =>
    obtain ⟨code, rest, u, hcode, hrest, rfl⟩ := exists_of_both h
    obtain ⟨args, hargs, hfor, hpositional, hnamed⟩ := ih hrest
    simp only [positionals_cons, lastNamed?_cons]
    cases hname : namedArgument? part with
    | none =>
      have htext : argumentText part = part := by simp [argumentText, hname]
      rw [htext] at hcode
      refine ⟨{ args with positional := code :: args.positional }, ?_, ?_, ?_, ?_⟩
      · simp only [given, hname]
        rw [bind_of_ok hcode, bind_of_ok hargs]
        rfl
      · simpa [Given.IsFor, hname] using hfor
      · simp [hpositional]
      · simpa using hnamed
    | some argument =>
      have htext : argumentText part = argument.2 := by simp [argumentText, hname]
      rw [htext] at hcode
      refine ⟨{ args with byName := args.byName ++ [(argument.1, code)] }, ?_, ?_, ?_, ?_⟩
      · simp only [given, hname]
        rw [bind_of_ok hcode, bind_of_ok hargs]
        rfl
      · simpa [Given.IsFor, hname] using hfor
      · simpa using hpositional
      · intro name
        rw [List.lookup_append, hnamed, List.lookup_cons, Option.any_some, BEq.comm]
        congr 1
        split <;> simp_all

theorem nextIndex_append (before : List Template.Piece) (piece : Template.Piece) :
    nextIndex (before ++ [piece]) = nextIndex before + if takesNext piece then 1 else 0 := by
  rw [nextIndex, List.countP_append, List.countP_singleton]
  rfl

theorem captureIndex_append (before : List Template.Piece) (piece : Template.Piece) :
    captureIndex parts (before ++ [piece]) =
      captureIndex parts before + if (captured? parts piece).isSome then 1 else 0 := by
  rw [captureIndex, List.countP_append, List.countP_singleton]
  rfl

section Pieces

variable {args : Given} (hfor : args.IsFor parts)
  (hpositional : args.positional = positionals parts codes)
  (hnamed : ∀ name, args.byName.lookup name = lastNamed? parts codes name) (template : String)
  {before pieces : List Template.Piece}
include hfor hpositional hnamed

theorem valueOf_of_chosen? {p : Placeholder} {value : Js.Expr}
    (hvalue : chosen? parts codes captured before p = some value)
    (hcaptured : each arg ((Template.Piece.slot p :: pieces).filterMap (captured? parts)) place s =
      (.ok (captured.drop (captureIndex parts before)), t)) :
    ∃ u, valueOf arg template args (nextIndex before) p place s =
        (.ok (value, nextIndex (before ++ [.slot p])), u) ∧
      each arg (pieces.filterMap (captured? parts)) place u =
        (.ok (captured.drop (captureIndex parts (before ++ [.slot p]))), t) := by
  rw [List.filterMap_cons] at hcaptured
  rw [nextIndex_append, captureIndex_append]
  unfold chosen? at hvalue
  unfold valueOf
  split at hvalue
  · next hempty =>
    have hnone : captured? parts (.slot p) = none := by simp [captured?, hempty]
    refine ⟨s, ?_, ?_⟩
    · simp only [hempty, if_true, hpositional, hvalue, takesNext]
      rfl
    · simpa [hnone] using hcaptured
  next hempty =>
  split at hvalue
  · next hdigits =>
    have hnone : captured? parts (.slot p) = none := by simp [captured?, hdigits]
    obtain ⟨index, hindex, hvalue⟩ := Option.bind_eq_some_iff.mp hvalue
    refine ⟨s, ?_, ?_⟩
    · simp only [hempty, hdigits, if_true, hpositional, hindex, hvalue, takesNext]
      rfl
    · simpa [hnone] using hcaptured
  next hdigits =>
  have hname : (p.key.isEmpty || p.key.toList.all Text.isDigit) = false := by
    rw [Bool.eq_false_iff.mpr hempty, Bool.eq_false_iff.mpr hdigits]
    rfl
  rw [← hnamed] at hvalue
  have hsome := hfor.isSome_lookup p.key
  cases hlookup : args.byName.lookup p.key with
  | some code =>
    rw [hlookup, Option.isSome_some] at hsome
    have hnone : captured? parts (.slot p) = none := by simp [captured?, hname, ← hsome]
    obtain rfl : code = value := by simpa [hlookup] using hvalue
    refine ⟨s, ?_, ?_⟩
    · simp only [hempty, hdigits, takesNext]
      rfl
    · simpa [hnone] using hcaptured
  | none =>
    rw [hlookup, Option.isSome_none] at hsome
    have hkey : captured? parts (.slot p) = some p.key := by simp [captured?, hname, ← hsome]
    rw [hkey, each] at hcaptured
    obtain ⟨code, u, hcode, h⟩ := exists_of_bind hcaptured
    obtain ⟨rest, v, hrest, h⟩ := exists_of_bind h
    obtain ⟨hok, rfl⟩ := Prod.mk.inj h
    have hdrop : captured.drop (captureIndex parts before) = code :: rest :=
      (Except.ok.inj hok).symm
    have hcaptured : captured[captureIndex parts before]? = some code := by
      rw [← List.head?_drop, hdrop]
      rfl
    obtain rfl : code = value := by simpa [hlookup, hcaptured] using hvalue
    refine ⟨u, ?_, ?_⟩
    · simp only [hempty, hdigits, takesNext]
      exact bind_of_ok hcode _
    · rw [hkey, Option.isSome_some, if_pos rfl, ← List.drop_drop, hdrop]
      exact hrest

/-- By induction on the pieces: what has been used up before is counted in the pieces before. -/
theorem templateParts_of_shown? {shown : List Js.Expr}
    (hshown : shown? parts codes captured before pieces = some shown)
    (hcaptured : each arg (pieces.filterMap (captured? parts)) place s =
      (.ok (captured.drop (captureIndex parts before)), t)) :
    templateParts arg template args (nextIndex before) pieces place s =
      (.ok (Js.inOrder (pieces.map Template.Piece.text?) shown), t) := by
  induction pieces generalizing before s shown with
  | nil =>
    cases hshown
    obtain rfl : s = t := congrArg Prod.snd hcaptured
    rfl
  | cons piece pieces ih =>
    cases piece with
    | text value =>
      have hrest : templateParts arg template args (nextIndex (before ++ [.text value]))
          pieces place s = (.ok (Js.inOrder (pieces.map Template.Piece.text?) shown), t) :=
        ih hshown (by rw [captureIndex_append]; exact hcaptured)
      rw [nextIndex_append] at hrest
      exact bind_of_ok hrest _
    | slot p =>
      obtain ⟨value, hvalue, hshown⟩ := Option.bind_eq_some_iff.mp hshown
      obtain ⟨rest, hrest, hreturn⟩ := Option.bind_eq_some_iff.mp hshown
      cases hreturn
      obtain ⟨u, hrun, hcaptured⟩ :=
        valueOf_of_chosen? hfor hpositional hnamed template hvalue hcaptured
      rw [templateParts, bind_of_ok hrun]
      exact bind_of_ok (ih hrest hcaptured) _

end Pieces

theorem length_of_shown? {before pieces : List Template.Piece}
    (h : shown? parts codes captured before pieces = some shown) :
    shown.length = (pieces.map Template.Piece.text?).count none := by
  induction pieces generalizing before shown with
  | nil =>
    cases h
    rfl
  | cons piece pieces ih =>
    cases piece with
    | text value => exact (ih h).trans (by simp [Template.Piece.text?])
    | slot p =>
      obtain ⟨value, -, h⟩ := Option.bind_eq_some_iff.mp h
      obtain ⟨rest, hrest, hreturn⟩ := Option.bind_eq_some_iff.mp h
      cases hreturn
      simp [Template.Piece.text?, ih hrest]

theorem mem_of_chosen? {before : List Template.Piece} {p : Placeholder}
    (h : chosen? parts codes captured before p = some value) : value ∈ codes ++ captured := by
  have hpositional {index : Nat} (h : (positionals parts codes)[index]? = some value) :
      value ∈ codes := by
    obtain ⟨argument, hmem, rfl⟩ := List.mem_map.mp (List.mem_of_getElem? h)
    exact (List.of_mem_zip (List.mem_filter.mp hmem).1).2
  unfold chosen? at h
  split at h
  · exact List.mem_append_left _ (hpositional h)
  split at h
  · obtain ⟨index, -, h⟩ := Option.bind_eq_some_iff.mp h
    exact List.mem_append_left _ (hpositional h)
  · rcases Option.or_eq_some_iff.mp h with h | ⟨-, h⟩
    · obtain ⟨argument, hfind, rfl⟩ := Option.map_eq_some_iff.mp h
      have hmem := List.mem_reverse.mp (List.mem_of_find?_eq_some hfind)
      exact List.mem_append_left _ (List.of_mem_zip hmem).2
    · exact List.mem_append_right _ (List.mem_of_getElem? h)

theorem closed_showAs (h : Js.Closed value.text.toList) (p : Placeholder) :
    Js.Closed (showAs value p).text.toList := by
  have hopen : Layout.closerOf? '(' = some ')' := rfl
  unfold showAs
  split
  · have htext : (Idiom.named "debug_repr" [value]).text.toList =
        "debug_repr".toList ++ '(' :: (value.text.toList ++ [')']) := by
      simp [Idiom.named, Js.Expr.text, Js.exprTexts, Js.commas]
    rw [htext]
    exact (Js.Closed.plain (by decide)).append (h.bracketed hopen)
  split
  · next places hplaces =>
    have htext : (Js.Expr.call (.member (Idiom.named "Number" [value]) "toFixed")
          [.atom places]).text.toList =
        "Number".toList ++ '(' :: (value.text.toList ++ [')']) ++
          (".toFixed".toList ++ '(' :: (places.toList ++ [')'])) := by
      simp [Idiom.named, Js.Expr.text, Js.exprTexts, Js.commas]
    have hplaces := Js.Closed.plain (isPlainText_of_places? hplaces)
    rw [htext]
    exact ((Js.Closed.plain (by decide)).append (h.bracketed hopen)).append
      ((Js.Closed.plain (by decide)).append (hplaces.bracketed hopen))
  · exact h

theorem closed_of_shown? (hclosed : ∀ code ∈ codes ++ captured, Js.Closed code.text.toList)
    {before pieces : List Template.Piece}
    (h : shown? parts codes captured before pieces = some shown) :
    ∀ code ∈ shown, Js.Closed code.text.toList := by
  induction pieces generalizing before shown with
  | nil =>
    cases h
    simp
  | cons piece pieces ih =>
    cases piece with
    | text value => exact ih h
    | slot p =>
      obtain ⟨value, hvalue, h⟩ := Option.bind_eq_some_iff.mp h
      obtain ⟨rest, hrest, hreturn⟩ := Option.bind_eq_some_iff.mp h
      cases hreturn
      refine List.forall_mem_cons.mpr ⟨?_, ih hrest⟩
      exact closed_showAs (hclosed value (mem_of_chosen? hvalue)) p

end Emission

/-! ## What is read -/

/-- The tokens are a template and the texts of arguments; without any tokens the template is
    empty. -/
def IsCall (tokens template : String) (parts : List String) : Prop :=
  (Arguments.split tokens ',' = .ok [] ∧ template = "" ∧ parts = []) ∨
  ∃ first, Arguments.split tokens ',' = .ok (first :: parts) ∧ Literal.decode first = .ok template

section Format

variable {arg : String → Emit Js.Expr} {tokens template : String} {parts : List String}
  {pieces : List Template.Piece} {place : Place} {s t u : State}
  {codes captured shown : List Js.Expr}

/-- Once the arguments are emitted, what is left depends on whether there is a placeholder. -/
theorem format_of_isCall (hcall : IsCall tokens template parts)
    (hpieces : Template.pieces template = .ok pieces) {args : Given}
    (hargs : given arg parts place s = (.ok args, t)) :
    format arg tokens place s =
      ((if pieces.any isSlot then do return .template (← templateParts arg template args 0 pieces)
        else return .str template) : Emit Js.Expr) place t := by
  have hok {α : Type} {x : Except Error α} {a : α} (h : x = .ok a) (s : State) :
      Emit.ofExcept x place s = (.ok a, s) := by rw [h]; rfl
  unfold format
  rcases hcall with ⟨hsplit, rfl, rfl⟩ | ⟨first, hsplit, hdecode⟩
  · cases hpieces
    obtain rfl : s = t := congrArg Prod.snd hargs
    rw [bind_of_ok (hok hsplit s)]
    rfl
  · rw [bind_of_ok (hok hsplit s)]
    dsimp only
    rw [bind_of_ok (hok hdecode s), bind_of_ok hargs, bind_of_ok (hok hpieces t)]

theorem filterMap_captured? (hno : pieces.any isSlot = false) :
    pieces.filterMap (captured? parts) = [] := by
  rw [List.filterMap_eq_nil_iff]
  intro piece hpiece
  cases piece with
  | text value => rfl
  | slot p => exact absurd rfl (List.any_eq_false.mp hno _ hpiece)

theorem shown?_of_texts {before : List Template.Piece} (hno : pieces.any isSlot = false) :
    shown? parts codes captured before pieces = some [] := by
  induction pieces generalizing before with
  | nil => rfl
  | cons piece pieces ih =>
    cases piece with
    | text value => exact ih hno
    | slot p => cases hno

/-- A format whose arguments and captured variables can be emitted, and in which each placeholder
    finds what it shows, is emitted as a literal. Wherever it stands, JavaScript reads the literal
    as the texts of the template and what the placeholders show, in order, exactly if there is a
    placeholder or no brace at all. -/
theorem format_is_read_as_its_pieces_iff (hcall : IsCall tokens template parts)
    (hpieces : Template.pieces template = .ok pieces)
    (hcodes : each arg (parts.map argumentText) place s = (.ok codes, t))
    (hcaptured : each arg (pieces.filterMap (captured? parts)) place t = (.ok captured, u))
    (hshown : shown? parts codes captured [] pieces = some shown)
    (hclosed : ∀ code ∈ codes ++ captured, Js.Closed code.text.toList) :
    ∃ code, format arg tokens place s = (.ok code, u) ∧
      ((∀ rest, Js.readLiteral? (code.text.toList ++ rest) =
          some (Js.filling (Js.inOrder (pieces.map Template.Piece.text?) shown), rest)) ↔
        pieces.any isSlot = true ∨ template.toList.any Template.isBrace = false) := by
  obtain ⟨args, hargs, hfor, hpositional, hnamed⟩ := given_of_each hcodes
  have hrun := format_of_isCall hcall hpieces hargs
  cases hslot : pieces.any isSlot with
  | true =>
    have hparts : templateParts arg template args 0 pieces place t =
        (.ok (Js.inOrder (pieces.map Template.Piece.text?) shown), u) :=
      templateParts_of_shown? hfor hpositional hnamed template hshown hcaptured
    have hread := Js.readTemplate?_inOrder_iff (length_of_shown? hshown)
      (closed_of_shown? hclosed hshown)
    rw [hslot, if_pos rfl, bind_of_ok hparts] at hrun
    refine ⟨_, hrun, iff_of_true (fun rest => ?_) (.inl rfl)⟩
    rw [Js.readLiteral?_template]
    exact (hread rest).mpr (Template.joinsSafely_piecesFrom hpieces)
  | false =>
    rw [filterMap_captured? hslot] at hcaptured
    obtain rfl : t = u := congrArg Prod.snd hcaptured
    obtain rfl : [] = shown := Option.some.inj ((shown?_of_texts hslot).symm.trans hshown)
    rw [hslot, if_neg (by decide)] at hrun
    refine ⟨_, hrun, ?_⟩
    have hbrace := Template.units_textChars_iff hpieces hslot
    simp [Js.Expr.text, Js.readLiteral?_quote, Template.filling_texts hslot, ← hbrace, eq_comm]

end Format

/-- In `format!("{{{}}} {0:.2} {w} {name:?}$", x, w = y)` the four ways to choose what is shown come
    together, the first of them between braces of the text. -/
theorem four_choices_are_read :
    let r := Reader.ofTable [("x", .ident "x"), ("y", .ident "y"), ("name", .ident "name")]
    let template := "\x7b\x7b\x7b\x7d\x7d\x7d \x7b0:.2\x7d \x7bw\x7d \x7bname:?\x7d$"
    ∃ code, format (r.argument r.expand) ("\"" ++ template ++ "\", x, w = y") {} {} =
        (.ok code, {}) ∧
      ∀ rest, Js.readLiteral? (code.text.toList ++ rest) = some
        (⟨units "\x7b", [("x", units "\x7d "), ("Number(x).toFixed(2)", units " "), ("y", units " "),
          ("debug_repr(name)", units "$")]⟩, rest) := by
  intro r template
  have hcodes : each (r.argument r.expand) (["x", "w = y"].map argumentText) {} {} =
      (.ok [.atom "x", .atom "y"], {}) := by
    rw [show ["x", "w = y"].map argumentText = ["x", "y"] by decide]
    rfl
  have hcaptured : each (r.argument r.expand) ["name"] {} {} = (.ok [.atom "name"], {}) := rfl
  have hcall : IsCall ("\"" ++ template ++ "\", x, w = y") template ["x", "w = y"] :=
    .inr ⟨"\"" ++ template ++ "\"", by subst template; decide +kernel, by subst template; decide +kernel⟩
  have hpieces : Template.pieces template = .ok [.text "\x7b", .slot {}, .text "\x7d ",
      .slot { key := "0", spec := ".2" }, .text " ", .slot { key := "w" }, .text " ",
      .slot { key := "name", spec := "?" }, .text "$"] := by subst template; decide +kernel
  obtain ⟨code, hcode, hread⟩ :=
    format_is_read_as_its_pieces_iff hcall hpieces hcodes hcaptured (by rfl) (by
      have hall : ([.atom "x", .atom "y"] ++ [.atom "name"] : List Js.Expr).all
        fun code => code.text.toList.all Layout.isPlain := by decide
      intro code hmem
      exact .plain (List.all_eq_true.mp hall code hmem))
  exact ⟨code, hcode, hread.mpr (.inl rfl)⟩

/-- `format!("{{}}")` shows `{}`, but what is emitted says `{{}}`. -/
theorem doubled_braces_stay_doubled :
    let r := Reader.ofTable []
    Template.pieces "\x7b\x7b\x7d\x7d" = .ok [.text "\x7b\x7d"] ∧
    ∃ code, format (r.argument r.expand) "\"\x7b\x7b\x7d\x7d\"" {} {} = (.ok code, {}) ∧
      code.text = "\"\x7b\x7b\x7d\x7d\"" ∧
      Js.readLiteral? code.text.toList = some (⟨units "\x7b\x7b\x7d\x7d", []⟩, []) := by
  intro r
  have hcall : IsCall "\"\x7b\x7b\x7d\x7d\"" "\x7b\x7b\x7d\x7d" [] :=
    .inr ⟨"\"\x7b\x7b\x7d\x7d\"", by rfl, by rfl⟩
  have hpieces : Template.pieces "\x7b\x7b\x7d\x7d" = .ok [.text "\x7b\x7d"] := by rfl
  have hread := Js.readLiteral?_quote "\x7b\x7b\x7d\x7d" []
  rw [List.append_nil] at hread
  exact ⟨hpieces, _, format_of_isCall hcall hpieces rfl, by decide, hread⟩

end Macro

end RustScript
