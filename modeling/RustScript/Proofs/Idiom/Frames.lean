/-
  The operands of method idioms.

  What an idiom puts around the receiver and the arguments depends on the method and the number of
  arguments only (`Frame`, `exists_frame`). A frame is read as the operation that it stands for
  exactly if the operands bind tight enough for their places in it (`Frame.isRead_code_iff`).
-/
import RustScript.Proofs.Js.Readback

namespace RustScript.Idiom

open Js (Seat IsExpr Phrase Policy read? isExpr_of_read? reading_of_read? operatorLevel? isName
  text_operator GroupsAt)
open Js.Expr (isRead_atom phrase)
open Js.Level (primary assignment unary)

/-! ## The places -/

/-- Where the receiver stands in the code of a method with an idiom of its own. -/
def receiverSeat (method : String) (isSimple : Bool) : Seat :=
  match method with
  | "is_some" => if isSimple then .left "!==" else .any
  | "is_none" => if isSimple then .left "===" else .any
  | "is_ok" => .right "in"
  | "is_err" => .right "in"
  | "unwrap_or" => .left "??"
  | "unwrap_or_else" => .left "??"
  | "push_str" => .left "+="
  | "pow" => .left "**"
  | "powi" => .left "**"
  | "powf" => .left "**"
  | "first" => .opened
  | "sum" => .pointed
  | "extend" => .pointed
  | "sort" => .pointed
  | method => if (renamed? method).isSome then .pointed else .any

/-- How tight the argument of a method has to bind. -/
def argumentSeat (method : String) : Seat :=
  match method with
  | "unwrap_or" => .right "??"
  | "push_str" => .right "+="
  | "pow" => .right "**"
  | "powi" => .right "**"
  | "powf" => .right "**"
  | _ => .any

/-- Where the receiver stands in the code of an idiom, for a call with that many arguments. -/
def methodSeat (method : String) (count : Nat) (isSimple isHost : Bool) : Seat :=
  if isHost && count == 0 && hostProperties.contains method then .pointed
  else if identities.contains method && count ≤ 1 then .any
  else receiverSeat method isSimple

/-! ## Frames -/

/-- What an idiom puts around its operands. -/
inductive Frame where
  /-- The receiver alone. -/
  | itself
  /-- `recv.name` -/
  | property (name : String)
  /-- `recv[0]` -/
  | element
  /-- `func(recv, args)` -/
  | function (func : Js.Expr)
  /-- `func(recv).name(more)` -/
  | chain (func : Js.Expr) (name : String) (more : List Js.Expr)
  /-- `recv.name(args, more)` -/
  | method (name : String) (more : List Js.Expr)
  /-- `recv.name(...args)` -/
  | extension (name : String)
  /-- `(recv op arg)` -/
  | operator (op : String)
  /-- `(recv ?? (arg)())` -/
  | alternative
  /-- `(key in recv)` -/
  | key (text : String)
  /-- `(recv op null joint recv op undefined)` -/
  | question (op joint : String)

namespace Frame

/-- Whether a value is there: it is compared with `null` and with `undefined`. -/
def ask (op joint : String) (v : Js.Expr) : Js.Expr :=
  .binary joint (.binary op v (.atom "null")) (.binary op v (.atom "undefined"))

/-- The code around a receiver and its arguments. An operator has one argument. -/
def code (recv : Js.Expr) (args : List Js.Expr) : Frame → Js.Expr
  | itself => recv
  | property name => .member recv name
  | element => .index recv (.atom "0")
  | function func => .call func (recv :: args)
  | chain func name more => .call (.member (.call func [recv]) name) more
  | method name more => .call (.member recv name) (args ++ more)
  | extension name => .call (.member recv name) (args.map .spread)
  | operator op => .paren (.binary op recv (args.headD recv))
  | alternative => .paren (.binary "??" recv (.call (.paren (args.headD recv)) []))
  | key text => .paren (.binary "in" (.atom text) recv)
  | question op joint => .paren (ask op joint recv)

/-- The place of the receiver in a frame. -/
def receiver : Frame → Seat
  | itself => .any
  | property _ => .pointed
  | element => .opened
  | function _ => .any
  | chain .. => .any
  | method .. => .pointed
  | extension _ => .pointed
  | operator op => .left op
  | alternative => .left "??"
  | key _ => .right "in"
  | question op _ => .left op

/-- The place of the arguments in a frame. -/
def argument : Frame → Seat
  | operator op => .right op
  | _ => .any

/-- The code around the operands is in order, for that many arguments. -/
def IsSound (count : Nat) : Frame → Prop
  | itself => count ≤ 1
  | property name => count = 0 ∧ isName name = true
  | element => count = 0
  | function func => func.IsRead ∧ primary ≤ func.phrase.level
  | chain func name more =>
    count = 0 ∧ (func.IsRead ∧ primary ≤ func.phrase.level) ∧ isName name = true ∧
      ∀ a ∈ more, a.IsArgument
  | method name more => isName name = true ∧ ∀ a ∈ more, a.IsArgument
  | extension name => isName name = true
  | operator op => count = 1 ∧ ∃ k, operatorLevel? op = some k ∧ assignment ≤ k
  | alternative => count = 1
  | key text => count = 0 ∧ IsExpr text ∧ (Seat.left "in").Admits text
  | question op joint => count = 0 ∧ (op, joint) ∈ [("!==", "&&"), ("===", "||")]

end Frame

/-- The code keeps all rules, wherever it stands. -/
def IsFixed (e : Js.Expr) : Prop := ∀ P around, e.Obeys P around

/-- The fixed code of a frame keeps all rules. -/
def Frame.IsNeutral : Frame → Prop
  | function func => IsFixed func
  | chain func _ more => IsFixed func ∧ ∀ a ∈ more, IsFixed a
  | method _ more => ∀ a ∈ more, IsFixed a
  | operator op => ∀ P : Policy, P.Text (" " ++ op ++ " ")
  | key text => ∀ P : Policy, P.Text text
  | _ => True

/-- The code around the operands is in order and keeps all rules, for that many arguments. -/
def Frame.IsGood (count : Nat) (f : Frame) : Prop := f.IsSound count ∧ f.IsNeutral

/-- `((params) => body)(recv, args)` -/
def Frame.helper (params : List Js.Binding) (body : Js.Expr) : Frame :=
  .function (.paren (.arrow .helper false params body))

theorem isPlainText_of_isName {name : String} (h : isName name = true) :
    Layout.isPlainText name = true :=
  List.all_eq_true.mpr fun c hc => Layout.isPlain_of_isWordChar ((Js.isName_chars h).2 c hc)

theorem text_of_isName {P : Policy} {name : String} (h : isName name = true) : P.Text name :=
  fun _ => .of_plainText (isPlainText_of_isName h)

theorem obeys_ask {P : Policy} {around : Js.Around} {op joint : String} {v : Js.Expr}
    (hop : (op, joint) ∈ [("!==", "&&"), ("===", "||")]) (hv : v.Obeys P around) :
    (Frame.ask op joint v).Obeys P around := by
  have hnull : P.Text "null" := .code (by decide)
  have hundefined : P.Text "undefined" := .code (by decide)
  simp only [Frame.ask, Js.Expr.Obeys]
  simp only [List.mem_cons, List.not_mem_nil, or_false, Prod.mk.injEq] at hop
  obtain ⟨rfl, rfl⟩ | ⟨rfl, rfl⟩ := hop
  · have hno : P.Text (" " ++ "!==" ++ " ") := text_operator (by decide)
    exact ⟨text_operator (by decide), ⟨hno, hv, hnull⟩, hno, hv, hundefined⟩
  · have hyes : P.Text (" " ++ "===" ++ " ") := text_operator (by decide)
    exact ⟨text_operator (by decide), ⟨hyes, hv, hnull⟩, hyes, hv, hundefined⟩

/-! ## Frames are read as they are built -/

section Reading

variable {recv text : String} {args : List Js.Expr} {op name : String} {l r : Js.Expr} {k : Nat}

theorem isRead_binary_iff (hk : operatorLevel? op = some k) (hle : assignment ≤ k)
    (hl : l.IsRead) (hr : r.IsRead) :
    (Js.Expr.binary op l r).IsRead ↔
      (Seat.left op).Admits l.text ∧ (Seat.right op).Admits r.text := by
  rw [← Js.fits_reading_iff, hl.reading_eq, hr.reading_eq]
  refine ⟨fun h => ?_, hl.binary hk hle hr⟩
  have hgrouped := GroupsAt.isGrouped h
  simp only [phrase, Phrase.isGrouped, Bool.and_eq_true] at hgrouped
  exact hgrouped.2

theorem isRead_paren_binary_iff (hk : operatorLevel? op = some k)
    (hle : assignment ≤ k) (hl : l.IsRead) (hr : r.IsRead) :
    (Js.Expr.paren (.binary op l r)).IsRead ↔
      (Seat.left op).Admits l.text ∧ (Seat.right op).Admits r.text := by
  refine ⟨fun h => ?_, fun h => ((isRead_binary_iff hk hle hl hr).mpr h).paren⟩
  rw [← Js.fits_reading_iff, hl.reading_eq, hr.reading_eq]
  have hgrouped := GroupsAt.isGrouped h
  simp only [phrase, Phrase.isGrouped, Bool.and_eq_true] at hgrouped
  exact hgrouped.1.2

theorem isRead_method_iff (hrecv : IsExpr recv) (hname : isName name = true)
    (hargs : ∀ a ∈ args, a.IsArgument) :
    (Js.Expr.call (.member (.atom recv) name) args).IsRead ↔ Seat.pointed.Admits recv := by
  constructor
  · intro h
    have hgrouped := GroupsAt.isGrouped h
    simp only [phrase, Phrase.isGrouped, Bool.and_eq_true, decide_eq_true_eq] at hgrouped
    have hprimary := hgrouped.1.1.2
    refine ⟨hprimary, ?_⟩
    have htext : (Js.Expr.call (.member (.atom recv) name) args).text =
        recv ++ "." ++ (name ++ ("(" ++ (Js.commas (Js.exprTexts args) ++ ")"))) := by
      simp only [Js.Expr.text, String.append_assoc]
    rw [Js.Expr.IsRead, htext] at h
    refine hrecv.groupsAs.takesPoint hprimary h ?_
    simp only [phrase, Phrase.core]
  · rintro ⟨hprimary, hpoint⟩
    have hatom := isRead_atom hrecv
    have hmember := hatom.member (by rwa [phrase]) (by rwa [Js.Expr.text]) hname
    exact hmember.call (by rw [phrase]; exact Nat.le_refl _) hargs

theorem isRead_property_iff (hrecv : IsExpr recv) (hname : isName name = true) :
    (Js.Expr.member (.atom recv) name).IsRead ↔ Seat.pointed.Admits recv := by
  constructor
  · intro h
    have hgrouped := GroupsAt.isGrouped h
    simp only [phrase, Phrase.isGrouped, Bool.and_eq_true, decide_eq_true_eq] at hgrouped
    refine ⟨hgrouped.2, ?_⟩
    refine hrecv.groupsAs.takesPoint hgrouped.2 h ?_
    simp only [phrase, Phrase.core]
  · rintro ⟨hprimary, hpoint⟩
    exact (isRead_atom hrecv).member (by rwa [phrase]) (by rwa [Js.Expr.text]) hname

/-- The words in fixed code. -/
def fixedWords : List String := ["null", "undefined", "obj", "value", "$a", "$b", "$i", "$v"]

/-- The string literals in fixed code. -/
def fixedTexts : List String := ["\"function\"", "\"ok\"", "\"error\""]

-- one table for all: each such computation waits for the theorems in front of it
theorem fixed_atoms_are_read :
    (fixedWords.all fun w => read? 4 w.toList == some (.word w)) = true ∧
    (fixedTexts.all fun t => read? 4 t.toList == some (.literal t)) = true ∧
    read? 4 "0".toList = some (.numeral "0") ∧ Js.takesPoint "obj" = true := by
  decide +kernel

theorem read?_word {w : String} (h : w ∈ fixedWords) : read? 4 w.toList = some (.word w) :=
  beq_iff_eq.mp (List.all_eq_true.mp fixed_atoms_are_read.1 w h)

theorem read?_text {t : String} (h : t ∈ fixedTexts) : read? 4 t.toList = some (.literal t) :=
  beq_iff_eq.mp (List.all_eq_true.mp fixed_atoms_are_read.2.1 t h)

theorem read?_zero : read? 4 "0".toList = some (.numeral "0") := fixed_atoms_are_read.2.2.1

theorem isRead_index_iff (hrecv : IsExpr recv) (hi : r.IsRead) :
    (Js.Expr.index (.atom recv) r).IsRead ↔ Seat.opened.Admits recv := by
  constructor
  · intro h
    have hgrouped := GroupsAt.isGrouped h
    simp only [phrase, Phrase.isGrouped, Bool.and_eq_true, decide_eq_true_eq] at hgrouped
    exact hgrouped.1.2
  · intro hprimary
    exact (isRead_atom hrecv).index (by rwa [phrase]) hi

theorem fits_question {joint : String} (hop : (op, joint) ∈ [("!==", "&&"), ("===", "||")]) :
    (∃ k, operatorLevel? op = some k ∧ assignment ≤ k) ∧
    (∃ k, operatorLevel? joint = some k ∧ assignment ≤ k) ∧
    ∀ p q p' q', (Phrase.binary op p q).fits joint (.binary op p' q') = true := by
  simp only [List.mem_cons, List.not_mem_nil, or_false, Prod.mk.injEq] at hop
  obtain ⟨rfl, rfl⟩ | ⟨rfl, rfl⟩ := hop
  · have hop : operatorLevel? "!==" = some 11 := by decide
    have hjoint : operatorLevel? "&&" = some 7 := by decide
    refine ⟨⟨11, hop, by decide⟩, ⟨7, hjoint, by decide⟩, fun p q p' q' => ?_⟩
    simp [Phrase.fits, hjoint, Phrase.goesLeft, Js.rightLevel, Phrase.level_binary hop, assignment]
  · have hop : operatorLevel? "===" = some 11 := by decide
    have hjoint : operatorLevel? "||" = some 6 := by decide
    refine ⟨⟨11, hop, by decide⟩, ⟨6, hjoint, by decide⟩, fun p q p' q' => ?_⟩
    simp [Phrase.fits, hjoint, Phrase.goesLeft, Js.rightLevel, Phrase.level_binary hop, assignment]

theorem isRead_ask {joint v : String} (hop : (op, joint) ∈ [("!==", "&&"), ("===", "||")])
    (hv : IsExpr v) (hleft : (Seat.left op).Admits v) : (Frame.ask op joint (.atom v)).IsRead := by
  have hnull : "null" ∈ fixedWords := by simp [fixedWords]
  have hundefined : "undefined" ∈ fixedWords := by simp [fixedWords]
  obtain ⟨⟨k, hk, hle⟩, ⟨k', hk', hle'⟩, hjoint⟩ := fits_question hop
  have hone {w : String} (hmem : w ∈ fixedWords) :
      (Js.Expr.binary op (.atom v) (.atom w)).IsRead := by
    have hw := read?_word hmem
    refine (isRead_atom hv).binary hk hle (isRead_atom (isExpr_of_read? hw)) ?_
    rw [phrase, phrase, Js.fits_reading_iff]
    refine ⟨hleft, Seat.admits_right hk ?_⟩
    rw [reading_of_read? hw]
    exact show unary ≤ primary by decide
  refine (hone hnull).binary hk' hle' (hone hundefined) ?_
  exact hjoint _ _ _ _

/-- The code around the operands is read as it is built exactly if their places admit them. -/
theorem Frame.isRead_code_iff {texts : List String} {f : Frame} (hf : f.IsSound texts.length)
    (hrecv : IsExpr recv) (hargs : ∀ a ∈ texts, IsExpr a) :
    (f.code (.atom recv) (texts.map .atom)).IsRead ↔
      f.receiver.Admits recv ∧ ∀ a ∈ texts, f.argument.Admits a := by
  have hatom := isRead_atom hrecv
  have hread : ∀ a ∈ texts.map Js.Expr.atom, a.IsRead := by
    intro a ha
    obtain ⟨t, ht, rfl⟩ := List.mem_map.mp ha
    exact isRead_atom (hargs t ht)
  have hany {P : Prop} : P ↔ P ∧ ∀ a ∈ texts, Seat.any.Admits a := by simp [Seat.Admits]
  cases f with
  | itself => exact (iff_of_true hatom trivial).trans hany
  | property name => exact (isRead_property_iff hrecv hf.2).trans hany
  | element =>
    have hzero := isRead_atom (isExpr_of_read? read?_zero)
    exact (isRead_index_iff hrecv hzero).trans hany
  | function func =>
    have hcall : (Js.Expr.call func (.atom recv :: texts.map .atom)).IsRead :=
      hf.1.call hf.2 fun a ha => (List.forall_mem_cons.mpr ⟨hatom, hread⟩ a ha).isArgument
    exact (iff_of_true hcall trivial).trans hany
  | chain func name more =>
    obtain ⟨-, ⟨hfunc, hprimary⟩, hname, hmore⟩ := hf
    have hcall : (Js.Expr.call func [.atom recv]).IsRead :=
      hfunc.call hprimary (by simpa using hatom.isArgument)
    have hlevel : primary ≤ (Js.Expr.call func [.atom recv]).phrase.level := Nat.le_refl _
    have hpoint : Js.takesPoint (Js.Expr.call func [.atom recv]).text = true := by
      refine Js.GroupsAs.takesPoint_of_ne hcall hlevel fun t => ?_
      exact Phrase.noConfusion
    have hmember := hcall.member hlevel hpoint hname
    have hwhole := hmember.call (by rw [phrase]; exact Nat.le_refl _) hmore
    exact (iff_of_true hwhole trivial).trans hany
  | method name more =>
    obtain ⟨hname, hmore⟩ := hf
    have hall : ∀ a ∈ texts.map Js.Expr.atom ++ more, a.IsArgument :=
      List.forall_mem_append.mpr ⟨fun a ha => (hread a ha).isArgument, hmore⟩
    exact (isRead_method_iff hrecv hname hall).trans hany
  | extension name =>
    have hall : ∀ a ∈ (texts.map Js.Expr.atom).map Js.Expr.spread, a.IsArgument := by
      intro a ha
      obtain ⟨e, he, rfl⟩ := List.mem_map.mp ha
      exact (hread e he).isArgument_spread
    exact (isRead_method_iff hrecv hf hall).trans hany
  | operator op =>
    obtain ⟨hcount, k, hk, hle⟩ := hf
    obtain ⟨a, rfl⟩ := List.length_eq_one_iff.mp hcount
    have ha := isRead_atom (hargs a List.mem_cons_self)
    refine (isRead_paren_binary_iff hk hle hatom ha).trans ?_
    simp [receiver, argument, Js.Expr.text]
  | alternative =>
    obtain ⟨a, rfl⟩ := List.length_eq_one_iff.mp hf
    have hparen := (isRead_atom (hargs a List.mem_cons_self)).paren
    have hcall : (Js.Expr.call (.paren (.atom a)) []).IsRead :=
      hparen.call (by rw [phrase]; exact Nat.le_refl _) (by simp)
    have hk : operatorLevel? "??" = some 5 := by decide
    have hright : (Seat.right "??").Admits (Js.Expr.call (.paren (.atom a)) []).text := by
      refine Seat.admits_right hk ?_
      rw [hcall.reading_eq, phrase]
      exact show unary ≤ primary by decide
    refine (isRead_paren_binary_iff hk (by decide) hatom hcall).trans ?_
    exact (and_iff_left hright).trans hany
  | key text =>
    obtain ⟨-, htext, hleft⟩ := hf
    have hk : operatorLevel? "in" = some 12 := by decide
    refine (isRead_paren_binary_iff hk (by decide) (isRead_atom htext) hatom).trans ?_
    exact (and_iff_right hleft).trans hany
  | question op joint =>
    refine Iff.trans ⟨fun h => ?_, fun hleft => (isRead_ask hf.2 hrecv hleft).paren⟩ hany
    have hgrouped := GroupsAt.isGrouped h
    simp only [code, ask, phrase, Phrase.isGrouped, Bool.and_eq_true] at hgrouped
    exact ((Js.fits_reading_iff ..).mp hgrouped.1.1.1.2).1

end Reading

theorem Frame.text_code_leaf (f : Frame) (recv : Js.Expr) (args : List Js.Expr) :
    (f.code recv.leaf (args.map Js.Expr.leaf)).text = (f.code recv args).text := by
  have hleaf (e : Js.Expr) : e.leaf.text = e.text := by rw [Js.Expr.leaf, Js.Expr.text]
  have htexts : Js.exprTexts (args.map Js.Expr.leaf) = Js.exprTexts args := by
    simp [Js.exprTexts_eq, hleaf]
  have hhead : ((args.map Js.Expr.leaf).headD recv.leaf).text = (args.headD recv).text := by
    cases args with
    | nil => exact hleaf recv
    | cons a args => exact hleaf a
  cases f
  case extension name =>
    have hspread (es : List Js.Expr) :
        Js.exprTexts (es.map .spread) = (Js.exprTexts es).map ("..." ++ ·) := by
      simp [Js.exprTexts_eq, Js.Expr.text]
    simp only [code, Js.Expr.text, hleaf, hspread, htexts]
  case method name more =>
    have happend (es : List Js.Expr) :
        Js.exprTexts (es ++ more) = Js.exprTexts es ++ Js.exprTexts more := by
      simp [Js.exprTexts_eq]
    simp only [code, Js.Expr.text, hleaf, happend, htexts]
  all_goals simp only [code, ask, Js.Expr.text, Js.exprTexts, hleaf, htexts, hhead]

/-! ## The fixed code -/

/-- The text is an expression that can be the body of an arrow function. -/
def IsBody (text : String) : Prop :=
  (∃ p, Js.GroupsAs text p ∧ p.opensBrace = false) ∧ Layout.Neutral text.toList

theorem isBody_of_read? {texts : List String} {chars : List (List Char)}
    (htexts : List.Forall₂ (fun t cs => t.toList = cs) texts chars)
    (h : (chars.all fun cs => (read? 40 cs).any (!·.opensBrace) &&
      Layout.closersAfter false [] cs == some []) = true) :
    ∀ t ∈ texts, IsBody t := by
  induction htexts with
  | nil => simp
  | @cons t cs texts chars ht _ ih =>
    rw [List.all_cons, Bool.and_eq_true, Bool.and_eq_true, beq_iff_eq] at h
    refine List.forall_mem_cons.mpr ⟨⟨?_, ht ▸ .code h.1.2⟩, ih h.2⟩
    cases hp : read? 40 cs with
    | none => simp [hp] at h
    | some p => exact ⟨p, Js.groupsAs_of_read? (ht ▸ hp), by simpa [hp] using h.1.1⟩

theorem toList_append_eq {a b : String} {cs ds : List Char} (ha : a.toList = cs)
    (hb : b.toList = ds) : (a ++ b).toList = cs ++ ds := by
  rw [String.toList_append, ha, hb]

theorem isBody_helpers : ∀ t ∈ [own "len" "" lengthCode, own "count" "" lengthCode,
    own "is_empty" "" ("(" ++ lengthCode ++ ") === 0"),
    own "contains" "item" ("typeof obj.includes === \"function\" ? obj.includes(item) : " ++
      "typeof obj.has === \"function\" ? obj.has(item) : " ++
      "Object.prototype.hasOwnProperty.call(obj, item)"),
    own "contains_key" "key" ("typeof obj.has === \"function\" ? obj.has(key) : " ++
      "Object.prototype.hasOwnProperty.call(obj, key)"),
    "typeof obj.get === \"function\" ? obj.get(key) : obj[key]",
    own "insert" "value" ("typeof obj.add === \"function\" ? obj.add(value) : " ++
      "obj.includes(value) ? false : (obj.push(value), true)"), own "insert" "key, value"
      ("typeof obj.splice === \"function\" ? obj.splice(key, 0, value) : " ++
        "typeof obj.set === \"function\" ? obj.set(key, value) : (obj[key] = value)"),
    own "remove" "key" ("typeof obj.splice === \"function\" ? obj.splice(key, 1)[0] : " ++
      "typeof obj.delete === \"function\" ? obj.delete(key) : " ++
      "((value) => (delete obj[key], value))(obj[key])"),
    "typeof obj.keys === \"function\" && !Array.isArray(obj) ? Array.from(obj.keys()) : " ++
      "Object.keys(obj)",
    "typeof obj.values === \"function\" && !Array.isArray(obj) ? Array.from(obj.values()) : " ++
      "Object.values(obj)", "arr[arr.length - 1]",
    "Array.isArray(obj) ? (obj.length = 0, undefined) : " ++
      "typeof obj.clear === \"function\" ? obj.clear() : " ++
      "Object.keys(obj).forEach((key) => delete obj[key])",
    "($a, $b) => ($a < $b ? -1 : $a > $b ? 1 : 0)"], IsBody t := by
  apply isBody_of_read?
  -- literals are given by their characters: to take them apart again is slow
  · unfold own lengthCode
    repeat' first
      | exact .nil
      | apply List.Forall₂.cons
      | with_reducible apply toList_append_eq
      | exact String.toList_ofList
  · decide +kernel

/-- The functions that idioms call by name. -/
def functions : List String :=
  ["unwrap", "String", "Array.from", "Math.abs", "Math.max", "Math.min", "Math.floor", "Math.ceil",
   "Math.round", "Math.sqrt", "Math.trunc"]

theorem isRead_function {func : String} (h : func ∈ functions) :
    ((Js.Expr.atom func).IsRead ∧ primary ≤ (Js.Expr.atom func).phrase.level) ∧
      IsFixed (.atom func) := by
  have hall : (functions.all fun t => (read? 10 t.toList).any (primary ≤ ·.level) &&
      Layout.closersAfter false [] t.toList == some []) = true := by decide +kernel
  have hfunc := List.all_eq_true.mp hall func h
  rw [Bool.and_eq_true, beq_iff_eq] at hfunc
  refine ⟨?_, fun P around => ?_⟩
  · cases hp : read? 10 func.toList with
    | none => simp [hp] at hfunc
    | some p =>
      refine ⟨isRead_atom (isExpr_of_read? hp), ?_⟩
      rw [phrase, reading_of_read? hp]
      simpa [hp] using hfunc.1
  · exact fun _ => .code hfunc.2

/-! ## The frame of each idiom -/

/-- The function puts the frame around all operands of that number. -/
def Builds (build : Js.Expr → List Js.Expr → Option Js.Expr) (count : Nat) (f : Frame) : Prop :=
  ∀ recv args, args.length = count → build recv args = some (f.code recv args)

/-- The function puts one frame around all operands of that number, with the given places. -/
def HasFrame (build : Js.Expr → List Js.Expr → Option Js.Expr) (count : Nat)
    (receiver argument : Seat) : Prop :=
  ∃ f : Frame, Builds build count f ∧ f.IsGood count ∧ f.receiver = receiver ∧ f.argument = argument

namespace Builds

variable {build : Js.Expr → List Js.Expr → Option Js.Expr} {f : Frame}

theorem nil (h : ∀ recv, build recv [] = some (f.code recv [])) : Builds build 0 f := by
  intro recv args hlength
  rw [List.length_eq_zero_iff.mp hlength]
  exact h recv

theorem one (h : ∀ recv a, build recv [a] = some (f.code recv [a])) : Builds build 1 f := by
  intro recv args hlength
  obtain ⟨a, rfl⟩ := List.length_eq_one_iff.mp hlength
  exact h recv a

theorem two (h : ∀ recv a b, build recv [a, b] = some (f.code recv [a, b])) : Builds build 2 f := by
  intro recv args hlength
  obtain ⟨a, b, rfl⟩ := List.length_eq_two.mp hlength
  exact h recv a b

end Builds

section Table

variable {recv code : Js.Expr} {args : List Js.Expr} {method : String} {isSimple : Bool}

theorem isGood_helper {params : List Js.Binding} {body : Js.Expr}
    (hparams : (Js.paramsText params).toList.all Layout.isPlain = true) (hbody : body.IsRead)
    (hbrace : body.phrase.opensBrace = false) (hfixed : IsFixed body) (count : Nat) :
    (Frame.helper params body).IsGood count := by
  refine ⟨⟨(hbody.arrow hbrace .helper false (Js.Closed.plain hparams)).paren, ?_⟩,
    fun P around => ?_⟩
  · exact Nat.le_refl _
  · exact ⟨fun _ => .plain hparams, hfixed P _⟩

theorem isGood_dispatch {params : List String} {code : String}
    (hparams : (Js.paramsText (params.map .name)).toList.all Layout.isPlain = true)
    (hcode : IsBody code) (count : Nat) :
    (Frame.helper (params.map .name) (.atom code)).IsGood count := by
  obtain ⟨⟨p, hp, hbrace⟩, hneutral⟩ := hcode
  refine isGood_helper hparams (isRead_atom ⟨p, hp⟩) ?_ (fun P around => ?_) count
  · rw [phrase, hp.reading_eq]
    exact hbrace
  · exact fun _ => hneutral

theorem exists_frame_container? (isSimple : Bool) (h : container? recv method args = some code) :
    HasFrame (container? · method ·) args.length (receiverSeat method isSimple)
      (argumentSeat method) := by
  obtain ⟨hlen, hcount, hempty, hitem, hkey, hget, hvalue, hpair, hremove, hkeys, hvalues, -⟩ := by
    simpa only [List.forall_mem_cons] using isBody_helpers
  revert h
  fun_cases container? recv method args <;> intro h
  · exact ⟨_, .nil fun _ => rfl, isGood_dispatch (by decide) hlen _, rfl, rfl⟩
  · exact ⟨_, .nil fun _ => rfl, isGood_dispatch (by decide) hcount _, rfl, rfl⟩
  · exact ⟨_, .nil fun _ => rfl, isGood_dispatch (by decide) hempty _, rfl, rfl⟩
  · exact ⟨_, .one fun _ _ => rfl, isGood_dispatch (by decide) hitem _, rfl, rfl⟩
  · exact ⟨_, .one fun _ _ => rfl, isGood_dispatch (by decide) hkey _, rfl, rfl⟩
  · exact ⟨_, .one fun _ _ => rfl, isGood_dispatch (by decide) hget _, rfl, rfl⟩
  · exact ⟨_, .one fun _ _ => rfl, isGood_dispatch (by decide) hvalue _, rfl, rfl⟩
  · exact ⟨_, .two fun _ _ _ => rfl, isGood_dispatch (by decide) hpair _, rfl, rfl⟩
  · exact ⟨_, .one fun _ _ => rfl, isGood_dispatch (by decide) hremove _, rfl, rfl⟩
  · exact ⟨_, .nil fun _ => rfl, isGood_dispatch (by decide) hkeys _, rfl, rfl⟩
  · exact ⟨_, .nil fun _ => rfl, isGood_dispatch (by decide) hvalues _, rfl, rfl⟩
  · cases h

theorem exists_frame_optional? (h : optional? recv method args isSimple = some code) :
    HasFrame (optional? · method · isSimple) args.length (receiverSeat method isSimple)
      (argumentSeat method) := by
  have hask {op joint : String} (hop : (op, joint) ∈ [("!==", "&&"), ("===", "||")])
      (count : Nat) :
      (Frame.helper [.name "value"] (Frame.ask op joint (.atom "value"))).IsGood count := by
    have hvalue : read? 4 "value".toList = some (.word "value") := read?_word (by simp [fixedWords])
    have hleft : (Seat.left op).Admits "value" := by
      have hprimary : primary ≤ (Js.reading "value").level := by
        rw [reading_of_read? hvalue]
        exact Nat.le_refl _
      simp only [List.mem_cons, List.not_mem_nil, or_false, Prod.mk.injEq] at hop
      obtain ⟨rfl, -⟩ | ⟨rfl, -⟩ := hop <;>
        exact Seat.admits_left (k := 11) (by decide) (by decide) hprimary
    refine isGood_helper (by decide) (isRead_ask hop (isExpr_of_read? hvalue) hleft) ?_
      (fun P around => obeys_ask hop ?_) count
    · simp only [Frame.ask, phrase, Phrase.opensBrace, reading_of_read? hvalue]
    · exact .code (by decide)
  have hkey {text : String} (h : text ∈ ["\"ok\"", "\"error\""]) : (Frame.key text).IsSound 0 := by
    have hread := read?_text (List.mem_cons_of_mem _ h)
    refine ⟨rfl, isExpr_of_read? hread, Seat.admits_left (k := 12) (by decide) (by decide) ?_⟩
    rw [reading_of_read? hread]
    exact Nat.le_refl _
  revert h
  fun_cases optional? recv method args isSimple <;> intro h
  · cases isSimple with
    | true =>
      exact ⟨.question "!==" "&&", .nil fun _ => rfl, ⟨⟨rfl, List.mem_cons_self⟩, trivial⟩, rfl, rfl⟩
    | false => exact ⟨.function _, .nil fun _ => rfl, hask List.mem_cons_self _, rfl, rfl⟩
  · cases isSimple with
    | true =>
      exact ⟨.question "===" "||", .nil fun _ => rfl,
        ⟨⟨rfl, List.mem_cons_of_mem _ List.mem_cons_self⟩, trivial⟩, rfl, rfl⟩
    | false =>
      exact ⟨.function _, .nil fun _ => rfl, hask (List.mem_cons_of_mem _ List.mem_cons_self) _, rfl,
        rfl⟩
  · exact ⟨.key "\"ok\"", .nil fun _ => rfl, ⟨hkey (by simp), fun _ => .code (by decide)⟩, rfl,
      rfl⟩
  · exact ⟨.key "\"error\"", .nil fun _ => rfl, ⟨hkey (by simp), fun _ => .code (by decide)⟩, rfl,
      rfl⟩
  · exact ⟨.operator "??", .one fun _ _ => rfl, ⟨⟨rfl, 5, by decide, by decide⟩,
      fun _ => text_operator (by decide)⟩, rfl, rfl⟩
  · exact ⟨.alternative, .one fun _ _ => rfl, ⟨rfl, trivial⟩, rfl, rfl⟩
  · cases h

theorem isArgument_helpers :
    (Js.Expr.arrow .helper false [.name "$v", .name "$i"]
      (.array [.atom "$i", .atom "$v"])).IsArgument ∧
    (Js.Expr.arrow .helper false [.name "$a", .name "$b"]
      (.binary "+" (.atom "$a") (.atom "$b"))).IsArgument ∧ (Js.Expr.atom "0").IsArgument := by
  have hword {w : String} (hw : w ∈ fixedWords) :
      (Js.Expr.atom w).IsRead ∧ Js.reading w = .word w := by
    have hread := read?_word hw
    exact ⟨isRead_atom (isExpr_of_read? hread), reading_of_read? hread⟩
  refine ⟨?_, ?_, (isRead_atom (isExpr_of_read? read?_zero)).isArgument⟩
  · have hpair : (Js.Expr.array [.atom "$i", .atom "$v"]).IsRead := by
      refine .array fun a ha => ?_
      simp only [List.mem_cons, List.not_mem_nil, or_false] at ha
      rcases ha with rfl | rfl
      · exact (hword (by simp [fixedWords])).1.isArgument
      · exact (hword (by simp [fixedWords])).1.isArgument
    refine (hpair.arrow ?_ .helper false (Js.Closed.plain (by decide))).isArgument
    rfl
  · obtain ⟨ha, hreada⟩ := @hword "$a" (by simp [fixedWords])
    obtain ⟨hb, hreadb⟩ := @hword "$b" (by simp [fixedWords])
    have hk : operatorLevel? "+" = some 14 := by decide
    have hsum := ha.binary hk (by decide) hb (by
      rw [phrase, phrase, hreada, hreadb]
      decide)
    refine (hsum.arrow ?_ .helper false (Js.Closed.plain (by decide))).isArgument
    rw [phrase, Phrase.opensBrace, phrase, hreada]
    rfl

theorem isFixed_helpers :
    IsFixed (.arrow .helper false [.name "$v", .name "$i"] (.array [.atom "$i", .atom "$v"])) ∧
    IsFixed (.arrow .helper false [.name "$a", .name "$b"]
      (.binary "+" (.atom "$a") (.atom "$b"))) ∧ IsFixed (.atom "0") := by
  refine ⟨fun P around => ?_, fun P around => ?_, fun P around => .code (by decide)⟩
  · simp only [Js.Expr.Obeys, Js.exprsObey, and_true]
    exact ⟨fun _ => .plain (by decide), .code (by decide), .code (by decide)⟩
  · exact ⟨fun _ => .plain (by decide), text_operator (by decide), .code (by decide),
      .code (by decide)⟩

theorem exists_frame_sequence? (h : sequence? recv method args isSimple = some code) :
    HasFrame (sequence? · method · isSimple) args.length (receiverSeat method isSimple)
      (argumentSeat method) := by
  obtain ⟨-, -, -, -, -, -, -, -, -, -, -, hlast, hclear, hsort, -⟩ := by
    simpa only [List.forall_mem_cons] using isBody_helpers
  obtain ⟨hpair, hsum, hzero⟩ := isArgument_helpers
  obtain ⟨hpair', hsum', hzero'⟩ := isFixed_helpers
  obtain ⟨hfrom, hfrom'⟩ := @isRead_function "Array.from" (by simp [functions])
  have hpower : (Frame.operator "**").IsGood 1 :=
    ⟨⟨rfl, 16, by decide, by decide⟩, fun _ => text_operator (by decide)⟩
  revert h
  fun_cases sequence? recv method args isSimple <;> intro h
  case case1 | case2 | case11 | case17 | case18 | case19 | case20 | case21 =>
    exact ⟨.function _, .nil fun _ => rfl, isRead_function (by simp [functions]), rfl, rfl⟩
  case case12 | case13 =>
    exact ⟨.function _, .one fun _ _ => rfl, isRead_function (by simp [functions]), rfl, rfl⟩
  case case14 | case15 | case16 => exact ⟨.operator "**", .one fun _ _ => rfl, hpower, rfl, rfl⟩
  · exact ⟨.chain (.atom "Array.from") "reverse" [], .nil fun _ => rfl,
      ⟨⟨rfl, hfrom, by decide, by simp⟩, hfrom', by simp⟩, rfl, rfl⟩
  · exact ⟨.chain (.atom "Array.from") "map" [_], .nil fun _ => rfl,
      ⟨⟨rfl, hfrom, by decide, by simpa using hpair⟩, hfrom', by simpa using hpair'⟩, rfl, rfl⟩
  · exact ⟨.method "reduce" [_, _], .nil fun _ => rfl, ⟨⟨by decide, by simpa using ⟨hsum, hzero⟩⟩,
        List.forall_mem_cons.mpr ⟨hsum', List.forall_mem_singleton.mpr hzero'⟩⟩, rfl, rfl⟩
  · exact ⟨.element, .nil fun _ => rfl, ⟨rfl, trivial⟩, rfl, rfl⟩
  · exact ⟨.function _, .nil fun _ => rfl, isGood_dispatch (by decide) hlast _, rfl, rfl⟩
  · next hsimple =>
    exact ⟨.operator "+=", .one fun _ _ => if_pos hsimple, ⟨⟨rfl, 3, by decide, by decide⟩,
      fun _ => text_operator (by decide)⟩, rfl, rfl⟩
  · cases h
  · exact ⟨.extension "push", .one fun _ _ => rfl,
      ⟨show isName "push" = true by decide, trivial⟩, rfl, rfl⟩
  · exact ⟨.function _, .nil fun _ => rfl, isGood_dispatch (by decide) hclear _, rfl, rfl⟩
  · obtain ⟨⟨p, hp, -⟩, hneutral⟩ := hsort
    have hatom := isRead_atom ⟨p, hp⟩
    refine ⟨.method "sort" [_], .nil fun _ => rfl, ⟨⟨by decide, by simpa using hatom.isArgument⟩,
      List.forall_mem_singleton.mpr fun P around => ?_⟩, rfl, rfl⟩
    exact fun _ => hneutral
  · cases h

theorem seat_table : (hostProperties.all fun m => isName m && argumentSeat m == .any) = true ∧
    (identities.all fun m => argumentSeat m == .any) = true := by
  decide

end Table

/-! ## The frame of a method -/

section Frames

variable {recv code : Js.Expr} {args : List Js.Expr} {method name : String} {isSimple isHost : Bool}

theorem renamed?_seats (isSimple : Bool) (h : renamed? method = some name) :
    isName name = true ∧ receiverSeat method isSimple = .pointed ∧
      argumentSeat method = .any := by
  unfold renamed? at h
  split at h
  case h_26 => cases h
  all_goals
    cases h
    exact ⟨by decide, rfl, rfl⟩

/-- Whether there is code depends on the number of the operands only, and so does the frame. -/
def Framed (build : Js.Expr → List Js.Expr → Option Js.Expr) (count : Nat)
    (receiver argument : Seat) : Prop :=
  (∀ recv args, args.length = count → build recv args = none) ∨
    HasFrame build count receiver argument

namespace Framed

variable {build first second : Js.Expr → List Js.Expr → Option Js.Expr} {count : Nat}
  {receiver argument : Seat}

theorem of_some (h : ∀ {recv args code}, build recv args = some code →
    HasFrame build args.length receiver argument) (count : Nat) :
    Framed build count receiver argument := by
  refine or_iff_not_imp_left.mpr fun hsome => ?_
  push Not at hsome
  obtain ⟨recv, args, hlength, hne⟩ := hsome
  obtain ⟨code, hcode⟩ := Option.ne_none_iff_exists'.mp hne
  exact hlength ▸ h hcode

theorem congr (h : Framed build count receiver argument)
    (heq : ∀ recv args, args.length = count → first recv args = build recv args) :
    Framed first count receiver argument := by
  rcases h with hnone | ⟨f, hbuilds, hf⟩
  · exact .inl fun recv args hlength => (heq recv args hlength).trans (hnone recv args hlength)
  · exact .inr ⟨f, fun recv args hlength =>
      (heq recv args hlength).trans (hbuilds recv args hlength), hf⟩

theorem orElse (hfirst : Framed first count receiver argument)
    (hsecond : Framed second count receiver argument) :
    Framed (fun recv args => first recv args <|> second recv args) count receiver argument := by
  rcases hfirst with hnone | ⟨f, hbuilds, hf⟩
  · refine hsecond.congr fun recv args hlength => ?_
    rw [hnone recv args hlength]
    rfl
  · refine .inr ⟨f, fun recv args hlength => ?_, hf⟩
    simp only [hbuilds recv args hlength]
    rfl

end Framed

theorem framed_group (method : String) (count : Nat) (isSimple : Bool) :
    Framed (fun recv args => (container? recv method args) <|>
        (optional? recv method args isSimple) <|> (sequence? recv method args isSimple) <|>
        ((renamed? method).map fun name => .call (.member recv name) args)) count
      (receiverSeat method isSimple) (argumentSeat method) := by
  refine .orElse (.of_some (exists_frame_container? isSimple) count)
    (.orElse (.of_some exists_frame_optional? count)
      (.orElse (.of_some exists_frame_sequence? count) ?_))
  cases hname : renamed? method with
  | none => exact .inl fun _ _ _ => rfl
  | some name =>
    obtain ⟨hisName, hreceiver, hargument⟩ := renamed?_seats isSimple hname
    refine .inr ⟨.method name [], fun recv args _ => ?_, ⟨⟨hisName, by simp⟩, ?_⟩,
      hreceiver.symm, hargument.symm⟩
    · simp [Frame.code]
    · simp [Frame.IsNeutral]

/-- A method with an idiom of its own puts the same frame around all operands of that number. -/
theorem framed_method (method : String) (count : Nat) (isSimple isHost : Bool) :
    Framed (method? · method · isSimple isHost) count (methodSeat method count isSimple isHost)
      (argumentSeat method) := by
  obtain ⟨hhosts, hidentities⟩ := seat_table
  have hempty {args : List Js.Expr} (hlength : args.length = count) :
      args.isEmpty = (count == 0) := by
    rw [← hlength]
    cases args <;> rfl
  by_cases hproperty : (isHost && count == 0 && hostProperties.contains method) = true
  · have hmethod : hostProperties.contains method = true := (Bool.and_eq_true_iff.mp hproperty).2
    have hseats := List.all_eq_true.mp hhosts method (List.contains_iff_mem.mp hmethod)
    rw [Bool.and_eq_true, beq_iff_eq] at hseats
    obtain rfl : count = 0 := beq_iff_eq.mp
      (Bool.and_eq_true_iff.mp (Bool.and_eq_true_iff.mp hproperty).1).2
    exact .inr ⟨.property method, .nil fun _ => if_pos hproperty, ⟨⟨rfl, hseats.1⟩, trivial⟩,
      (if_pos hproperty).symm, hseats.2.symm⟩
  by_cases hidentity : (identities.contains method && decide (count ≤ 1)) = true
  · have hmethod : identities.contains method = true := (Bool.and_eq_true_iff.mp hidentity).1
    have hle : count ≤ 1 := of_decide_eq_true (Bool.and_eq_true_iff.mp hidentity).2
    have hseat := List.all_eq_true.mp hidentities method (List.contains_iff_mem.mp hmethod)
    refine .inr ⟨.itself, fun recv args hlength => ?_, ⟨hle, trivial⟩, ?_,
      (beq_iff_eq.mp hseat).symm⟩
    · beta_reduce
      unfold method?
      rw [hempty hlength, if_neg hproperty, hlength, if_pos hidentity, Frame.code]
    · exact ((if_neg hproperty).trans (if_pos hidentity)).symm
  rw [methodSeat, if_neg hproperty, if_neg hidentity]
  by_cases hunwrap : method = "unwrap" ∧ count = 0
  · obtain ⟨rfl, rfl⟩ := hunwrap
    exact .inr ⟨.function (.atom "unwrap"),
      .nil fun _ => (if_neg hproperty).trans (if_neg hidentity),
      isRead_function (by simp [functions]), rfl, rfl⟩
  by_cases hexpect : method = "expect" ∧ count = 1
  · obtain ⟨rfl, rfl⟩ := hexpect
    exact .inr ⟨.function (.atom "unwrap"),
      .one fun _ _ => (if_neg hproperty).trans (if_neg hidentity),
      isRead_function (by simp [functions]), rfl, rfl⟩
  have hgroup (recv : Js.Expr) (args : List Js.Expr) (hlength : args.length = count) :
      method? recv method args isSimple isHost = ((container? recv method args) <|>
        (optional? recv method args isSimple) <|> (sequence? recv method args isSimple) <|>
        ((renamed? method).map fun name => .call (.member recv name) args)) := by
    unfold method?
    rw [hempty hlength, if_neg hproperty, hlength, if_neg hidentity]
    split
    · exact absurd ⟨rfl, hlength.symm⟩ hunwrap
    · exact absurd ⟨rfl, hlength.symm⟩ hexpect
    · rfl
  exact (framed_group method count isSimple).congr hgroup

theorem method?_cases (method : String) (count : Nat) (isSimple isHost : Bool) :
    (∀ recv args, args.length = count → method? recv method args isSimple isHost = none) ∨
    ∃ f : Frame, (∀ recv args, args.length = count →
        method? recv method args isSimple isHost = some (f.code recv args)) ∧
      f.IsGood count ∧ f.receiver = methodSeat method count isSimple isHost ∧
      f.argument = argumentSeat method :=
  framed_method method count isSimple isHost

theorem exists_frame (h : method? recv method args isSimple isHost = some code) :
    HasFrame (method? · method · isSimple isHost) args.length
      (methodSeat method args.length isSimple isHost) (argumentSeat method) :=
  (framed_method method args.length isSimple isHost).resolve_left fun hnone =>
    nomatch h.symm.trans (hnone recv args rfl)

end Frames

end RustScript.Idiom
