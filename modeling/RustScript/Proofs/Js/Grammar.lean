/-
  How JavaScript reads an expression.

  A text is cut into tokens (`lex`), and `Reads level tokens term` says that they are an expression
  of that level of precedence or a tighter one. Where a text needs more than the forms of `Term`, or
  would open a comment, there is no reading. There is at most one (`Reads.unique`): a recursive
  reader with a bound on its depth finds every derivation.
-/
import RustScript.Name
import RustScript.Proofs.Text.CodePoints

namespace RustScript.Js

/-! ## Tokens -/

/-- The tokens of the expressions read here. -/
inductive Token where
  | word (text : String)
  | str (value : String)
  | mark (text : String)
  deriving DecidableEq

def isWordChar (c : Char) : Bool := Text.isNameContinue c || c == '$'

def isWordStart (c : Char) : Bool := Text.isNameStart c || c == '_' || c == '$'

/-- The punctuators, of which the longest that fits is taken, and what opens a comment. -/
def marks : List String :=
  ["<!--", ">>>=", "...", "===", "!==", "**=", "<<=", ">>=", ">>>", "&&=", "||=", "??=", "=>", "==",
   "!=", "<=", ">=", "&&", "||", "??", "?.", "++", "--", "+=", "-=", "*=", "/=", "%=", "&=", "|=",
   "^=", "<<", ">>", "**", "//", "/*", "+", "-", "*", "/", "%", "<", ">", "&", "|", "^", "!", "~",
   "?", ":", "=", ",", ";", ".", "(", ")", "[", "]", "\x7b", "\x7d"]

/-- The longest mark at the front of a text. -/
def mark? (cs : List Char) : Option String := marks.find? fun m => m.toList.isPrefixOf cs

/-- The value of a hexadecimal digit. -/
def hexDigit? (c : Char) : Option Nat :=
  if '0' ≤ c && c ≤ '9' then some (c.toNat - '0'.toNat)
  else if 'a' ≤ c && c ≤ 'f' then some (c.toNat - 'a'.toNat + 10)
  else if 'A' ≤ c && c ≤ 'F' then some (c.toNat - 'A'.toNat + 10)
  else none

def hexChar? (digits : List Char) : Option Char := do
  let values ← digits.mapM hexDigit?
  let code := values.foldl (fun n d => 16 * n + d) 0
  if h : code.isValidChar then some (Char.ofNatAux code h) else none

/-- What stands after a backslash: the character meant and the number of characters that spell
    it. -/
def escape? : List Char → Option (Char × Nat)
  | 'x' :: a :: b :: _ => (hexChar? [a, b]).map (·, 3)
  | 'u' :: a :: b :: c :: d :: _ => (hexChar? [a, b, c, d]).map (·, 5)
  | c :: _ =>
    ([('n', '\n'), ('r', '\r'), ('t', '\t'), ('b', '\x08'), ('v', '\x0b'), ('f', '\x0c'),
      ('\\', '\\'), ('"', '"'), ('\'', '\'')].lookup c).map (·, 1)
  | [] => none

/-- The value of a string literal whose opening quote has been read, and what follows it. -/
def readString : List Char → Option (List Char × List Char)
  | [] => none
  | c :: cs =>
    if c == '"' then some ([], cs)
    else if c == '\\' then
      match escape? cs with
      | some (d, width) => (readString (cs.drop width)).map fun (ds, rest) => (d :: ds, rest)
      | none => none
    else if c == '\n' || c == '\r' then none
    else (readString cs).map fun (ds, rest) => (c :: ds, rest)
termination_by cs => cs.length
decreasing_by
  · simp only [List.length_drop, List.length_cons]
    omega
  · simp

theorem length_le_of_readString {cs value rest : List Char}
    (h : readString cs = some (value, rest)) : rest.length ≤ cs.length := by
  fun_induction readString cs generalizing value with
  | case1 => simp at h
  | case2 c cs hc => simp_all
  | case3 c cs _ _ d width he ih =>
    obtain ⟨⟨ds, r⟩, hr, heq⟩ := Option.map_eq_some_iff.mp h
    cases heq
    have := ih hr
    simp only [List.length_drop, List.length_cons] at this ⊢
    omega
  | case4 => simp at h
  | case5 => simp at h
  | case6 c cs _ _ _ ih =>
    obtain ⟨⟨ds, r⟩, hr, heq⟩ := Option.map_eq_some_iff.mp h
    cases heq
    have := ih hr
    simp only [List.length_cons]
    omega

/-- The tokens of a text on one line. -/
def lex : List Char → Option (List Token)
  | [] => some []
  | c :: cs =>
    if c == ' ' then lex cs
    else if isWordChar c then
      (lex (cs.dropWhile isWordChar)).map
        (.word (String.ofList (c :: cs.takeWhile isWordChar)) :: ·)
    else if c == '"' then
      match h : readString cs with
      | some (value, rest) =>
        have := length_le_of_readString h
        (lex rest).map (.str (String.ofList value) :: ·)
      | none => none
    else
      match mark? (c :: cs) with
      | some m => (lex (cs.drop (m.length - 1))).map (.mark m :: ·)
      | none => none
termination_by cs => cs.length
decreasing_by
  · simp
  · have := (List.dropWhile_suffix (l := cs) isWordChar).length_le
    simp only [List.length_cons]
    omega
  · simp only [List.length_cons]
    omega
  · simp only [List.length_drop, List.length_cons]
    omega

/-! ## Expressions -/

/-- What an expression says, parentheses apart. -/
inductive Term where
  /-- A name, or one of the words that stand for a value. -/
  | word (text : String)
  | number (value : Nat)
  | str (value : String)
  | unary (op : String) (operand : Term)
  | binary (op : String) (left right : Term)
  | member (obj : Term) (name : String)
  | index (obj index : Term)
  | call (func arg : Term)
  deriving DecidableEq

/-- Whether the word is a name by its characters. -/
def isName (w : String) : Bool :=
  match w.toList with
  | c :: cs => isWordStart c && cs.all isWordChar
  | [] => false

/-- Whether the word can stand for a value by itself. -/
def isOperand (w : String) : Bool :=
  isName w &&
    (!Name.reserved.contains w || ["this", "null", "undefined", "true", "false"].contains w)

/-- The binary operators by how tight they bind, the loosest first. -/
def binaryLevels : List (List String) :=
  [["||"], ["&&"], ["|"], ["^"], ["&"], ["===", "!==", "==", "!="],
   ["<", "<=", ">", ">=", "in", "instanceof"], ["<<", ">>", ">>>"], ["+", "-"], ["*", "/", "%"]]

/-- The precedence of an operator with two operands. -/
def binaryLevel? (op : String) : Option Nat := binaryLevels.findIdx? (·.contains op)

def prefixLevel : Nat := 10

/-- The level of names, literals, parentheses, and what is reached from them. -/
def suffixLevel : Nat := 11

def prefixOperators : List String := ["-", "!", "+", "~"]

/-- The operator with two operands that a token is, with its precedence. -/
def Token.operator? : Token → Option (String × Nat)
  | .mark op => (binaryLevel? op).map (op, ·)
  | .word op => (binaryLevel? op).map (op, ·)
  | .str _ => none

/-- The tokens are an expression that binds at least as tight as the level. A numeral takes no
    suffix: the point after one would belong to it. -/
inductive Reads : Nat → List Token → Term → Prop where
  | word {w : String} : isOperand w → Reads suffixLevel [.word w] (.word w)
  | number (n : Nat) : Reads prefixLevel [.word (toString n)] (.number n)
  | str (s : String) : Reads suffixLevel [.str s] (.str s)
  | paren {ts : List Token} {t : Term} :
      Reads 0 ts t → Reads suffixLevel (.mark "(" :: (ts ++ [.mark ")"])) t
  | member {ts : List Token} {t : Term} {name : String} :
      Reads suffixLevel ts t → isName name →
      Reads suffixLevel (ts ++ [.mark ".", .word name]) (.member t name)
  | index {ts us : List Token} {t u : Term} :
      Reads suffixLevel ts t → Reads 0 us u →
      Reads suffixLevel (ts ++ .mark "[" :: (us ++ [.mark "]"])) (.index t u)
  | call {ts us : List Token} {t u : Term} :
      Reads suffixLevel ts t → Reads 0 us u →
      Reads suffixLevel (ts ++ .mark "(" :: (us ++ [.mark ")"])) (.call t u)
  | unary {op : String} {ts : List Token} {t : Term} :
      op ∈ prefixOperators → Reads prefixLevel ts t →
      Reads prefixLevel (.mark op :: ts) (.unary op t)
  | binary {tok : Token} {op : String} {level : Nat} {ts us : List Token} {t u : Term} :
      tok.operator? = some (op, level) → Reads level ts t → Reads (level + 1) us u →
      Reads level (ts ++ tok :: us) (.binary op t u)
  | tighter {level : Nat} {ts : List Token} {t : Term} : Reads (level + 1) ts t → Reads level ts t

/-- JavaScript can read the text as the term. -/
def ReadsAs (text : String) (t : Term) : Prop := ∃ ts, lex text.toList = some ts ∧ Reads 0 ts t

theorem Reads.loosen {k l : Nat} {ts : List Token} {t : Term} (h : Reads k ts t) (hle : l ≤ k) :
    Reads l ts t := by
  induction hle with
  | refl => exact h
  | step _ ih => exact ih h.tighter

/-! ## A reader

The reader recurses on a bound, and answers within all bounds that are large enough. -/

def numeral? (w : String) : Option Nat :=
  if w.toList.all Char.isDigit then some (Nat.ofDigitChars 10 w.toList 0) else none

/-- What follows the mark. -/
def after? (m : String) : List Token → Option (List Token)
  | .mark k :: ts => if k = m then some ts else none
  | _ => none

mutual

/-- An expression that binds at least as tight as the level, and what follows it. -/
def operation : (bound level : Nat) → List Token → Option (Term × List Token)
  | 0, _, _ => none
  | n + 1, level, ts => (operand n ts).bind fun (t, rest) => climb n level t rest

/-- The binary operators that follow a left operand, as far as they bind tight enough. -/
def climb : (bound level : Nat) → Term → List Token → Option (Term × List Token)
  | 0, _, _, _ => none
  | _ + 1, _, left, [] => some (left, [])
  | n + 1, level, left, tok :: ts =>
    match tok.operator? with
    | some (op, k) =>
      if level ≤ k then
        (operation n (k + 1) ts).bind fun (right, rest) =>
          climb n level (.binary op left right) rest
      else some (left, tok :: ts)
    | none => some (left, tok :: ts)

def operand : (bound : Nat) → List Token → Option (Term × List Token)
  | 0, _ => none
  | _ + 1, [] => none
  | n + 1, .str s :: ts => suffixes n (.str s) ts
  | n + 1, .word w :: ts =>
    match numeral? w with
    | some k => some (.number k, ts)
    | none => if isOperand w then suffixes n (.word w) ts else none
  | n + 1, .mark m :: ts =>
    if m ∈ prefixOperators then (operand n ts).bind fun (t, rest) => some (.unary m t, rest)
    else if m = "(" then
      (operation n 0 ts).bind fun (t, rest) => (after? ")" rest).bind fun rest => suffixes n t rest
    else none

/-- What is reached from a value by the suffixes that follow. -/
def suffixes : (bound : Nat) → Term → List Token → Option (Term × List Token)
  | 0, _, _ => none
  | n + 1, t, .mark "." :: .word name :: ts =>
    if isName name then suffixes n (.member t name) ts else none
  | n + 1, t, .mark "[" :: ts =>
    (operation n 0 ts).bind fun (u, rest) =>
      (after? "]" rest).bind fun rest => suffixes n (.index t u) rest
  | n + 1, t, .mark "(" :: ts =>
    (operation n 0 ts).bind fun (u, rest) =>
      (after? ")" rest).bind fun rest => suffixes n (.call t u) rest
  | _ + 1, t, ts => some (t, ts)

end

/-- The computation gives the answer within all bounds that are large enough. -/
def Settles {α : Type} (f : Nat → Option α) (a : α) : Prop := ∃ m, ∀ n, m ≤ n → f n = some a

namespace Settles

variable {α β : Type} {f g : Nat → Option α} {a b : α}

theorem unique (ha : Settles f a) (hb : Settles f b) : a = b := by
  obtain ⟨m, hm⟩ := ha
  obtain ⟨k, hk⟩ := hb
  have h := hm (max m k) (Nat.le_max_left ..)
  rw [hk _ (Nat.le_max_right ..)] at h
  exact (Option.some.inj h).symm

theorem step (h : ∀ n, f (n + 1) = g n) (hg : Settles g a) : Settles f a := by
  obtain ⟨m, hm⟩ := hg
  refine ⟨m + 1, fun n hn => ?_⟩
  obtain ⟨k, rfl⟩ : ∃ k, n = k + 1 := ⟨n - 1, by omega⟩
  rw [h, hm k (by omega)]

theorem bind {k : α → Nat → Option β} {c : β} (hf : Settles f a) (hk : Settles (k a) c) :
    Settles (fun n => (f n).bind fun x => k x n) c := by
  obtain ⟨m, hm⟩ := hf
  obtain ⟨l, hl⟩ := hk
  refine ⟨max m l, fun n hn => ?_⟩
  simp only
  rw [hm n (by omega), Option.bind_some, hl n (by omega)]

theorem of_answer (h : ∀ n, f (n + 1) = some a) : Settles f a :=
  step (g := fun _ => some a) h ⟨0, fun _ _ => rfl⟩

end Settles

/-- No member, index or call follows. -/
def NoSuffix (rest : List Token) : Prop :=
  ∀ tok ∈ rest.head?, tok ∉ [Token.mark ".", .mark "[", .mark "("]

/-- What follows is no operator of the level or a tighter one. -/
def NoOperator (level : Nat) (rest : List Token) : Prop :=
  ∀ tok ∈ rest.head?, ∀ op k, tok.operator? = some (op, k) → k < level

variable {rest : List Token}

theorem NoOperator.mono {k l : Nat} (h : NoOperator k rest) (hle : k ≤ l) : NoOperator l rest :=
  fun tok htok op j hj => Nat.lt_of_lt_of_le (h tok htok op j hj) hle

variable {tok : Token}

theorem noSuffix_cons (h : tok ∉ [Token.mark ".", .mark "[", .mark "("]) (rest : List Token) :
    NoSuffix (tok :: rest) := by
  intro k hk
  obtain rfl : tok = k := by simpa using hk
  exact h

theorem noOperator_cons (h : tok.operator? = none) (level : Nat) (rest : List Token) :
    NoOperator level (tok :: rest) := by
  intro k hk op l hop
  obtain rfl : tok = k := by simpa using hk
  simp [h] at hop

theorem binaryLevel?_lt {op : String} {l : Nat} (h : binaryLevel? op = some l) :
    l < prefixLevel := by
  obtain ⟨hlt, -⟩ := List.findIdx?_eq_some_iff_getElem.mp h
  exact hlt

theorem Token.level_lt {op : String} {l : Nat} (h : tok.operator? = some (op, l)) :
    l < prefixLevel := by
  cases tok with
  | word w =>
    obtain ⟨k, hk, heq⟩ := Option.map_eq_some_iff.mp h
    exact (Prod.mk.inj heq).2 ▸ binaryLevel?_lt hk
  | str s => simp [Token.operator?] at h
  | mark m =>
    obtain ⟨k, hk, heq⟩ := Option.map_eq_some_iff.mp h
    exact (Prod.mk.inj heq).2 ▸ binaryLevel?_lt hk

theorem settles_suffixes_end (h : NoSuffix rest) (t : Term) :
    Settles (suffixes · t rest) (t, rest) := by
  refine .of_answer fun n => ?_
  match rest with
  | [] => simp [suffixes]
  | tok :: ts =>
    have htok := h tok rfl
    simp only [List.mem_cons, List.not_mem_nil, or_false, not_or] at htok
    rw [suffixes]
    all_goals simp_all

theorem settles_climb_end {level : Nat} (h : NoOperator level rest) (t : Term) :
    Settles (climb · level t rest) (t, rest) := by
  refine .of_answer fun n => ?_
  match rest with
  | [] => rw [climb]
  | tok :: ts =>
    rw [climb]
    split
    · next op k hop =>
      have := h tok rfl op k hop
      rw [if_neg (by omega)]
    · rfl

/-- The reader finds the expression: with the suffixes after it if it can take any, as an operand
    if it is one, and as an operation that goes on with the looser operators after it. -/
structure Found (level : Nat) (ts : List Token) (t : Term) : Prop where
  asBase : suffixLevel ≤ level → ∀ rest a, Settles (suffixes · t rest) a →
    Settles (operand · (ts ++ rest)) a
  asOperand : prefixLevel ≤ level → ∀ rest, NoSuffix rest →
    Settles (operand · (ts ++ rest)) (t, rest)
  asOperation : ∀ k ≤ level, ∀ rest a, NoSuffix rest → NoOperator (level + 1) rest →
    Settles (climb · k t rest) a → Settles (operation · k (ts ++ rest)) a

namespace Found

variable {level : Nat} {ts us : List Token} {t u : Term} {op : String}

theorem of_operand (h : ∀ rest, NoSuffix rest → Settles (operand · (ts ++ rest)) (t, rest)) :
    Found prefixLevel ts t where
  asBase hle := absurd hle (by decide)
  asOperand _ := h
  asOperation _ _ rest _ hs _ ha := .step (fun _ => by rw [operation]) ((h rest hs).bind ha)

theorem of_base (h : ∀ rest a, Settles (suffixes · t rest) a → Settles (operand · (ts ++ rest)) a) :
    Found suffixLevel ts t where
  asBase _ := h
  asOperand _ rest hs := h rest _ (settles_suffixes_end hs t)
  asOperation _ _ rest _ hs _ ha :=
    .step (fun _ => by rw [operation]) ((h rest _ (settles_suffixes_end hs t)).bind ha)

theorem tighter (h : Found (level + 1) ts t) : Found level ts t where
  asBase hle := h.asBase (Nat.le_succ_of_le hle)
  asOperand hle := h.asOperand (Nat.le_succ_of_le hle)
  asOperation k hk rest a hs ho :=
    h.asOperation k (Nat.le_succ_of_le hk) rest a hs (ho.mono (Nat.le_succ _))

theorem bracketed (h : Found 0 ts t) {m : String} (hm : m = ")" ∨ m = "]")
    (next : Term → Nat → List Token → Option (Term × List Token)) {rest : List Token}
    {a : Term × List Token} (ha : Settles (next t · rest) a) :
    Settles (fun n => (operation n 0 (ts ++ .mark m :: rest)).bind fun (u, rest) =>
      (after? m rest).bind fun rest => next u n rest) a := by
  have hs : NoSuffix (.mark m :: rest) := by
    rcases hm with rfl | rfl <;> exact noSuffix_cons (by decide) _
  have ho (level : Nat) : NoOperator level (.mark m :: rest) := by
    rcases hm with rfl | rfl <;> exact noOperator_cons (by decide) _ _
  have hread : Settles (operation · 0 (ts ++ .mark m :: rest)) (t, .mark m :: rest) :=
    h.asOperation 0 (Nat.le_refl 0) _ _ hs (ho 1) (settles_climb_end (ho 0) t)
  refine hread.bind (k := fun p n => (after? m p.2).bind fun rest => next p.1 n rest) ?_
  simpa [after?] using ha

theorem paren (h : Found 0 ts t) : Found suffixLevel (.mark "(" :: (ts ++ [.mark ")"])) t := by
  refine .of_base fun rest a ha => ?_
  refine .step (fun n => ?_) (h.bracketed (.inl rfl) (fun t n => suffixes n t) ha)
  rw [List.cons_append, operand, if_neg (by decide), if_pos rfl]
  simp

theorem index (ht : Found suffixLevel ts t) (hu : Found 0 us u) :
    Found suffixLevel (ts ++ .mark "[" :: (us ++ [.mark "]"])) (.index t u) := by
  refine .of_base fun rest a ha => ?_
  rw [List.append_assoc]
  refine ht.asBase (Nat.le_refl _) _ _ (.step (fun n => ?_)
    (hu.bracketed (.inr rfl) (fun u n => suffixes n (.index t u)) ha))
  simp [suffixes]

theorem call (ht : Found suffixLevel ts t) (hu : Found 0 us u) :
    Found suffixLevel (ts ++ .mark "(" :: (us ++ [.mark ")"])) (.call t u) := by
  refine .of_base fun rest a ha => ?_
  rw [List.append_assoc]
  refine ht.asBase (Nat.le_refl _) _ _ (.step (fun n => ?_)
    (hu.bracketed (.inl rfl) (fun u n => suffixes n (.call t u)) ha))
  simp [suffixes]

theorem unary (hop : op ∈ prefixOperators) (h : Found prefixLevel ts t) :
    Found prefixLevel (.mark op :: ts) (.unary op t) := by
  refine .of_operand fun rest hs => .step (fun n => ?_)
    ((h.asOperand (Nat.le_refl _) rest hs).bind (k := fun p _ => some (.unary op p.1, p.2))
      ⟨0, fun _ _ => rfl⟩)
  rw [List.cons_append, operand, if_pos hop]

/-- The left operand is read first, and the climb from it takes the operator: the right operand is
    read one level tighter, so it leaves what follows to the climb. -/
theorem binary {tok : Token} (hop : tok.operator? = some (op, level)) (ht : Found level ts t)
    (hu : Found (level + 1) us u) :
    Found level (ts ++ tok :: us) (.binary op t u) where
  asBase hle := absurd (Token.level_lt hop) (Nat.not_lt_of_le (Nat.le_of_succ_le hle))
  asOperand hle := absurd (Token.level_lt hop) (Nat.not_lt_of_le hle)
  asOperation k hk rest a hs ho ha := by
    have htok : NoSuffix (tok :: (us ++ rest)) := by
      refine noSuffix_cons (fun hmem => ?_) _
      have hnone : tok.operator? = none := by
        simp only [List.mem_cons, List.not_mem_nil, or_false] at hmem
        rcases hmem with rfl | rfl | rfl <;> decide
      simp [hnone] at hop
    have hlevel : NoOperator (level + 1) (tok :: (us ++ rest)) := by
      intro tok' htok' op' j hj
      obtain rfl : tok = tok' := by simpa using htok'
      obtain ⟨-, rfl⟩ := Prod.mk.inj (Option.some.inj (hop.symm.trans hj))
      exact Nat.lt_succ_self _
    have hright : Settles (operation · (level + 1) (us ++ rest)) (u, rest) :=
      hu.asOperation (level + 1) (Nat.le_refl _) rest _ hs (ho.mono (Nat.le_succ _))
        (settles_climb_end ho u)
    rw [List.append_assoc, List.cons_append]
    refine ht.asOperation k hk _ a htok hlevel (.step (fun n => ?_)
      (hright.bind (k := fun p n => climb n k (.binary op t p.1) p.2) ha))
    rw [climb, hop]
    exact if_pos hk

end Found

theorem isWordStart_of_isDigit {c : Char} (h : c.isDigit) : isWordStart c = false := by
  have hu : c ≠ '_' := by rintro rfl; exact absurd h (by decide)
  have hd : c ≠ '$' := by rintro rfl; exact absurd h (by decide)
  simp [isWordStart, Text.isNameStart_of_isDigit h, hu, hd]

theorem isDigit_of_mem_toString {n : Nat} {c : Char} (h : c ∈ (toString n).toList) : c.isDigit := by
  rw [Nat.toString_eq_repr, Nat.toList_repr] at h
  exact Nat.isDigit_of_mem_toDigits (by decide) (by decide) h

theorem numeral?_toString (n : Nat) : numeral? (toString n) = some n := by
  have hall : (toString n).toList.all Char.isDigit :=
    List.all_eq_true.mpr fun _ => isDigit_of_mem_toString
  rw [numeral?, if_pos hall, Nat.toString_eq_repr, Nat.toList_repr, Nat.ofDigitChars_ten_toDigits]

theorem numbered_ne (stem : String) {i j : Nat} (h : i ≠ j) :
    stem ++ toString i ≠ stem ++ toString j := by
  intro heq
  have hread := congrArg numeral? ((String.append_right_inj stem).mp heq)
  rw [numeral?_toString, numeral?_toString] at hread
  exact h (Option.some.inj hread)

theorem numeral?_of_isOperand {w : String} (h : isOperand w) : numeral? w = none := by
  have hname : isName w := (Bool.and_eq_true_iff.mp h).1
  unfold isName at hname
  split at hname
  · next c cs hcs =>
    have hc : c.isDigit ≠ true := fun hd => by simp [isWordStart_of_isDigit hd] at hname
    rw [numeral?, if_neg (by simp [hcs, hc])]
  · simp at hname

/-- The reader finds every reading of the grammar. -/
theorem Reads.found {level : Nat} {ts : List Token} {t : Term} (h : Reads level ts t) :
    Found level ts t := by
  induction h with
  | @word w hw =>
    refine .of_base fun rest a ha => ha.step fun n => ?_
    rw [List.singleton_append, operand, numeral?_of_isOperand hw]
    exact if_pos hw
  | number n =>
    refine .of_operand fun rest _ => .of_answer fun k => ?_
    rw [List.singleton_append, operand, numeral?_toString]
  | str s =>
    refine .of_base fun rest a ha => ha.step fun n => ?_
    rw [List.singleton_append, operand]
  | paren _ ih => exact ih.paren
  | member _ hname ih =>
    refine .of_base fun rest a ha => ?_
    rw [List.append_assoc]
    exact ih.asBase (Nat.le_refl _) _ _ (ha.step fun n => if_pos hname)
  | index _ _ iht ihu => exact iht.index ihu
  | call _ _ iht ihu => exact iht.call ihu
  | unary hop _ ih => exact ih.unary hop
  | binary hop _ _ iht ihu => exact iht.binary hop ihu
  | tighter _ ih => exact ih.tighter

/-- A list of tokens is read in one way. -/
theorem Reads.unique {ts : List Token} {t u : Term} (ht : Reads 0 ts t) (hu : Reads 0 ts u) :
    t = u := by
  have hs : NoSuffix [] := by simp [NoSuffix]
  have ho (level : Nat) : NoOperator level [] := by simp [NoOperator]
  have hfound {t : Term} (h : Reads 0 ts t) : Settles (operation · 0 (ts ++ [])) (t, []) :=
    h.found.asOperation 0 (Nat.le_refl 0) [] _ hs (ho 1) (settles_climb_end (ho 0) t)
  exact (Prod.mk.inj ((hfound ht).unique (hfound hu))).1

end RustScript.Js
