/-
  How JavaScript groups an expression.

  `Spelled ls p` says that the lexemes can be taken for the phrase `p`, whatever the precedence of
  its operators, and `Phrase.isGrouped` that each operand binds tight enough for its place.
  Parameters, blocks and object literals are kept as text.
-/
import RustScript.Proofs.Js.Lexeme

namespace RustScript.Js

/-! ## Phrases -/

/-- An expression as it is read, parentheses included. -/
inductive Phrase where
  /-- No expression, where there could be arguments or elements. -/
  | nothing
  | word (text : String)
  | numeral (text : String)
  | literal (text : String)
  | object (inner : String)
  | paren (content : Phrase)
  | array (elems : Phrase)
  | member (obj : Phrase) (name : String)
  | index (obj index : Phrase)
  | call (func args : Phrase)
  | construct (type : String) (args : Phrase)
  | unary (op : String) (operand : Phrase)
  /-- Two operands. Arguments and elements have commas between them. -/
  | binary (op : String) (left right : Phrase)
  | ternary (cond yes no : Phrase)
  | arrow (isAsync : Bool) (params : String) (body : Phrase)
  | arrowBlock (isAsync : Bool) (params body : String)
  | spread (operand : Phrase)
  deriving DecidableEq

/-- The operators that assign. -/
def assignments : List String :=
  ["=", "+=", "-=", "*=", "/=", "%=", "&=", "|=", "^=", "<<=", ">>=", ">>>=", "**=", "&&=", "||=",
   "??="]

/-- The operators with two operands by how tight they bind, the loosest first. -/
def operatorLevels : List (List String) :=
  [[], [","], [], assignments, [], ["??"]] ++ binaryLevels ++ [["**"]]

/-- The precedence of an operator with two operands. -/
def operatorLevel? (op : String) : Option Nat := operatorLevels.findIdx? (·.contains op)

namespace Level

def comma : Nat := 1

def spread : Nat := 2

/-- The level of assignments and arrow functions: that of every expression without commas. -/
def assignment : Nat := 3

def conditional : Nat := 4

def coalesce : Nat := 5

def bitOr : Nat := 8

/-- The level of the shifts, above `in` and the comparisons. -/
def shift : Nat := 13

def power : Nat := 16

def unary : Nat := 17

/-- The level of names, literals, brackets and what is reached from them. -/
def primary : Nat := 18

end Level

/-- The operators with one operand that are words. -/
def wordOperators : List String := ["typeof", "delete", "await", "void"]

/-- The operator with one operand that a lexeme is. -/
def Lexeme.unary? : Lexeme → Option String
  | mark op => if prefixOperators.contains op then some op else none
  | word op => if wordOperators.contains op then some op else none
  | _ => none

/-- The operator with two operands that a lexeme is, and its level. -/
def Lexeme.operator? : Lexeme → Option (String × Nat)
  | mark op => (operatorLevel? op).map (op, ·)
  | word op => (operatorLevel? op).map (op, ·)
  | _ => none

/-- A word that is an expression by itself. -/
def isPhrase (w : String) : Bool := isOperand w && w != "async"

/-- What an arrow function has in front of its body. -/
def arrowHead (isAsync : Bool) (params : String) : List Lexeme :=
  (if isAsync then [.word "async"] else []) ++ [.round params, .mark "=>"]

/-- The lexemes can be taken for the phrase. -/
inductive Spelled : List Lexeme → Phrase → Prop where
  | nothing : Spelled [] .nothing
  | word {w : String} : isPhrase w = true → Spelled [.word w] (.word w)
  | numeral (text : String) : Spelled [.numeral text] (.numeral text)
  | literal (text : String) : Spelled [.literal text] (.literal text)
  | object (inner : String) : Spelled [.brace inner] (.object inner)
  | paren {inner : String} {ls : List Lexeme} {p : Phrase} :
      lexemes inner.toList = some ls → Spelled ls p → Spelled [.round inner] (.paren p)
  | array {inner : String} {ls : List Lexeme} {p : Phrase} :
      lexemes inner.toList = some ls → Spelled ls p → Spelled [.square inner] (.array p)
  | member {ls : List Lexeme} {p : Phrase} {name : String} :
      Spelled ls p → isName name = true →
      Spelled (ls ++ [.mark ".", .word name]) (.member p name)
  | index {inner : String} {ls ks : List Lexeme} {p q : Phrase} :
      Spelled ls p → lexemes inner.toList = some ks → Spelled ks q →
      Spelled (ls ++ [.square inner]) (.index p q)
  | call {inner : String} {ls ks : List Lexeme} {p q : Phrase} :
      Spelled ls p → lexemes inner.toList = some ks → Spelled ks q →
      Spelled (ls ++ [.round inner]) (.call p q)
  | construct {type inner : String} {ks : List Lexeme} {q : Phrase} :
      isName type = true → lexemes inner.toList = some ks → Spelled ks q →
      Spelled [.word "new", .word type, .round inner] (.construct type q)
  | unary {l : Lexeme} {op : String} {ls : List Lexeme} {p : Phrase} :
      l.unary? = some op → Spelled ls p → Spelled (l :: ls) (.unary op p)
  | binary {l : Lexeme} {op : String} {k : Nat} {ls ks : List Lexeme} {p q : Phrase} :
      l.operator? = some (op, k) → Spelled ls p → Spelled ks q →
      Spelled (ls ++ l :: ks) (.binary op p q)
  | ternary {ls ks js : List Lexeme} {p q r : Phrase} :
      Spelled ls p → Spelled ks q → Spelled js r →
      Spelled (ls ++ .mark "?" :: (ks ++ .mark ":" :: js)) (.ternary p q r)
  | arrow (isAsync : Bool) (params : String) {ls : List Lexeme} {p : Phrase} :
      Spelled ls p → Spelled (arrowHead isAsync params ++ ls) (.arrow isAsync params p)
  | arrowBlock (isAsync : Bool) (params inner : String) :
      Spelled (arrowHead isAsync params ++ [.brace inner]) (.arrowBlock isAsync params inner)
  | spread {ls : List Lexeme} {p : Phrase} :
      Spelled ls p → Spelled (.mark "..." :: ls) (.spread p)

/-! ## Grouping -/

namespace Phrase

/-- How tight the phrase binds as an operand. -/
def level : Phrase → Nat
  | nothing => 0
  | binary op _ _ => (operatorLevel? op).getD 0
  | spread _ => Level.spread
  | arrow .. => Level.assignment
  | arrowBlock .. => Level.assignment
  | ternary .. => Level.conditional
  | unary .. => Level.unary
  | _ => Level.primary

/-- Whether something can be assigned to the phrase. -/
def isTarget : Phrase → Bool
  | word _ => true
  | member .. => true
  | index .. => true
  | _ => false

def hasSpread : Phrase → Bool
  | spread _ => true
  | binary op l r => op == "," && (l.hasSpread || r.hasSpread)
  | _ => false

/-- Whether the text of the phrase begins with a brace. -/
def opensBrace : Phrase → Bool
  | object _ => true
  | member p _ => p.opensBrace
  | index p _ => p.opensBrace
  | call p _ => p.opensBrace
  | binary _ p _ => p.opensBrace
  | ternary p _ _ => p.opensBrace
  | _ => false

/-- Whether the phrase can stand on the left of an operator of the level. An assignment needs a
    target, `**` allows no operator on its left, and `??` cannot be mixed with `||` and `&&`. -/
def goesLeft (op : String) (k : Nat) (p : Phrase) : Bool :=
  if k == Level.assignment then p.isTarget
  else if op == "**" then Level.primary ≤ p.level
  else if op == "??" then p.level == k || Level.bitOr ≤ p.level
  else k ≤ p.level

end Phrase

/-- The level from which on a phrase can stand on the right of an operator. Assignments and `**`
    associate to the right, the other operators to the left. -/
def rightLevel (op : String) (k : Nat) : Nat :=
  if k == Level.assignment || op == "**" then k else if op == "??" then Level.bitOr else k + 1

namespace Phrase

/-- Whether the operands bind tight enough for the operator. -/
def fits (op : String) (p q : Phrase) : Bool :=
  (operatorLevel? op).any fun k => p.goesLeft op k && rightLevel op k ≤ q.level

/-- Whether an expression, with commas or without, can stand in parentheses. -/
def isContent (p : Phrase) : Bool := Level.comma ≤ p.level && !p.hasSpread

/-- Whether each operand in the phrase binds tight enough for its place. -/
def isGrouped : Phrase → Bool
  | nothing => true
  | word _ => true
  | numeral _ => true
  | literal _ => true
  | object _ => true
  | paren p => p.isGrouped && p.isContent
  | array p => p.isGrouped
  | member p _ => p.isGrouped && Level.primary ≤ p.level
  | index p q => p.isGrouped && q.isGrouped && Level.primary ≤ p.level && q.isContent
  | call p q => p.isGrouped && q.isGrouped && Level.primary ≤ p.level
  | construct _ q => q.isGrouped
  | unary _ p => p.isGrouped && Level.unary ≤ p.level
  | binary op p q => p.isGrouped && q.isGrouped && fits op p q
  | ternary p q r =>
    p.isGrouped && q.isGrouped && r.isGrouped && Level.conditional < p.level &&
      Level.assignment ≤ q.level && Level.assignment ≤ r.level
  | arrow _ _ p => p.isGrouped && Level.assignment ≤ p.level && !p.opensBrace
  | arrowBlock .. => true
  | spread p => p.isGrouped && Level.assignment ≤ p.level

end Phrase

/-- The characters are read as the phrase, and it binds at least as tight as the level. -/
def GroupsAt (level : Nat) (cs : List Char) (p : Phrase) : Prop :=
  ∃ ls, lexemes cs = some ls ∧ Spelled ls p ∧ p.isGrouped = true ∧ level ≤ p.level

/-- The text is an expression, read as the phrase. -/
def GroupsAs (text : String) (p : Phrase) : Prop := GroupsAt Level.assignment text.toList p

/-! ## Levels -/

theorem operatorLevel?_table : (operatorLevels.flatten.all fun op => (operatorLevel? op).all fun k =>
    0 < k && k < Level.unary && k ≤ rightLevel op k && rightLevel op k < Level.unary &&
      rightLevel op k != Level.conditional && k != Level.spread && k != Level.conditional &&
      (k == Level.coalesce) == (op == "??") && (k == Level.power) == (op == "**")) = true := by
  decide

structure OperatorLevel (op : String) (k : Nat) : Prop where
  pos : 0 < k
  lt_unary : k < Level.unary
  le_right : k ≤ rightLevel op k
  right_lt_unary : rightLevel op k < Level.unary
  right_ne : rightLevel op k ≠ Level.conditional
  ne_spread : k ≠ Level.spread
  ne_conditional : k ≠ Level.conditional
  coalesce : k = Level.coalesce ↔ op = "??"
  power : k = Level.power ↔ op = "**"

variable {op : String} {k : Nat} {ls : List Lexeme} {p : Phrase}

theorem operatorLevel (h : operatorLevel? op = some k) : OperatorLevel op k := by
  have hall := List.all_eq_true.mp operatorLevel?_table op (mem_flatten_of_findIdx? h)
  rw [h] at hall
  simp only [Option.all_some, Bool.and_eq_true, decide_eq_true_eq, bne_iff_ne, beq_iff_eq] at hall
  obtain ⟨⟨⟨⟨⟨⟨⟨⟨h1, h2⟩, h3⟩, h4⟩, h5⟩, h6⟩, h7⟩, h8⟩, h9⟩ := hall
  exact ⟨h1, h2, h3, h4, h5, h6, h7, by simpa using Bool.eq_iff_iff.mp h8,
    by simpa using Bool.eq_iff_iff.mp h9⟩

theorem Lexeme.operatorLevel?_of_operator? {l : Lexeme} (h : l.operator? = some (op, k)) :
    operatorLevel? op = some k := by
  cases l with
  | mark m =>
    obtain ⟨j, hj, heq⟩ := Option.map_eq_some_iff.mp h
    cases heq
    exact hj
  | word w =>
    obtain ⟨j, hj, heq⟩ := Option.map_eq_some_iff.mp h
    cases heq
    exact hj
  | _ => cases h

theorem Phrase.level_binary (h : operatorLevel? op = some k) (p q : Phrase) :
    (Phrase.binary op p q).level = k := by
  rw [level, h, Option.getD_some]

theorem Spelled.opensBrace_iff (h : Spelled ls p) :
    p.opensBrace = true ↔ ∃ inner, ls.head? = some (.brace inner) := by
  have hback {ls ks : List Lexeme} {l : Lexeme} (hl : ∀ inner, l ≠ .brace inner) :
      (∃ inner, (ls ++ l :: ks).head? = some (.brace inner)) ↔
        ∃ inner, ls.head? = some (.brace inner) := by
    cases ls with
    | nil => simpa using hl
    | cons k ls => simp
  induction h with
  | member _ _ ih => exact ih.trans (hback (by simp)).symm
  | index _ _ _ ih => exact ih.trans (hback (by simp)).symm
  | call _ _ _ ih => exact ih.trans (hback (by simp)).symm
  | binary hop _ _ ih =>
    refine ih.trans (hback ?_).symm
    rintro inner rfl
    cases hop
  | ternary _ _ _ ih => exact ih.trans (hback (by simp)).symm
  | @unary l op ls p hop =>
    have hl : ∀ inner, l ≠ .brace inner := by
      rintro inner rfl
      cases hop
    simpa [Phrase.opensBrace] using hl
  | arrow isAsync => cases isAsync <;> simp [Phrase.opensBrace, arrowHead]
  | arrowBlock isAsync => cases isAsync <;> simp [Phrase.opensBrace, arrowHead]
  | _ => simp [Phrase.opensBrace]

theorem Spelled.nothing_or (h : Spelled ls p) :
    (ls = [] ∧ p = .nothing) ∨ (ls ≠ [] ∧ Level.comma ≤ p.level) := by
  cases h with
  | nothing => exact .inl ⟨rfl, rfl⟩
  | binary hop =>
    have hk := Lexeme.operatorLevel?_of_operator? hop
    refine .inr ⟨by simp, ?_⟩
    rw [Phrase.level_binary hk]
    exact (operatorLevel hk).pos
  | arrow isAsync => exact .inr ⟨by simp [arrowHead], show Level.comma ≤ Level.assignment by decide⟩
  | arrowBlock isAsync =>
    exact .inr ⟨by simp [arrowHead], show Level.comma ≤ Level.assignment by decide⟩
  | ternary => exact .inr ⟨by simp, show Level.comma ≤ Level.conditional by decide⟩
  | spread => exact .inr ⟨by simp, show Level.comma ≤ Level.spread by decide⟩
  | unary => exact .inr ⟨by simp, show Level.comma ≤ Level.unary by decide⟩
  | _ => exact .inr ⟨by simp, show Level.comma ≤ Level.primary by decide⟩

theorem Spelled.exists_last (h : Spelled ls p) (hgrouped : p.isGrouped = true)
    (hle : Level.comma ≤ p.level) : ∃ l, ls.getLast? = some l ∧ l.isMark = false := by
  have hback {ls ks : List Lexeme} (h : ∃ l, ks.getLast? = some l ∧ l.isMark = false) :
      ∃ l, (ls ++ ks).getLast? = some l ∧ l.isMark = false := by
    obtain ⟨l, hl, hmark⟩ := h
    exact ⟨l, by rw [List.getLast?_append, hl, Option.some_or], hmark⟩
  induction h with
  | nothing => exact absurd hle (show ¬ Level.comma ≤ 0 by decide)
  | word => exact ⟨_, rfl, rfl⟩
  | numeral => exact ⟨_, rfl, rfl⟩
  | literal => exact ⟨_, rfl, rfl⟩
  | object => exact ⟨_, rfl, rfl⟩
  | paren => exact ⟨_, rfl, rfl⟩
  | array => exact ⟨_, rfl, rfl⟩
  | member => exact hback ⟨_, rfl, rfl⟩
  | index => exact hback ⟨_, rfl, rfl⟩
  | call => exact hback ⟨_, rfl, rfl⟩
  | construct => exact ⟨_, rfl, rfl⟩
  | unary _ _ ih =>
    obtain ⟨hp, hle⟩ := Bool.and_eq_true_iff.mp hgrouped
    exact @hback [_] _ (ih hp (Nat.le_trans (by decide) (of_decide_eq_true hle)))
  | @binary l op k ls ks p q hop _ _ _ ihq =>
    have hk := Lexeme.operatorLevel?_of_operator? hop
    have hlevels := operatorLevel hk
    simp only [Phrase.isGrouped, Phrase.fits, hk, Option.any_some, Bool.and_eq_true,
      decide_eq_true_eq] at hgrouped
    obtain ⟨⟨-, hgq⟩, -, hright⟩ := hgrouped
    have hlast := ihq hgq (Nat.le_trans (Nat.le_trans hlevels.pos hlevels.le_right) hright)
    rw [← List.singleton_append, ← List.append_assoc]
    exact hback hlast
  | @ternary ls ks js p q r _ _ _ _ _ ihr =>
    simp only [Phrase.isGrouped, Bool.and_eq_true, decide_eq_true_eq] at hgrouped
    obtain ⟨⟨⟨⟨⟨-, -⟩, hgr⟩, -⟩, -⟩, hno⟩ := hgrouped
    have hlast := ihr hgr (Nat.le_trans (by decide) hno)
    exact hback (@hback [_] _ (hback (@hback [_] _ hlast)))
  | arrow isAsync params _ ih =>
    simp only [Phrase.isGrouped, Bool.and_eq_true, decide_eq_true_eq] at hgrouped
    exact hback (ih hgrouped.1.1 (Nat.le_trans (by decide) hgrouped.1.2))
  | arrowBlock => exact hback ⟨_, rfl, rfl⟩
  | spread _ ih =>
    obtain ⟨hp, hle⟩ := Bool.and_eq_true_iff.mp hgrouped
    exact @hback [_] _ (ih hp (Nat.le_trans (by decide) (of_decide_eq_true hle)))

end RustScript.Js
