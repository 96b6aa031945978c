/-
  A reader of phrases.

  The reader recurses on a bound and finds all phrases (`GroupsAs.settles`), so that a text is read
  in at most one way (`GroupsAs.unique`). What it finds in a text that is given can be checked
  (`groupsAs_of_read?`).
-/
import RustScript.Proofs.Js.Phrase

namespace RustScript.Js

open Level (primary assignment conditional comma)

/-! ## A reader -/

/-- What follows the mark. -/
def behind? (m : String) : List Lexeme → Option (List Lexeme)
  | .mark k :: ls => if k = m then some ls else none
  | _ => none

/-- The parameters of an arrow function, and its body with what follows. -/
def params? : List Lexeme → Option (String × List Lexeme)
  | .round params :: .mark "=>" :: ls => some (params, ls)
  | _ => none

/-- The type and the arguments of a construction. -/
def constructed? : List Lexeme → Option (String × String × List Lexeme)
  | .word type :: .round inner :: ls => if isName type then some (type, inner, ls) else none
  | _ => none

mutual

/-- A phrase that binds at least as tight as the level, and what follows it. -/
def readPhrase : (bound level : Nat) → List Lexeme → Option (Phrase × List Lexeme)
  | 0, _, _ => none
  | n + 1, level, ls => (readOperand n level ls).bind fun r => readMore n level r.1 r.2

/-- The operators that follow a left operand, as far as they bind tight enough. -/
def readMore : (bound level : Nat) → Phrase → List Lexeme → Option (Phrase × List Lexeme)
  | 0, _, _, _ => none
  | _ + 1, _, left, [] => some (left, [])
  | n + 1, level, left, l :: ls =>
    if l = .mark "?" then
      if level ≤ conditional ∧ conditional < left.level then
        (readPhrase n assignment ls).bind fun yes =>
          (behind? ":" yes.2).bind fun rest =>
            (readPhrase n assignment rest).bind fun no =>
              readMore n level (.ternary left yes.1 no.1) no.2
      else some (left, l :: ls)
    else
      match l.operator? with
      | some (op, k) =>
        if level ≤ k ∧ left.goesLeft op k then
          (readPhrase n (rightLevel op k) ls).bind fun right =>
            readMore n level (.binary op left right.1) right.2
        else some (left, l :: ls)
      | none => some (left, l :: ls)

/-- The first operand; an arrow function or what is spread out only if the level allows it. -/
def readOperand : (bound level : Nat) → List Lexeme → Option (Phrase × List Lexeme)
  | 0, _, _ => none
  | _ + 1, _, [] => none
  | n + 1, _, .numeral text :: ls => readSuffixes n (.numeral text) ls
  | n + 1, _, .literal text :: ls => readSuffixes n (.literal text) ls
  | n + 1, _, .brace inner :: ls => readSuffixes n (.object inner) ls
  | n + 1, _, .square inner :: ls => (readInner n inner).bind fun q => readSuffixes n (.array q) ls
  | n + 1, level, .round inner :: ls =>
    if ls.head? = some (.mark "=>") then
      if level ≤ assignment then readArrow n false inner ls.tail else none
    else
      (readInner n inner).bind fun q => if q.isContent then readSuffixes n (.paren q) ls else none
  | n + 1, level, .word w :: ls =>
    if w = "async" then
      (params? ls).bind fun r => if level ≤ assignment then readArrow n true r.1 r.2 else none
    else if w = "new" then
      (constructed? ls).bind fun r =>
        (readInner n r.2.1).bind fun q => readSuffixes n (.construct r.1 q) r.2.2
    else if wordOperators.contains w then
      (readOperand n Level.unary ls).bind fun r => some (.unary w r.1, r.2)
    else if isPhrase w then readSuffixes n (.word w) ls
    else none
  | n + 1, level, .mark m :: ls =>
    if prefixOperators.contains m then
      (readOperand n Level.unary ls).bind fun r => some (.unary m r.1, r.2)
    else if m = "..." ∧ level ≤ Level.spread then
      (readPhrase n assignment ls).bind fun r => some (.spread r.1, r.2)
    else none

def readArrow : (bound : Nat) → Bool → String → List Lexeme → Option (Phrase × List Lexeme)
  | 0, _, _, _ => none
  | _ + 1, isAsync, params, .brace inner :: ls => some (.arrowBlock isAsync params inner, ls)
  | n + 1, isAsync, params, ls =>
    (readPhrase n assignment ls).bind fun r => some (.arrow isAsync params r.1, r.2)

def readSuffixes : (bound : Nat) → Phrase → List Lexeme → Option (Phrase × List Lexeme)
  | 0, _, _ => none
  | n + 1, p, .mark "." :: .word name :: ls =>
    if isName name then readSuffixes n (.member p name) ls else none
  | n + 1, p, .square inner :: ls =>
    (readInner n inner).bind fun q => if q.isContent then readSuffixes n (.index p q) ls else none
  | n + 1, p, .round inner :: ls => (readInner n inner).bind fun q => readSuffixes n (.call p q) ls
  | _ + 1, p, ls => some (p, ls)

def readInner : (bound : Nat) → String → Option Phrase
  | 0, _ => none
  | n + 1, inner =>
    (lexemes inner.toList).bind fun ls =>
      if ls.isEmpty then some .nothing
      else (readPhrase n comma ls).bind fun r => if r.2.isEmpty then some r.1 else none

end

/-- The phrase that a whole text is read as within a bound. -/
def scan? (bound : Nat) (cs : List Char) : Option Phrase :=
  (lexemes cs).bind fun ls =>
    (readPhrase bound assignment ls).bind fun r => if r.2.isEmpty then some r.1 else none

/-! ## What is found is checked -/

def Lexeme.inner : Lexeme → String
  | round inner => inner
  | square inner => inner
  | _ => ""

/-- What follows the first lexeme, if that is in order. -/
def behindOne (ok : Lexeme → Bool) : List Lexeme → Option (List Lexeme)
  | [] => none
  | l :: ls => if ok l then some ls else none

/-- What follows the lexemes of `head`. -/
def behindHead (head : List Lexeme) (ls : List Lexeme) : Option (List Lexeme) :=
  if head.isPrefixOf ls then some (ls.drop head.length) else none

/-- Whether nothing is left of the text of a bracket. -/
def isInside (behind : List Lexeme → Option (List Lexeme)) (inner : String) : Bool :=
  (lexemes inner.toList).bind behind == some []

/-- What follows the phrase, if the lexemes begin with it. -/
def Phrase.behind : Phrase → List Lexeme → Option (List Lexeme)
  | nothing => some
  | word w => behindOne fun l => l == .word w && isPhrase w
  | numeral text => behindOne (· == .numeral text)
  | literal text => behindOne (· == .literal text)
  | object inner => behindOne (· == .brace inner)
  | paren p => behindOne fun l => l == .round l.inner && isInside p.behind l.inner
  | array p => behindOne fun l => l == .square l.inner && isInside p.behind l.inner
  | member p name =>
    p.behind >=> behindOne (· == .mark ".") >=> behindOne fun l => l == .word name && isName name
  | index p q => p.behind >=> behindOne fun l => l == .square l.inner && isInside q.behind l.inner
  | call p q => p.behind >=> behindOne fun l => l == .round l.inner && isInside q.behind l.inner
  | construct type q =>
    behindOne (· == .word "new") >=> (behindOne fun l => l == .word type && isName type) >=>
      behindOne fun l => l == .round l.inner && isInside q.behind l.inner
  | unary op p => behindOne (·.unary? == some op) >=> p.behind
  | binary op p q => p.behind >=> behindOne (·.operator?.any (·.1 == op)) >=> q.behind
  | ternary p q r =>
    p.behind >=> behindOne (· == .mark "?") >=> q.behind >=> behindOne (· == .mark ":") >=> r.behind
  | arrow isAsync params p => behindHead (arrowHead isAsync params) >=> p.behind
  | arrowBlock isAsync params inner =>
    behindHead (arrowHead isAsync params) >=> behindOne (· == .brace inner)
  | spread p => behindOne (· == .mark "...") >=> p.behind

/-- The phrase that the reader finds, if it stands there and is grouped. -/
def read? (bound : Nat) (cs : List Char) : Option Phrase :=
  (scan? bound cs).filter fun p =>
    (lexemes cs).bind p.behind == some [] && p.isGrouped && assignment ≤ p.level

/-- What the function leaves follows lexemes with the property. -/
def Leaves (S : List Lexeme → Prop) (f : List Lexeme → Option (List Lexeme)) : Prop :=
  ∀ ls rest, f ls = some rest → ∃ ts, ls = ts ++ rest ∧ S ts

namespace Leaves

variable {S T : List Lexeme → Prop} {f g : List Lexeme → Option (List Lexeme)}
  {ok : Lexeme → Bool} {p : Phrase}

theorem one (h : ∀ l, ok l = true → S [l]) : Leaves S (behindOne ok) := by
  rintro (_ | ⟨l, ls⟩) rest hrest
  · cases hrest
  · obtain ⟨hl, rfl⟩ : ok l = true ∧ ls = rest := by simpa [behindOne] using hrest
    exact ⟨[l], rfl, h l hl⟩

theorem andThen (hf : Leaves S f) (hg : ∀ ts, S ts → Leaves (fun us => T (ts ++ us)) g) :
    Leaves T (f >=> g) := by
  intro ls rest h
  obtain ⟨between, hfirst, hsecond⟩ := Option.bind_eq_some_iff.mp h
  obtain ⟨ts, rfl, hts⟩ := hf ls between hfirst
  obtain ⟨us, rfl, hus⟩ := hg ts hts between rest hsecond
  exact ⟨ts ++ us, (List.append_assoc ..).symm, hus⟩

theorem oneThen (h : ∀ l, ok l = true → Leaves (fun us => T (l :: us)) g) :
    Leaves T (behindOne ok >=> g) :=
  (one (S := fun ts => ∃ l, ts = [l] ∧ ok l = true) fun l hl => ⟨l, rfl, hl⟩).andThen
    fun _ ⟨l, hts, hl⟩ => hts ▸ h l hl

theorem mono (h : Leaves S f) (hT : ∀ ts, S ts → T ts) : Leaves T f := by
  intro ls rest hrest
  obtain ⟨ts, hls, hts⟩ := h ls rest hrest
  exact ⟨ts, hls, hT ts hts⟩

theorem eq (m : Lexeme) (h : S [m]) : Leaves S (behindOne (· == m)) :=
  one fun _ hl => beq_iff_eq.mp hl ▸ h

theorem inside (h : Leaves (Spelled · p) p.behind) {l m : Lexeme}
    (hl : (l == m && isInside p.behind l.inner) = true) :
    l = m ∧ ∃ ls, lexemes l.inner.toList = some ls ∧ Spelled ls p := by
  rw [Bool.and_eq_true, beq_iff_eq, isInside, beq_iff_eq, Option.bind_eq_some_iff] at hl
  obtain ⟨hm, ls, hls, hnothing⟩ := hl
  obtain ⟨ts, rfl, hts⟩ := h ls [] hnothing
  exact ⟨hm, ts, by rw [hls, List.append_nil], hts⟩

end Leaves

theorem leaves_behindHead (head : List Lexeme) : Leaves (· = head) (behindHead head) := by
  intro ls rest h
  obtain ⟨hhead, rfl⟩ : head <+: ls ∧ ls.drop head.length = rest := by
    simpa [behindHead, List.isPrefixOf_iff_prefix] using h
  obtain ⟨more, rfl⟩ := hhead
  exact ⟨head, by simp, rfl⟩

theorem leaves_behind (p : Phrase) : Leaves (Spelled · p) p.behind := by
  induction p with
  | nothing => exact fun ls _ h => ⟨[], Option.some.inj h, .nothing⟩
  | word w =>
    refine .one fun l hl => ?_
    obtain ⟨rfl, hw⟩ : l = .word w ∧ isPhrase w = true := by simpa using hl
    exact .word hw
  | numeral text => exact .eq _ (.numeral text)
  | literal text => exact .eq _ (.literal text)
  | object inner => exact .eq _ (.object inner)
  | paren p ih =>
    refine .one fun l hl => ?_
    obtain ⟨hround, ls, hls, hspelled⟩ := ih.inside hl
    exact hround ▸ .paren hls hspelled
  | array p ih =>
    refine .one fun l hl => ?_
    obtain ⟨hsquare, ls, hls, hspelled⟩ := ih.inside hl
    exact hsquare ▸ .array hls hspelled
  | member p name ih =>
    refine ih.andThen fun ts hts => .oneThen fun l hl => .one fun k hk => ?_
    obtain ⟨rfl, hname⟩ : k = .word name ∧ isName name = true := by simpa using hk
    exact beq_iff_eq.mp hl ▸ hts.member hname
  | index p q ihp ihq =>
    refine ihp.andThen fun ts hts => .one fun l hl => ?_
    obtain ⟨hsquare, ls, hls, hspelled⟩ := ihq.inside hl
    exact hsquare ▸ hts.index hls hspelled
  | call p q ihp ihq =>
    refine ihp.andThen fun ts hts => .one fun l hl => ?_
    obtain ⟨hround, ls, hls, hspelled⟩ := ihq.inside hl
    exact hround ▸ hts.call hls hspelled
  | construct type q ih =>
    refine .oneThen fun l hl => .oneThen fun k hk => .one fun m hm => ?_
    obtain ⟨rfl, htype⟩ : k = .word type ∧ isName type = true := by simpa using hk
    obtain ⟨hround, ls, hls, hspelled⟩ := ih.inside hm
    rw [beq_iff_eq.mp hl, hround]
    exact .construct htype hls hspelled
  | unary op p ih => exact .oneThen fun l hl => ih.mono fun ts hts => .unary (beq_iff_eq.mp hl) hts
  | binary op p q ihp ihq =>
    refine ihp.andThen fun ts hts => .oneThen fun l hl => ihq.mono fun us hus => ?_
    obtain ⟨⟨_, k⟩, hop, hname⟩ := (Option.any_eq_true ..).mp hl
    obtain rfl := beq_iff_eq.mp hname
    exact hts.binary hop hus
  | ternary p q r ihp ihq ihr =>
    refine ihp.andThen fun ts hts => .oneThen fun l hl => ihq.andThen fun us hus => .oneThen fun k hk =>
      ihr.mono fun vs hvs => ?_
    rw [beq_iff_eq.mp hl, beq_iff_eq.mp hk]
    exact hts.ternary hus hvs
  | arrow isAsync params p ih =>
    exact (leaves_behindHead _).andThen fun _ hhead => ih.mono fun ts hts => hhead ▸ hts.arrow _ _
  | arrowBlock isAsync params inner =>
    exact (leaves_behindHead _).andThen fun _ hhead => .eq _ (hhead ▸ .arrowBlock _ _ _)
  | spread p ih => exact .oneThen fun l hl => ih.mono fun ts hts => beq_iff_eq.mp hl ▸ hts.spread

theorem groupsAs_of_read? {n : Nat} {text : String} {p : Phrase}
    (h : read? n text.toList = some p) : GroupsAs text p := by
  obtain ⟨-, hp⟩ := Option.filter_eq_some_iff.mp h
  simp only [Bool.and_eq_true, beq_iff_eq, decide_eq_true_eq, Option.bind_eq_some_iff] at hp
  obtain ⟨⟨⟨ls, hls, hnothing⟩, hgrouped⟩, hle⟩ := hp
  obtain ⟨ts, rfl, hspelled⟩ := leaves_behind p ls [] hnothing
  exact ⟨ts, by rw [hls, List.append_nil], hspelled, hgrouped, hle⟩

theorem Lexeme.unary?_mark {m : String} (h : prefixOperators.contains m = true) :
    (Lexeme.mark m).unary? = some m :=
  if_pos h

variable {ls rest : List Lexeme} {l : Lexeme} {op : String} {k : Nat}

/-! ## Every phrase is read -/

/-- Operators of this level or a tighter one belong to the phrase when they follow it. -/
def Phrase.edge : Phrase → Nat
  | binary op _ _ => rightLevel op ((operatorLevel? op).getD 0)
  | ternary .. => assignment
  | arrow .. => assignment
  | spread _ => assignment
  | _ => primary + 1

/-- Whether a lexeme goes on with the value before it. -/
def Lexeme.isSuffix : Lexeme → Bool
  | mark m => m == "." || m == "=>"
  | round _ => true
  | square _ => true
  | _ => false

/-- The level of the operator that a lexeme belongs to, behind its first operand. -/
def Lexeme.level? (l : Lexeme) : Option Nat :=
  if l = .mark "?" then some conditional else l.operator?.map Prod.snd

/-- What follows is neither a suffix nor an operator of the level or a tighter one. -/
def Stops (level : Nat) (rest : List Lexeme) : Prop :=
  ∀ l ∈ rest.head?, l.isSuffix = false ∧ ∀ k ∈ l.level?, k < level

namespace Stops

theorem nil (level : Nat) : Stops level [] := fun _ hl => nomatch hl

theorem mono {j k : Nat} (h : Stops j rest) (hle : j ≤ k) : Stops k rest :=
  fun l hl => ⟨(h l hl).1, fun m hm => Nat.lt_of_lt_of_le ((h l hl).2 m hm) hle⟩

theorem cons {level : Nat} (hl : l.isSuffix = false) (hk : ∀ k ∈ l.level?, k < level)
    (rest : List Lexeme) : Stops level (l :: rest) := by
  intro k hmem
  cases hmem
  exact ⟨hl, hk⟩

theorem colon (level : Nat) (rest : List Lexeme) : Stops level (.mark ":" :: rest) :=
  cons (by decide) (by rw [show (Lexeme.mark ":").level? = none by decide]; simp) rest

end Stops

theorem Lexeme.ne_question (h : l.operator? = some (op, k)) : l ≠ .mark "?" := by
  rintro rfl
  have hnone : (Lexeme.mark "?").operator? = none := by decide
  cases h

theorem Lexeme.level?_of_operator? (h : l.operator? = some (op, k)) : l.level? = some k := by
  rw [level?, if_neg (ne_question h), h]
  rfl

theorem Lexeme.isSuffix_of_operator? (h : l.operator? = some (op, k)) : l.isSuffix = false := by
  cases l with
  | mark m =>
    have hall : (operatorLevels.flatten.all fun m => !(m == "." || m == "=>")) = true := by decide
    obtain ⟨j, hj, -⟩ := Option.map_eq_some_iff.mp h
    simpa [isSuffix] using List.all_eq_true.mp hall m (mem_flatten_of_findIdx? hj)
  | word w => rfl
  | _ => cases h

namespace Phrase

variable {op : String} {k m : Nat} {p : Phrase}

theorem edge_binary (h : operatorLevel? op = some k) (p q : Phrase) :
    (Phrase.binary op p q).edge = rightLevel op k := by
  rw [edge, h, Option.getD_some]

/-- What is above a level is also above the operators that it leaves to others, a conditional apart,
    which leaves the conditionals to its last operand. -/
theorem le_edge (h : m ≤ p.level) (hm : m ≠ conditional) : m ≤ p.edge := by
  cases p with
  | binary op p q =>
    rw [level] at h
    cases hk : operatorLevel? op with
    | none =>
      rw [hk] at h
      exact Nat.le_trans h (Nat.zero_le _)
    | some k =>
      rw [hk] at h
      rw [edge_binary hk]
      exact Nat.le_trans h (operatorLevel hk).le_right
  | ternary p q r =>
    have hlt : m < conditional := Nat.lt_of_le_of_ne h hm
    exact Nat.le_of_lt_succ hlt
  | nothing => exact Nat.le_trans h (Nat.zero_le _)
  | arrow => exact h
  | arrowBlock => exact Nat.le_trans h (show assignment ≤ primary + 1 by decide)
  | spread => exact Nat.le_trans h (show Level.spread ≤ assignment by decide)
  | unary => exact Nat.le_trans h (show Level.unary ≤ primary + 1 by decide)
  | _ => exact Nat.le_succ_of_le h

theorem edge_of_primary (h : primary ≤ p.level) : p.edge = primary + 1 := by
  cases p with
  | binary op p q =>
    rw [level] at h
    cases hk : operatorLevel? op with
    | none =>
      rw [hk] at h
      exact absurd h (by decide)
    | some k =>
      rw [hk] at h
      have hlt := (operatorLevel hk).lt_unary
      exact absurd (Nat.lt_of_le_of_lt h hlt) (by decide)
  | ternary => exact absurd h (show ¬ primary ≤ conditional by decide)
  | arrow => exact absurd h (show ¬ primary ≤ assignment by decide)
  | spread => exact absurd h (show ¬ primary ≤ Level.spread by decide)
  | _ => rfl

theorem primary_of_isTarget (h : p.isTarget = true) : p.level = primary := by
  cases p <;> first | rfl | cases h

/-- What stands on the left of an operator is a value, or the operator goes to the left and is not
    tighter. -/
theorem goesLeft_cases (hk : operatorLevel? op = some k) (h : p.goesLeft op k = true) :
    primary ≤ p.level ∨ k ≠ assignment ∧ op ≠ "**" ∧ k ≤ p.level := by
  unfold goesLeft at h
  split at h
  · exact Or.inl (Nat.le_of_eq (primary_of_isTarget h).symm)
  next hassign =>
  split at h
  · exact Or.inl (of_decide_eq_true h)
  next hpower =>
  refine Or.inr ⟨fun heq => hassign (beq_iff_eq.mpr heq), fun heq => hpower (beq_iff_eq.mpr heq), ?_⟩
  split at h
  · next hop =>
    rcases Bool.or_eq_true_iff.mp h with heq | hle
    · exact Nat.le_of_eq (beq_iff_eq.mp heq).symm
    · refine Nat.le_trans ?_ (of_decide_eq_true hle)
      rw [(operatorLevel hk).coalesce.mpr (beq_iff_eq.mp hop)]
      decide
  · exact of_decide_eq_true h

theorem le_level_of_goesLeft (hk : operatorLevel? op = some k) (h : p.goesLeft op k = true) :
    k ≤ p.level := by
  rcases goesLeft_cases hk h with hprimary | ⟨-, -, hle⟩
  · exact Nat.le_trans (Nat.le_succ_of_le (Nat.le_of_lt (operatorLevel hk).lt_unary)) hprimary
  · exact hle

/-- An operator is not taken for a part of what stands on its left. -/
theorem lt_edge_of_goesLeft (hk : operatorLevel? op = some k) (h : p.goesLeft op k = true) :
    k < p.edge := by
  have hlevels := operatorLevel hk
  have hunary := hlevels.lt_unary
  rcases goesLeft_cases hk h with hprimary | ⟨hassign, hpower, hle⟩
  · rw [edge_of_primary hprimary]
    exact Nat.lt_trans hunary (by decide)
  rcases Nat.lt_or_eq_of_le hle with hlt | hlevel
  · exact le_edge hlt fun hcond => hassign (Nat.succ.inj hcond)
  -- what is left is an operator of the same level, to the left
  cases p with
  | binary op' l r =>
    rw [level] at hlevel
    cases hk' : operatorLevel? op' with
    | none =>
      rw [hk'] at hlevel
      exact absurd hlevel.symm (Nat.ne_of_lt hlevels.pos)
    | some k' =>
      rw [hk'] at hlevel
      obtain rfl : k = k' := hlevel
      have hlevels' := operatorLevel hk'
      have hpow : op' ≠ "**" := fun heq => hpower (hlevels.power.mp (hlevels'.power.mpr heq))
      rw [edge_binary hk', rightLevel, if_neg (by simp [hassign, hpow])]
      split
      · next heq =>
        rw [hlevels'.coalesce.mpr (beq_iff_eq.mp heq)]
        decide
      · exact Nat.lt_succ_self _
  | nothing => exact absurd hlevel.symm (Nat.ne_of_lt hlevels.pos)
  | spread => exact absurd hlevel hlevels.ne_spread
  | ternary => exact absurd hlevel hlevels.ne_conditional
  | arrow => exact absurd hlevel hassign
  | arrowBlock => exact absurd hlevel hassign
  | unary => exact absurd hlevel (Nat.ne_of_lt hunary)
  | _ => exact absurd hlevel (Nat.ne_of_lt (Nat.lt_succ_of_lt hunary))

end Phrase

section Steps

variable {level : Nat} {p q : Phrase} {ls rest : List Lexeme}

theorem settles_readMore_end (h : Stops level rest) (p : Phrase) :
    Settles (readMore · level p rest) (p, rest) := by
  refine .of_answer fun n => ?_
  cases rest with
  | nil => rw [readMore]
  | cons l ls =>
    obtain ⟨-, hk⟩ := h l rfl
    rw [readMore]
    split
    · next hl =>
      subst hl
      have hlt := hk conditional rfl
      rw [if_neg fun hcond => Nat.not_lt_of_le hcond.1 hlt]
    split
    · next op k hop =>
      have hlt := hk k (Lexeme.level?_of_operator? hop)
      rw [if_neg fun hcond => Nat.not_lt_of_le hcond.1 hlt]
    · rfl

theorem settles_readSuffixes_end (h : ∀ l ∈ rest.head?, l.isSuffix = false) (p : Phrase) :
    Settles (readSuffixes · p rest) (p, rest) := by
  refine .of_answer fun n => ?_
  cases rest with
  | nil =>
    rw [readSuffixes]
    all_goals intros; contradiction
  | cons l ls =>
    have hl := h l rfl
    rw [readSuffixes]
    · rintro name ls' heq
      cases heq
      cases hl
    · rintro inner ls' heq
      cases heq
      cases hl
    · rintro inner ls' heq
      cases heq
      cases hl

end Steps

theorem settles_arrowHead {level : Nat} (hlevel : level ≤ assignment) {isAsync : Bool}
    {params : String} {a : Phrase × List Lexeme} (h : Settles (readArrow · isAsync params ls) a) :
    Settles (readOperand · level (arrowHead isAsync params ++ ls)) a := by
  refine h.step fun n => ?_
  cases isAsync with
  | true =>
    simp only [arrowHead, if_true, List.cons_append, List.nil_append]
    rw [readOperand, if_pos rfl, params?, Option.bind_some, if_pos hlevel]
  | false =>
    simp only [arrowHead, Bool.false_eq_true, if_false, List.cons_append, List.nil_append]
    rw [readOperand, List.head?_cons, if_pos rfl, if_pos hlevel, List.tail_cons]

/-- The reader finds the phrase: with the suffixes after it if it can take any, as an operand if it
    is one, and as a phrase that goes on with the looser operators after it. -/
structure Read (ls : List Lexeme) (p : Phrase) : Prop where
  asBase : primary ≤ p.level → ∀ level rest a, rest.head? ≠ some (.mark "=>") →
    Settles (readSuffixes · p rest) a → Settles (readOperand · level (ls ++ rest)) a
  asOperand : Level.unary ≤ p.level → ∀ level rest, (∀ l ∈ rest.head?, l.isSuffix = false) →
    Settles (readOperand · level (ls ++ rest)) (p, rest)
  asPhrase : comma ≤ p.level → ∀ level ≤ p.level, ∀ rest a, Stops p.edge rest →
    Settles (readMore · level p rest) a → Settles (readPhrase · level (ls ++ rest)) a

namespace Read

variable {ls ks js : List Lexeme} {p q r : Phrase} {level : Nat}

theorem phrase_of_operand {a : Phrase × List Lexeme}
    (h : Settles (readOperand · level ls) (p, rest)) (ha : Settles (readMore · level p rest) a) :
    Settles (readPhrase · level ls) a :=
  .step (fun _ => by rw [readPhrase])
    (h.bind (k := fun (r : Phrase × List Lexeme) n => readMore n level r.1 r.2) ha)

theorem of_loose (hlevel : p.level < Level.unary)
    (h : ∀ level ≤ p.level, ∀ rest a, Stops p.edge rest → Settles (readMore · level p rest) a →
      Settles (readPhrase · level (ls ++ rest)) a) : Read ls p where
  asBase hle := absurd (Nat.lt_of_lt_of_le hlevel (Nat.le_of_succ_le hle)) (Nat.lt_irrefl _)
  asOperand hle := absurd (Nat.lt_of_lt_of_le hlevel hle) (Nat.lt_irrefl _)
  asPhrase _ := h

theorem of_operand (hlevel : p.level = Level.unary)
    (h : ∀ level rest, (∀ l ∈ rest.head?, l.isSuffix = false) →
      Settles (readOperand · level (ls ++ rest)) (p, rest)) : Read ls p where
  asBase hle := absurd (hlevel ▸ hle) (by decide)
  asOperand _ := h
  asPhrase _ level _ rest _ hstops ha :=
    phrase_of_operand (h level rest fun l hl => (hstops l hl).1) ha

theorem of_base (h : ∀ level rest a, rest.head? ≠ some (.mark "=>") →
      Settles (readSuffixes · p rest) a → Settles (readOperand · level (ls ++ rest)) a) : Read ls p := by
  have hoperand (level : Nat) (rest : List Lexeme) (hrest : ∀ l ∈ rest.head?, l.isSuffix = false) :
      Settles (readOperand · level (ls ++ rest)) (p, rest) := by
    refine h level rest _ (fun hhead => ?_) (settles_readSuffixes_end hrest p)
    exact absurd (hrest _ hhead) (by decide)
  exact {
    asBase := fun _ => h
    asOperand := fun _ => hoperand
    asPhrase := fun _ level _ rest _ hstops ha =>
      phrase_of_operand (hoperand level rest fun l hl => (hstops l hl).1) ha }

theorem whole (h : Read ls p) (hcomma : comma ≤ level) (hle : level ≤ p.level)
    (hne : level ≠ conditional) (hrest : Stops level rest) :
    Settles (readPhrase · level (ls ++ rest)) (p, rest) :=
  h.asPhrase (Nat.le_trans hcomma hle) level hle rest _ (hrest.mono (Phrase.le_edge hle hne))
    (settles_readMore_end hrest p)

theorem inner (h : Read ls p) (hspelled : Spelled ls p) {text : String}
    (hlexemes : lexemes text.toList = some ls) : Settles (readInner · text) p := by
  rcases hspelled.nothing_or with ⟨rfl, rfl⟩ | ⟨hne, hle⟩
  · refine .of_answer fun n => ?_
    rw [readInner, hlexemes]
    rfl
  · have hread := h.whole (Nat.le_refl _) hle (by decide) (Stops.nil _)
    refine .step (fun n => ?_) (hread.bind (k := fun r _ => if r.2.isEmpty then some r.1 else none)
      ⟨0, fun _ _ => rfl⟩)
    rw [readInner, hlexemes, Option.bind_some, if_neg (by simpa using hne), List.append_nil]

variable {inner : String}

theorem paren (h : Settles (readInner · inner) q) (hcontent : q.isContent = true) :
    Read [.round inner] (.paren q) := by
  refine .of_base fun level rest a hrest ha => ?_
  refine .step (fun n => ?_) (h.bind (k := fun q n =>
    if q.isContent then readSuffixes n (.paren q) rest else none) ?_)
  · rw [List.singleton_append, readOperand, if_neg hrest]
  · simpa [hcontent] using ha

theorem array (h : Settles (readInner · inner) q) : Read [.square inner] (.array q) := by
  refine .of_base fun level rest a _ ha => ?_
  refine .step (fun n => ?_) (h.bind (k := fun q n => readSuffixes n (.array q) rest) ha)
  rw [List.singleton_append, readOperand]

theorem member (h : Read ls p) (hle : primary ≤ p.level) {name : String}
    (hname : isName name = true) : Read (ls ++ [.mark ".", .word name]) (.member p name) := by
  refine .of_base fun level rest a _ ha => ?_
  rw [List.append_assoc]
  refine h.asBase hle level _ a (by simp) (.step (fun n => ?_) ha)
  exact if_pos hname

theorem index (h : Read ls p) (hle : primary ≤ p.level) (hq : Settles (readInner · inner) q)
    (hcontent : q.isContent = true) : Read (ls ++ [.square inner]) (.index p q) := by
  refine .of_base fun level rest a _ ha => ?_
  rw [List.append_assoc]
  refine h.asBase hle level _ a (by simp) (.step (fun n => ?_) (hq.bind (k := fun q n =>
    if q.isContent then readSuffixes n (.index p q) rest else none) ?_))
  · rw [List.singleton_append, readSuffixes]
  · simpa [hcontent] using ha

theorem call (h : Read ls p) (hle : primary ≤ p.level) (hq : Settles (readInner · inner) q) :
    Read (ls ++ [.round inner]) (.call p q) := by
  refine .of_base fun level rest a _ ha => ?_
  rw [List.append_assoc]
  refine h.asBase hle level _ a (by simp) (.step (fun n => ?_)
    (hq.bind (k := fun q n => readSuffixes n (.call p q) rest) ha))
  rw [List.singleton_append, readSuffixes]

theorem construct {type : String} (htype : isName type = true)
    (hq : Settles (readInner · inner) q) :
    Read [.word "new", .word type, .round inner] (.construct type q) := by
  refine .of_base fun level rest a _ ha => .step (fun n => ?_)
    (hq.bind (k := fun q n => readSuffixes n (.construct type q) rest) ha)
  simp only [List.cons_append, List.nil_append]
  rw [readOperand, if_neg (by decide), if_pos rfl, constructed?, if_pos htype]
  rfl

theorem unary (hop : l.unary? = some op) (h : Read ls p) (hle : Level.unary ≤ p.level) :
    Read (l :: ls) (.unary op p) := by
  have hword : (wordOperators.all fun w => w != "async" && w != "new") = true := by decide
  refine .of_operand rfl fun level rest hrest => .step (fun n => ?_)
    ((h.asOperand hle Level.unary rest hrest).bind (k := fun r _ => some (.unary op r.1, r.2))
      ⟨0, fun _ _ => rfl⟩)
  rw [List.cons_append]
  cases l with
  | mark m =>
    obtain ⟨hm, rfl⟩ : prefixOperators.contains m = true ∧ m = op := by
      simpa [Lexeme.unary?] using hop
    rw [readOperand, if_pos hm]
  | word w =>
    obtain ⟨hw, rfl⟩ : wordOperators.contains w = true ∧ w = op := by
      simpa [Lexeme.unary?] using hop
    have hne := List.all_eq_true.mp hword w (List.contains_iff_mem.mp hw)
    simp only [Bool.and_eq_true, bne_iff_ne] at hne
    rw [readOperand, if_neg hne.1, if_neg hne.2, if_pos hw]
  | _ => cases hop

/-- The left operand is read first, and what goes on from it takes the operator. The right operand
    is read so tight that it leaves what follows to the operation. -/
theorem binary (hop : l.operator? = some (op, k)) (hp : Read ls p) (hq : Read ks q)
    (hleft : p.goesLeft op k = true) (hright : rightLevel op k ≤ q.level) :
    Read (ls ++ l :: ks) (.binary op p q) := by
  have hk := Lexeme.operatorLevel?_of_operator? hop
  have hlevels := operatorLevel hk
  have hlevel : (Phrase.binary op p q).level = k := Phrase.level_binary hk p q
  refine .of_loose (hlevel ▸ hlevels.lt_unary) fun level hle rest a hrest ha => ?_
  rw [hlevel] at hle
  rw [Phrase.edge_binary hk] at hrest
  have hedge := Phrase.lt_edge_of_goesLeft hk hleft
  have hstops : Stops p.edge (l :: (ks ++ rest)) := by
    refine .cons (Lexeme.isSuffix_of_operator? hop) ?_ _
    rw [Lexeme.level?_of_operator? hop]
    intro j hj
    rwa [← Option.some.inj hj]
  have hreadq := hq.whole (Nat.le_trans hlevels.pos hlevels.le_right) hright hlevels.right_ne hrest
  have hple : k ≤ p.level := Phrase.le_level_of_goesLeft hk hleft
  rw [List.append_assoc, List.cons_append]
  refine hp.asPhrase (Nat.le_trans hlevels.pos hple) level (Nat.le_trans hle hple) _ a hstops
    (.step (fun n => ?_) (hreadq.bind (k := fun r n => readMore n level (.binary op p r.1) r.2) ha))
  rw [readMore, if_neg (Lexeme.ne_question hop), hop]
  exact if_pos ⟨hle, hleft⟩

theorem ternary (hp : Read ls p) (hq : Read ks q) (hr : Read js r)
    (hcond : conditional < p.level) (hyes : assignment ≤ q.level) (hno : assignment ≤ r.level) :
    Read (ls ++ .mark "?" :: (ks ++ .mark ":" :: js)) (.ternary p q r) := by
  refine .of_loose (show conditional < Level.unary by decide)
    fun level hle rest a hrest ha => ?_
  have hedge : conditional < p.edge := Phrase.le_edge hcond (by decide)
  have hstops : Stops p.edge (.mark "?" :: (ks ++ .mark ":" :: (js ++ rest))) := by
    refine .cons (by decide) (fun j hj => ?_) _
    rwa [← Option.some.inj hj]
  have hreadq := hq.whole (by decide) hyes (by decide) (Stops.colon _ (js ++ rest))
  have hreadr := hr.whole (by decide) hno (by decide) hrest
  have hafter := hreadr.bind (k := fun s n => readMore n level (.ternary p q s.1) s.2) ha
  rw [List.append_assoc, List.cons_append, List.append_assoc, List.cons_append]
  refine hp.asPhrase (Nat.le_trans (by decide) hcond) level
    (Nat.le_trans hle (Nat.le_of_lt hcond)) _ a hstops (.step (fun n => ?_)
      (hreadq.bind (k := fun (s : Phrase × List Lexeme) n => (behind? ":" s.2).bind fun rest =>
        (readPhrase n assignment rest).bind fun no =>
          readMore n level (.ternary p s.1 no.1) no.2) ?_))
  · rw [readMore, if_pos rfl, if_pos ⟨hle, hcond⟩]
  · simpa [behind?] using hafter

theorem arrow (isAsync : Bool) (params : String) (h : Read ls p) (hspelled : Spelled ls p)
    (hle : assignment ≤ p.level) (hopens : p.opensBrace = false) :
    Read (arrowHead isAsync params ++ ls) (.arrow isAsync params p) := by
  refine .of_loose (show assignment < Level.unary by decide)
    fun level hlevel rest a hrest ha => ?_
  have hread := h.whole (by decide) hle (by decide) hrest
  have hbody : Settles (readArrow · isAsync params (ls ++ rest))
      (.arrow isAsync params p, rest) := by
    refine .step (fun n => ?_) (hread.bind (k := fun r _ =>
      some (.arrow isAsync params r.1, r.2)) ⟨0, fun _ _ => rfl⟩)
    rw [readArrow]
    rintro inner ls' heq
    have hne : ls ≠ [] := by
      rintro rfl
      rcases hspelled.nothing_or with ⟨-, rfl⟩ | ⟨hne, -⟩
      · exact absurd hle (by decide)
      · exact hne rfl
    have hhead : ls.head? = some (.brace inner) := by
      rw [← List.head?_append_of_ne_nil ls hne, heq]
      rfl
    rw [hspelled.opensBrace_iff.mpr ⟨inner, hhead⟩] at hopens
    cases hopens
  rw [List.append_assoc]
  exact phrase_of_operand (settles_arrowHead hlevel hbody) ha

theorem arrowBlock (isAsync : Bool) (params inner : String) :
    Read (arrowHead isAsync params ++ [.brace inner]) (.arrowBlock isAsync params inner) := by
  refine .of_loose (show assignment < Level.unary by decide)
    fun level hlevel rest a _ ha => ?_
  have hbody : Settles (readArrow · isAsync params (.brace inner :: rest))
      (.arrowBlock isAsync params inner, rest) := .of_answer fun n => by rw [readArrow]
  rw [List.append_assoc, List.singleton_append]
  exact phrase_of_operand (settles_arrowHead hlevel hbody) ha

theorem spread (h : Read ls p) (hle : assignment ≤ p.level) :
    Read (.mark "..." :: ls) (.spread p) := by
  refine .of_loose (show Level.spread < Level.unary by decide)
    fun level hlevel rest a hrest ha => ?_
  have hread := h.whole (by decide) hle (by decide) hrest
  have hoperand : Settles (readOperand · level (.mark "..." :: (ls ++ rest)))
      (.spread p, rest) := by
    refine .step (fun n => ?_) (hread.bind
      (k := fun (r : Phrase × List Lexeme) _ => some (.spread r.1, r.2)) ⟨0, fun _ _ => rfl⟩)
    rw [readOperand, if_neg (by decide), if_pos ⟨rfl, hlevel⟩]
  exact phrase_of_operand hoperand ha

end Read

theorem ne_of_isPhrase {w : String} (h : isPhrase w = true) :
    w ≠ "async" ∧ w ≠ "new" ∧ wordOperators.contains w = false := by
  have hall : (("async" :: "new" :: wordOperators).all fun w => !isPhrase w) = true := by decide
  have hno : w ∉ "async" :: "new" :: wordOperators := by
    intro hmem
    have hw := List.all_eq_true.mp hall w hmem
    rw [h] at hw
    cases hw
  simpa using hno

/-- The reader finds every phrase that is grouped. By induction on how it is spelled. -/
theorem Spelled.read {p : Phrase} (h : Spelled ls p) (hgrouped : p.isGrouped = true) :
    Read ls p := by
  induction h with
  | nothing =>
    constructor
    · exact fun hle => absurd hle (show ¬ primary ≤ 0 by decide)
    · exact fun hle => absurd hle (show ¬ Level.unary ≤ 0 by decide)
    · exact fun hle => absurd hle (show ¬ comma ≤ 0 by decide)
  | word hw =>
    obtain ⟨hasync, hnew, hop⟩ := ne_of_isPhrase hw
    refine .of_base fun level rest a _ ha => ha.step fun n => ?_
    rw [List.singleton_append, readOperand, if_neg hasync, if_neg hnew, hop, if_neg (by decide),
      if_pos hw]
  | numeral =>
    refine .of_base fun level rest a _ ha => ha.step fun n => ?_
    rw [List.singleton_append, readOperand]
  | literal =>
    refine .of_base fun level rest a _ ha => ha.step fun n => ?_
    rw [List.singleton_append, readOperand]
  | object =>
    refine .of_base fun level rest a _ ha => ha.step fun n => ?_
    rw [List.singleton_append, readOperand]
  | paren hls hspelled ih =>
    obtain ⟨hp, hcontent⟩ := Bool.and_eq_true_iff.mp hgrouped
    exact .paren ((ih hp).inner hspelled hls) hcontent
  | array hls hspelled ih => exact .array ((ih hgrouped).inner hspelled hls)
  | member _ hname ih =>
    obtain ⟨hp, hle⟩ := Bool.and_eq_true_iff.mp hgrouped
    exact (ih hp).member (of_decide_eq_true hle) hname
  | index _ hks hq ihp ihq =>
    simp only [Phrase.isGrouped, Bool.and_eq_true, decide_eq_true_eq] at hgrouped
    obtain ⟨⟨⟨hgp, hgq⟩, hle⟩, hcontent⟩ := hgrouped
    exact (ihp hgp).index hle ((ihq hgq).inner hq hks) hcontent
  | call _ hks hq ihp ihq =>
    simp only [Phrase.isGrouped, Bool.and_eq_true, decide_eq_true_eq] at hgrouped
    obtain ⟨⟨hgp, hgq⟩, hle⟩ := hgrouped
    exact (ihp hgp).call hle ((ihq hgq).inner hq hks)
  | construct htype hks hq ih => exact .construct htype ((ih hgrouped).inner hq hks)
  | unary hop _ ih =>
    obtain ⟨hp, hle⟩ := Bool.and_eq_true_iff.mp hgrouped
    exact (ih hp).unary hop (of_decide_eq_true hle)
  | binary hop _ _ ihp ihq =>
    have hk := Lexeme.operatorLevel?_of_operator? hop
    simp only [Phrase.isGrouped, Phrase.fits, hk, Option.any_some, Bool.and_eq_true,
      decide_eq_true_eq] at hgrouped
    obtain ⟨⟨hgp, hgq⟩, hleft, hright⟩ := hgrouped
    exact .binary hop (ihp hgp) (ihq hgq) hleft hright
  | ternary _ _ _ ihp ihq ihr =>
    simp only [Phrase.isGrouped, Bool.and_eq_true, decide_eq_true_eq] at hgrouped
    obtain ⟨⟨⟨⟨⟨hgp, hgq⟩, hgr⟩, hcond⟩, hyes⟩, hno⟩ := hgrouped
    exact .ternary (ihp hgp) (ihq hgq) (ihr hgr) hcond hyes hno
  | arrow isAsync params hspelled ih =>
    simp only [Phrase.isGrouped, Bool.and_eq_true, decide_eq_true_eq, Bool.not_eq_true'] at hgrouped
    obtain ⟨⟨hp, hle⟩, hopens⟩ := hgrouped
    exact .arrow isAsync params (ih hp) hspelled hle hopens
  | arrowBlock isAsync params inner => exact .arrowBlock isAsync params inner
  | spread _ ih =>
    obtain ⟨hp, hle⟩ := Bool.and_eq_true_iff.mp hgrouped
    exact (ih hp).spread (of_decide_eq_true hle)

namespace GroupsAs

variable {text : String} {p q : Phrase}

theorem settles (h : GroupsAs text p) : Settles (scan? · text.toList) p := by
  obtain ⟨ls, hls, hspelled, hgrouped, hle⟩ := h
  have hread := (hspelled.read hgrouped).whole (by decide) hle (by decide) (Stops.nil _)
  have hwhole := hread.bind (k := fun r _ => if r.2.isEmpty then some r.1 else none)
    ⟨0, fun _ _ => rfl⟩
  simp only [scan?, hls, Option.bind_some]
  rwa [List.append_nil] at hwhole

/-- A text is read in one way. -/
theorem unique (hp : GroupsAs text p) (hq : GroupsAs text q) : p = q := hp.settles.unique hq.settles

end GroupsAs

end RustScript.Js
