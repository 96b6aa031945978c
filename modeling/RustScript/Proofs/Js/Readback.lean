/-
  Code that is read as its own tree.

  The code is read as its own tree (`Expr.IsRead`) if JavaScript finds the same operands in its
  text, which depends on how tight the parts bind. A point needs more, since behind an integer it
  would belong to the numeral (`takesPoint`).
-/
import RustScript.Proofs.Js.PhraseReader

namespace RustScript.Js

open Level (primary assignment comma)

/-! ## Texts that are put together -/

/-- The characters that end the lexeme before them. -/
def separators : List Char := [' ', ',', '(', '[']

namespace GroupsAt

variable {j k : Nat} {cs ds : List Char} {p q : Phrase}

section

variable (h : GroupsAt k cs p)

include h

theorem mono (hle : j ≤ k) : GroupsAt j cs p := by
  obtain ⟨ls, hls, hspelled, hgrouped, hp⟩ := h
  exact ⟨ls, hls, hspelled, hgrouped, Nat.le_trans hle hp⟩

theorem isGrouped : p.isGrouped = true := by
  obtain ⟨_, _, _, hgrouped, _⟩ := h
  exact hgrouped

theorem le_level : k ≤ p.level := by
  obtain ⟨_, _, _, _, hp⟩ := h
  exact hp

theorem exists_lexemes (hk : comma ≤ k) :
    ∃ ls, lexemes cs = some ls ∧ Spelled ls p ∧ ∀ d ∈ separators, ∀ rest,
      lexemes (cs ++ d :: rest) = (lexemes (d :: rest)).map (ls ++ ·) := by
  obtain ⟨ls, hls, hspelled, hgrouped, hp⟩ := h
  obtain ⟨l, hlast, hmark⟩ := hspelled.exists_last hgrouped (Nat.le_trans hk hp)
  refine ⟨ls, hls, hspelled, fun d hd rest => lexemes_append hls hlast hmark fun e he => ?_⟩
  cases he
  simp only [separators, List.mem_cons, List.not_mem_nil, or_false] at hd
  rcases hd with rfl | rfl | rfl | rfl <;> exact Lexeme.endsBefore_of hmark (by decide) (by decide)

theorem closed (hk : comma ≤ k) : Closed cs := by
  obtain ⟨ls, hls, hspelled, hgrouped, hp⟩ := h
  obtain ⟨l, hlast, hmark⟩ := hspelled.exists_last hgrouped (Nat.le_trans hk hp)
  refine closed_of_lexemes hls fun m hm => ?_
  rw [hlast] at hm
  rwa [← Option.some.inj hm]

end

theorem binary {n : Nat} {op : String} {l : Lexeme} {d : Char} {mid : List Char}
    (hp : GroupsAt j cs p) (hj : comma ≤ j) (hq : GroupsAt k ds q)
    (hop : l.operator? = some (op, n)) (hd : d ∈ separators)
    (hmid : ∀ rest, lexemes (d :: (mid ++ rest)) = (lexemes rest).map (l :: ·))
    (hfits : p.fits op q = true) : GroupsAt n (cs ++ d :: (mid ++ ds)) (.binary op p q) := by
  obtain ⟨ls, -, hspelled, hbefore⟩ := hp.exists_lexemes hj
  obtain ⟨ks, hks, hspelledq, hgroupedq, -⟩ := hq
  refine ⟨ls ++ l :: ks, ?_, hspelled.binary hop hspelledq, ?_, ?_⟩
  · rw [hbefore d hd, hmid, hks]
    rfl
  · simp [Phrase.isGrouped, hp.isGrouped, hgroupedq, hfits]
  · rw [Phrase.level_binary (Lexeme.operatorLevel?_of_operator? hop)]

end GroupsAt

theorem lexemes_mark_blank {m : String} (hm : isPunctuator m = true) (rest : List Char) :
    lexemes (m.toList ++ ' ' :: rest) = (lexemes rest).map (.mark m :: ·) := by
  have hall : ∀ k ∈ marks, k.toList.all (· != ' ') = true := by decide
  rw [lexemes_mark hm, lexemes_blank]
  intro d hd
  cases hd
  refine Bool.eq_false_iff.mpr fun hlong => ?_
  obtain ⟨k, hk, hpre⟩ := List.any_eq_true.mp hlong
  have hmem : ' ' ∈ k.toList := (List.isPrefixOf_iff_prefix.mp hpre).subset (by simp)
  exact absurd (List.all_eq_true.mp (hall k hk) ' ' hmem) (by decide)

variable {op m text t : String} {k : Nat} {d c : Char} {cs : List Char} {p : Phrase}
  {ls : List Lexeme} {texts : List (List Char)} {ps : List Phrase}

theorem exists_operator (hk : operatorLevel? op = some k) :
    ∃ l : Lexeme, l.operator? = some (op, k) ∧
      ∀ rest, lexemes (' ' :: (op.toList ++ [' '] ++ rest)) = (lexemes rest).map (l :: ·) := by
  have hall : (operatorLevels.flatten.all fun op => isName op || isPunctuator op) = true := by
    decide
  have hop := List.all_eq_true.mp hall op (mem_flatten_of_findIdx? hk)
  rcases Bool.or_eq_true_iff.mp hop with hname | hmark
  · refine ⟨.word op, by simp [Lexeme.operator?, hk], fun rest => ?_⟩
    rw [lexemes_blank, List.append_assoc, lexemes_word hname, List.singleton_append, lexemes_blank]
    intro d hd
    cases hd
    decide
  · refine ⟨.mark op, by simp [Lexeme.operator?, hk], fun rest => ?_⟩
    rw [lexemes_blank, List.append_assoc, List.singleton_append, lexemes_mark_blank hmark]

theorem isPunctuator_of_mem (h : m ∈ [",", "=>", "?", ":", ".", "..."] ++ prefixOperators) :
    isPunctuator m = true := by
  have hall : ([",", "=>", "?", ":", ".", "..."] ++ prefixOperators).all isPunctuator = true := by
    decide
  exact List.all_eq_true.mp hall m h

/-- The characters with which some mark goes on after these. -/
def prolongers (m : String) : List Char :=
  marks.filterMap fun k => if m.toList.isPrefixOf k.toList then k.toList[m.toList.length]? else none

theorem mem_prolongers (h : prolonged m d = true) : d ∈ prolongers m := by
  obtain ⟨k, hk, hpre⟩ := List.any_eq_true.mp h
  obtain ⟨more, hmore⟩ := List.isPrefixOf_iff_prefix.mp hpre
  refine List.mem_filterMap.mpr ⟨k, hk, ?_⟩
  rw [← hmore, List.append_assoc, if_pos (List.isPrefixOf_iff_prefix.mpr (List.prefix_append ..))]
  simp

theorem prolongers_eq :
    prolongers "-" = ['-', '='] ∧ prolongers "!" = ['=', '='] ∧ prolongers "..." = [] := by
  decide

/-! ## What stands between brackets -/

/-- Phrases with commas between them. -/
def Phrase.row : List Phrase → Phrase
  | [] => .nothing
  | p :: ps => ps.foldl (.binary ",") p

/-- The characters can stand between brackets, read as the phrase. -/
structure Fills (cs : List Char) (p : Phrase) : Prop where
  closed : Closed cs
  exists_spelled : ∃ ls, lexemes cs = some ls ∧ Spelled ls p
  isGrouped : p.isGrouped = true

theorem GroupsAt.fills (h : GroupsAt k cs p) (hk : comma ≤ k) : Fills cs p := by
  refine ⟨h.closed hk, ?_, h.isGrouped⟩
  obtain ⟨ls, hls, hspelled, -, -⟩ := h
  exact ⟨ls, hls, hspelled⟩

theorem GroupsAt.row (h : GroupsAt comma cs p)
    (hrest : List.Forall₂ (GroupsAt Level.spread) texts ps) :
    GroupsAt comma ([',', ' '].intercalate (cs :: texts)) (ps.foldl (.binary ",") p) := by
  induction hrest generalizing cs p with
  | nil => rwa [List.intercalate_singleton]
  | @cons ds q texts ps hq _ ih =>
    have hmid (rest : List Char) :
        lexemes (',' :: ([' '] ++ rest)) = (lexemes rest).map (.mark "," :: ·) :=
      @lexemes_mark_blank "," (isPunctuator_of_mem (by simp)) rest
    have hfits : p.fits "," q = true := by
      have hlevel : operatorLevel? "," = some comma := by decide
      have hright : rightLevel "," comma = Level.spread := by decide
      have hleft : p.goesLeft "," comma = decide (comma ≤ p.level) := rfl
      simp [Phrase.fits, hlevel, hleft, hright, h.le_level, hq.le_level]
    have hboth : GroupsAt comma (cs ++ ',' :: ([' '] ++ ds)) (.binary "," p q) :=
      h.binary (l := .mark ",") (Nat.le_refl _) hq (by decide) (by decide) hmid hfits
    have hrow := ih hboth
    have heq : [',', ' '].intercalate (cs :: ds :: texts) =
        [',', ' '].intercalate ((cs ++ ',' :: ([' '] ++ ds)) :: texts) := by
      cases texts <;> simp [List.intercalate_cons_cons]
    rw [heq]
    exact hrow

theorem fills_row (h : List.Forall₂ (GroupsAt Level.spread) texts ps) :
    Fills ([',', ' '].intercalate texts) (Phrase.row ps) := by
  cases h with
  | nil => exact ⟨Closed.nil, ⟨[], rfl, .nothing⟩, rfl⟩
  | cons hp hrest => exact ((hp.mono (by decide)).row hrest).fills (Nat.le_refl _)

theorem Fills.lexemes_bracket {inner : List Char} (h : Fills inner p)
    (hopen : Layout.closerOf? c = some d) :
    lexemes (c :: (inner ++ [d])) = some [.enclosed (Bracket.of d) inner] := by
  rw [Js.lexemes_bracket h.closed hopen]
  rfl

/-! ## The reading of a text -/

/-- The text is read as an expression. -/
def IsExpr (text : String) : Prop := ∃ p, GroupsAs text p

open Classical in
/-- What the text is read as, if it is an expression. -/
noncomputable def reading (text : String) : Phrase := if h : IsExpr text then h.choose else .nothing

section Reading

variable {text : String} {p : Phrase} {n : Nat}

theorem IsExpr.groupsAs (h : IsExpr text) : GroupsAs text (reading text) := by
  rw [reading, dif_pos h]
  exact h.choose_spec

theorem GroupsAs.reading_eq (h : GroupsAs text p) : reading text = p :=
  (IsExpr.groupsAs ⟨p, h⟩).unique h

theorem isExpr_of_read? (h : read? n text.toList = some p) : IsExpr text := ⟨p, groupsAs_of_read? h⟩

theorem reading_of_read? (h : read? n text.toList = some p) : reading text = p :=
  (groupsAs_of_read? h).reading_eq

theorem GroupsAs.hasSpread (h : GroupsAs text p) : p.hasSpread = false := by
  have hle := h.le_level
  cases p with
  | spread => exact absurd hle (show ¬ assignment ≤ Level.spread by decide)
  | binary op l r =>
    by_cases hop : op = ","
    · subst hop
      exact absurd hle (show ¬ assignment ≤ comma by decide)
    · simp [Phrase.hasSpread, hop]
  | _ => rfl

theorem GroupsAs.isContent (h : GroupsAs text p) : p.isContent = true := by
  have hle : comma ≤ p.level := Nat.le_trans (by decide) h.le_level
  simp [Phrase.isContent, h.hasSpread, hle]

end Reading

/-! ## Points -/

/-- Whether a point behind the text is a lexeme of its own. -/
def takesPoint (text : String) : Bool :=
  lexemes (text.toList ++ ['.']) == (lexemes text.toList).map (· ++ [.mark "."])

example : takesPoint "f(1)" = true ∧ takesPoint "1.5" = true ∧ takesPoint "1" = false := by decide

theorem lt_numeralTail {done : List Char} (h : numeralTail done cs = cs.length)
    (hd : goesOn (cs.reverse ++ done) d = true) (rest : List Char) :
    cs.length < numeralTail done (cs ++ d :: rest) := by
  induction cs generalizing done with
  | nil =>
    rw [List.reverse_nil, List.nil_append] at hd
    rw [List.nil_append, numeralTail, if_pos hd]
    exact Nat.succ_pos _
  | cons c cs ih =>
    rw [numeralTail] at h
    split at h
    · next hc =>
      rw [List.reverse_cons, List.append_assoc] at hd
      rw [List.cons_append, numeralTail, if_pos hc]
      exact Nat.succ_lt_succ (ih (Nat.succ.inj h) hd)
    · cases h

theorem Begins.eq_numeral {x : Option Lexeme} {w : Nat} (h : Begins c cs x w)
    (hdigit : c.isDigit = true) :
    x = some (.numeral (String.ofList (c :: cs.take (numeralTail [c] cs)))) := by
  cases h with
  | numeral => rfl
  | blank hc =>
    subst hc
    exact absurd hdigit (by decide)
  | word hno =>
    rw [hdigit] at hno
    cases hno
  | string hc =>
    subst hc
    exact absurd hdigit (by decide)
  | comment hc =>
    subst hc
    exact absurd hdigit (by decide)
  | bracket hopen =>
    obtain ⟨rfl, -⟩ | ⟨rfl, -⟩ | ⟨rfl, -⟩ | ⟨rfl, -⟩ := Bracket.opened?_cases hopen
    all_goals exact absurd hdigit (by decide)
  | mark hstart => simp [isMarkStart, hdigit] at hstart

theorem Begins.numeral_longer {es rest : List Char} (h : Begins c es (some (.numeral t)) es.length)
    (hd : goesOn t.toList.reverse d = true) (hls : lexemes (c :: (es ++ d :: rest)) = some ls) :
    ∃ u ks, ls = .numeral u :: ks ∧ u ≠ t := by
  generalize hw : es.length = w at h
  generalize hx : some (Lexeme.numeral t) = x at h
  cases h with
  | numeral hdigit hnumeral =>
    rw [← hw, List.take_length] at hx
    obtain rfl : t = _ := Lexeme.numeral.inj (Option.some.inj hx)
    rw [String.toList_ofList, List.reverse_cons] at hd
    have hlonger := lt_numeralTail hw.symm hd rest
    obtain ⟨y, v, ks, hbegins, -, rfl⟩ := exists_begins hls
    rw [hbegins.eq_numeral hdigit]
    refine ⟨_, ks, rfl, fun heq => ?_⟩
    have hlength := congrArg List.length (String.ofList_injective heq)
    rw [List.length_cons, List.length_cons,
      List.length_take_of_le (numeralTail_le [c] _)] at hlength
    omega
  | @bracket b => cases b <;> cases hx
  | _ => cases hx

/-- Before a point a text has the lexemes that it has alone, unless it ends with an integer. -/
theorem point_or {l : Lexeme} (h : lexemes cs = some ls) (hlast : ls.getLast? = some l)
    (hmark : l.isMark = false) :
    (∀ rest, lexemes (cs ++ '.' :: rest) = (lexemes ('.' :: rest)).map (ls ++ ·)) ∨
    ∃ ks t, ls = ks ++ [.numeral t] ∧ ∀ rest js, lexemes (cs ++ '.' :: rest) = some js →
      ∃ u us, js = ks ++ .numeral u :: us ∧ u ≠ t := by
  by_cases hend : l.endsBefore '.' = true
  · refine .inl fun rest => lexemes_append h hlast hmark fun d hd => ?_
    cases hd
    exact hend
  rcases lexemesFrom_split h hlast hmark with hrow | ⟨ks, c, es, rfl, hbegins, hrow⟩
  · exact .inl fun rest => hrow _
  obtain ⟨t, rfl⟩ : ∃ t, l = .numeral t := by
    cases l with
    | numeral t => exact ⟨t, rfl⟩
    | mark => cases hmark
    | _ => exact absurd rfl hend
  refine .inr ⟨ks, t, rfl, fun rest js hjs => ?_⟩
  rw [lexemes, hrow] at hjs
  obtain ⟨ls', hls', rfl⟩ := Option.map_eq_some_iff.mp hjs
  obtain ⟨u, us, rfl, hne⟩ := hbegins.numeral_longer (by simpa [Lexeme.endsBefore] using hend) hls'
  exact ⟨u, us, rfl, hne⟩

theorem takesPoint_iff {l : Lexeme} (h : lexemes text.toList = some ls)
    (hlast : ls.getLast? = some l) (hmark : l.isMark = false) :
    takesPoint text = true ↔
      ∀ rest, lexemes (text.toList ++ '.' :: rest) = (lexemes ('.' :: rest)).map (ls ++ ·) := by
  rw [takesPoint, beq_iff_eq, h, Option.map_some]
  constructor
  · intro hpoint
    rcases point_or h hlast hmark with hrow | ⟨ks, t, rfl, hlonger⟩
    · exact hrow
    · obtain ⟨u, us, heq, hne⟩ := hlonger [] _ hpoint
      rw [List.append_assoc] at heq
      exact absurd (Lexeme.numeral.inj (List.cons.inj (List.append_cancel_left heq)).1).symm hne
  · intro hrow
    rw [hrow []]
    rfl

/-- What is left of a phrase without its members, indices and calls. -/
def Phrase.core : Phrase → Phrase
  | member p _ => p.core
  | index p _ => p.core
  | call p _ => p.core
  | p => p

theorem Spelled.head?_of_core (h : Spelled ls p) (hcore : p.core = .numeral t) :
    ls.head? = some (.numeral t) := by
  induction h with
  | numeral u => rw [Phrase.numeral.inj hcore, List.head?_cons]
  | member _ _ ih => rw [List.head?_append, ih hcore, Option.some_or]
  | index _ _ _ ih => rw [List.head?_append, ih hcore, Option.some_or]
  | call _ _ _ ih => rw [List.head?_append, ih hcore, Option.some_or]
  | _ => cases hcore

theorem Spelled.eq_numeral {ks : List Lexeme} (h : Spelled (ks ++ [.numeral t]) p)
    (hle : primary ≤ p.level) : ks = [] ∧ p = .numeral t := by
  generalize hls : ks ++ [.numeral t] = ls at h
  have hlast : ls.getLast? = some (.numeral t) := by rw [← hls, List.getLast?_concat]
  cases h with
  | numeral u =>
    obtain ⟨rfl, hu⟩ := List.append_eq_singleton_iff.mp hls |>.resolve_right (by simp)
    exact ⟨rfl, by rw [Lexeme.numeral.inj (List.cons.inj hu).1]⟩
  | binary hop =>
    have hk := Lexeme.operatorLevel?_of_operator? hop
    rw [Phrase.level_binary hk] at hle
    have hlt := (operatorLevel hk).lt_unary
    exact absurd (Nat.le_trans hle (Nat.le_of_lt hlt)) (by decide)
  | nothing => cases hlast
  | unary => exact absurd hle (show ¬ primary ≤ Level.unary by decide)
  | ternary => exact absurd hle (show ¬ primary ≤ Level.conditional by decide)
  | arrow => exact absurd hle (show ¬ primary ≤ assignment by decide)
  | arrowBlock => exact absurd hle (show ¬ primary ≤ assignment by decide)
  | spread => exact absurd hle (show ¬ primary ≤ Level.spread by decide)
  | _ => simp at hlast

theorem GroupsAs.takesPoint_of_ne (h : GroupsAs text p) (hprimary : primary ≤ p.level)
    (hne : ∀ t, p ≠ .numeral t) : takesPoint text = true := by
  obtain ⟨ls, hls, hspelled, hgrouped, hle⟩ := h
  obtain ⟨l, hlast, hmark⟩ := hspelled.exists_last hgrouped (Nat.le_trans (by decide) hle)
  rcases point_or hls hlast hmark with hrow | ⟨ks, t, rfl, -⟩
  · exact (takesPoint_iff hls hlast hmark).mpr hrow
  · exact absurd (hspelled.eq_numeral hprimary).2 (hne t)

/-- If what stands before a point is found again in the reading of the whole text, the point did not
    become a part of it. -/
theorem GroupsAs.takesPoint {text rest : String} {p q : Phrase} (hp : GroupsAs text p)
    (hprimary : primary ≤ p.level) (hq : GroupsAs (text ++ "." ++ rest) q)
    (hcore : q.core = p.core) : takesPoint text = true := by
  obtain ⟨ls, hls, hspelled, hgrouped, hle⟩ := hp
  obtain ⟨l, hlast, hmark⟩ := hspelled.exists_last hgrouped (Nat.le_trans (by decide) hle)
  rcases point_or hls hlast hmark with hrow | ⟨ks, t, rfl, hlonger⟩
  · exact (takesPoint_iff hls hlast hmark).mpr hrow
  · obtain ⟨rfl, rfl⟩ := hspelled.eq_numeral hprimary
    obtain ⟨js, hjs, hspelledq, -, -⟩ := hq
    rw [String.toList_append, String.toList_append, List.append_assoc] at hjs
    obtain ⟨u, us, rfl, hne⟩ := hlonger _ _ hjs
    have hhead := hspelledq.head?_of_core hcore
    exact absurd (Lexeme.numeral.inj (Option.some.inj hhead)) hne

/-! ## The forms of expressions -/

namespace GroupsAs

variable {a b inner : String} {p q : Phrase}

theorem fills (h : GroupsAs a p) : Fills a.toList p := GroupsAt.fills h (by decide)

theorem paren (h : GroupsAs a p) : GroupsAs ("(" ++ a ++ ")") (.paren p) := by
  obtain ⟨ls, hls, hspelled⟩ := h.fills.exists_spelled
  refine ⟨[.round a], ?_, .paren hls hspelled, ?_, show assignment ≤ primary by decide⟩
  · have hbracket := h.fills.lexemes_bracket (c := '(') (d := ')') rfl
    simpa [Lexeme.enclosed, Bracket.of] using hbracket
  · simp [Phrase.isGrouped, h.isGrouped, h.isContent]

theorem array (h : Fills inner.toList p) : GroupsAs ("[" ++ inner ++ "]") (.array p) := by
  obtain ⟨ls, hls, hspelled⟩ := h.exists_spelled
  refine ⟨[.square inner], ?_, .array hls hspelled, h.isGrouped,
    show assignment ≤ primary by decide⟩
  have hbracket := h.lexemes_bracket (c := '[') (d := ']') rfl
  simpa [Lexeme.enclosed, Bracket.of] using hbracket

theorem call (hp : GroupsAs a p) (hprimary : primary ≤ p.level)
    (hq : Fills inner.toList q) : GroupsAs (a ++ "(" ++ inner ++ ")") (.call p q) := by
  obtain ⟨ls, -, hspelled, hbefore⟩ := GroupsAt.exists_lexemes hp (by decide)
  obtain ⟨ks, hks, hspelledq⟩ := hq.exists_spelled
  refine ⟨ls ++ [.round inner], ?_, hspelled.call hks hspelledq, ?_,
    show assignment ≤ primary by decide⟩
  · have hbracket := hq.lexemes_bracket (c := '(') (d := ')') rfl
    have htext : (a ++ "(" ++ inner ++ ")").toList = a.toList ++ '(' :: (inner.toList ++ [')']) := by
      simp
    rw [htext, hbefore _ (by decide), hbracket]
    simp [Lexeme.enclosed, Bracket.of]
  · simp [Phrase.isGrouped, hp.isGrouped, hq.isGrouped, hprimary]

theorem index (hp : GroupsAs a p) (hprimary : primary ≤ p.level) (hq : GroupsAs b q) :
    GroupsAs (a ++ "[" ++ b ++ "]") (.index p q) := by
  obtain ⟨ls, -, hspelled, hbefore⟩ := GroupsAt.exists_lexemes hp (by decide)
  obtain ⟨ks, hks, hspelledq⟩ := hq.fills.exists_spelled
  refine ⟨ls ++ [.square b], ?_, hspelled.index hks hspelledq, ?_,
    show assignment ≤ primary by decide⟩
  · have hbracket := hq.fills.lexemes_bracket (c := '[') (d := ']') rfl
    have htext : (a ++ "[" ++ b ++ "]").toList = a.toList ++ '[' :: (b.toList ++ [']']) := by simp
    rw [htext, hbefore _ (by decide), hbracket]
    simp [Lexeme.enclosed, Bracket.of]
  · simp [Phrase.isGrouped, hp.isGrouped, hq.isGrouped, hprimary, hq.isContent]

theorem member (hp : GroupsAs a p) (hprimary : primary ≤ p.level)
    (hpoint : Js.takesPoint a = true) {name : String} (hname : isName name = true) :
    GroupsAs (a ++ "." ++ name) (.member p name) := by
  obtain ⟨ls, hls, hspelled, hgrouped, hle⟩ := hp
  obtain ⟨l, hlast, hmark⟩ := hspelled.exists_last hgrouped (Nat.le_trans (by decide) hle)
  have hbefore := (takesPoint_iff hls hlast hmark).mp hpoint
  have hword : lexemes name.toList = some [.word name] := by
    simpa [lexemesFrom] using @lexemes_word [] name hname (by simp)
  refine ⟨ls ++ [.mark ".", .word name], ?_, hspelled.member hname, ?_,
    show assignment ≤ primary by decide⟩
  · have htext : (a ++ "." ++ name).toList = a.toList ++ '.' :: name.toList := by simp
    have hdot : lexemes ('.' :: name.toList) = some [.mark ".", .word name] := by
      refine (@lexemes_mark name.toList "." (isPunctuator_of_mem (by simp)) fun d hd => ?_).trans ?_
      · exact not_prolonged_word ((isName_chars hname).2 d (List.mem_of_mem_head? hd)) "."
      · rw [hword]
        rfl
    rw [htext, hbefore, hdot]
    rfl
  · simp [Phrase.isGrouped, hgrouped, hprimary]

theorem binary (hk : operatorLevel? op = some k) (hle : assignment ≤ k) (hp : GroupsAs a p)
    (hq : GroupsAs b q) (hfits : p.fits op q = true) :
    GroupsAs (a ++ " " ++ op ++ " " ++ b) (.binary op p q) := by
  obtain ⟨l, hl, hmid⟩ := exists_operator hk
  have htext : (a ++ " " ++ op ++ " " ++ b).toList =
      a.toList ++ ' ' :: (op.toList ++ [' '] ++ b.toList) := by simp
  have hboth := GroupsAt.binary hp (by decide) hq hl (by decide) hmid hfits
  rw [← htext] at hboth
  exact hboth.mono hle

theorem arrow (isAsync : Bool) {params : String} (hparams : Closed params.toList)
    (h : GroupsAs b q) (hbrace : q.opensBrace = false) :
    GroupsAs (asyncText isAsync ++ "(" ++ params ++ ") => " ++ b) (.arrow isAsync params q) := by
  have hlevel := h.le_level
  obtain ⟨ls, hls, hspelled, hgrouped, -⟩ := h
  have hbody : lexemes (' ' :: '=' :: '>' :: ' ' :: b.toList) = some (.mark "=>" :: ls) := by
    rw [lexemes_blank]
    refine (@lexemes_mark_blank "=>" (isPunctuator_of_mem (by simp)) b.toList).trans ?_
    rw [hls]
    rfl
  have hround : lexemes ('(' :: (params.toList ++ ')' :: ' ' :: '=' :: '>' :: ' ' :: b.toList)) =
      some (.round params :: .mark "=>" :: ls) := by
    rw [lexemes_bracket hparams rfl, hbody]
    simp [Lexeme.enclosed, Bracket.of]
  refine ⟨arrowHead isAsync params ++ ls, ?_, hspelled.arrow isAsync params, ?_,
    show assignment ≤ assignment by decide⟩
  · cases isAsync with
    | false =>
      have htext : (asyncText false ++ "(" ++ params ++ ") => " ++ b).toList =
          '(' :: (params.toList ++ ')' :: ' ' :: '=' :: '>' :: ' ' :: b.toList) := by
        simp [asyncText]
      rw [htext, hround]
      rfl
    | true =>
      have htext : (asyncText true ++ "(" ++ params ++ ") => " ++ b).toList = "async".toList ++
          ' ' :: '(' :: (params.toList ++ ')' :: ' ' :: '=' :: '>' :: ' ' :: b.toList) := by
        simp [asyncText]
      rw [htext, lexemes_word (by decide), lexemes_blank, hround]
      · rfl
      · intro d hd
        cases hd
        decide
  · simp [Phrase.isGrouped, hgrouped, hlevel, hbrace]

theorem unary (hop : prefixOperators.contains op = true) (h : GroupsAs a p)
    (hunary : Level.unary ≤ p.level) (hend : ∀ d ∈ a.toList.head?, prolonged op d = false) :
    GroupsAs (op ++ a) (.unary op p) := by
  obtain ⟨ls, hls, hspelled, hgrouped, -⟩ := h
  have hmark := isPunctuator_of_mem (List.mem_append_right _ (List.contains_iff_mem.mp hop))
  refine ⟨.mark op :: ls, ?_, hspelled.unary (Lexeme.unary?_mark hop), ?_,
    show assignment ≤ Level.unary by decide⟩
  · rw [String.toList_append, lexemes_mark hmark hend, hls]
    rfl
  · simp [Phrase.isGrouped, hgrouped, hunary]

theorem spread (h : GroupsAs a p) : GroupsAt Level.spread ("..." ++ a).toList (.spread p) := by
  have hlevel := h.le_level
  obtain ⟨ls, hls, hspelled, hgrouped, -⟩ := h
  refine ⟨.mark "..." :: ls, ?_, hspelled.spread, ?_, Nat.le_refl _⟩
  · rw [String.toList_append, lexemes_mark (isPunctuator_of_mem (by simp)), hls]
    · rfl
    · intro d _
      refine Bool.eq_false_iff.mpr fun hd => ?_
      simpa [prolongers_eq.2.2] using mem_prolongers hd
  · simp [Phrase.isGrouped, hgrouped, hlevel]

theorem note {comment : String} (h : GroupsAs a p)
    (hcomment : lexemes (" /* " ++ comment ++ " */").toList = some []) :
    GroupsAs (a ++ " /* " ++ comment ++ " */") p := by
  obtain ⟨ls, -, hspelled, hbefore⟩ := GroupsAt.exists_lexemes h (by decide)
  refine ⟨ls, ?_, hspelled, h.isGrouped, h.le_level⟩
  have htext : (a ++ " /* " ++ comment ++ " */").toList =
      a.toList ++ ' ' :: ("/* " ++ comment ++ " */").toList := by simp
  have hnone : lexemes (' ' :: ("/* " ++ comment ++ " */").toList) = some [] := by
    simpa using hcomment
  rw [htext, hbefore _ (by decide), hnone, Option.map_some, List.append_nil]

end GroupsAs

theorem Spelled.mem_of_head? (h : Spelled ls p) (hgrouped : p.isGrouped = true)
    (hhead : ls.head? = some (.mark m)) : m ∈ "..." :: prefixOperators := by
  have hfront {ls ks : List Lexeme} {p : Phrase} (h : Spelled ls p) (hle : comma ≤ p.level)
      (hhead : (ls ++ ks).head? = some (.mark m)) : ls.head? = some (.mark m) := by
    rcases h.nothing_or with ⟨-, rfl⟩ | ⟨hne, -⟩
    · exact absurd hle (show ¬ comma ≤ 0 by decide)
    · rwa [List.head?_append_of_ne_nil ls hne] at hhead
  induction h with
  | member hp _ ih =>
    simp only [Phrase.isGrouped, Bool.and_eq_true, decide_eq_true_eq] at hgrouped
    exact ih hgrouped.1 (hfront hp (Nat.le_trans (by decide) hgrouped.2) hhead)
  | index hp _ _ ih =>
    simp only [Phrase.isGrouped, Bool.and_eq_true, decide_eq_true_eq] at hgrouped
    exact ih hgrouped.1.1.1 (hfront hp (Nat.le_trans (by decide) hgrouped.1.2) hhead)
  | call hp _ _ ih =>
    simp only [Phrase.isGrouped, Bool.and_eq_true, decide_eq_true_eq] at hgrouped
    exact ih hgrouped.1.1 (hfront hp (Nat.le_trans (by decide) hgrouped.2) hhead)
  | binary hop hp _ ih =>
    have hk := Lexeme.operatorLevel?_of_operator? hop
    simp only [Phrase.isGrouped, Phrase.fits, hk, Option.any_some, Bool.and_eq_true] at hgrouped
    have hle := Phrase.le_level_of_goesLeft hk hgrouped.2.1
    exact ih hgrouped.1.1 (hfront hp (Nat.le_trans (operatorLevel hk).pos hle) hhead)
  | ternary hp _ _ ih =>
    simp only [Phrase.isGrouped, Bool.and_eq_true, decide_eq_true_eq] at hgrouped
    obtain ⟨⟨⟨⟨⟨hgp, -⟩, -⟩, hle⟩, -⟩, -⟩ := hgrouped
    exact ih hgp (hfront hp (Nat.le_trans (by decide) (Nat.le_of_lt hle)) hhead)
  | @unary l op ls p hop =>
    cases hhead
    simp only [Lexeme.unary?] at hop
    split at hop
    · next hm => exact List.mem_cons_of_mem _ (List.contains_iff_mem.mp hm)
    · cases hop
  | spread =>
    obtain rfl : "..." = m := Lexeme.mark.inj (Option.some.inj hhead)
    exact List.mem_cons_self
  | arrow isAsync => cases isAsync <;> cases hhead
  | arrowBlock isAsync => cases isAsync <;> cases hhead
  | _ => cases hhead

/-- No expression begins with a character that would go on with a sign before it, apart from the
    sign itself. -/
theorem GroupsAs.not_prolonged (h : GroupsAs text p)
    (hop : op = "-" ∧ text.toList.head? ≠ some '-' ∨ op = "!") :
    ∀ d ∈ text.toList.head?, prolonged op d = false := by
  intro d hd
  obtain ⟨ls, hls, hspelled, hgrouped, -⟩ := h
  have hne : d ≠ '=' := by
    rintro rfl
    obtain ⟨cs, hcs⟩ := List.head?_eq_some_iff.mp hd
    rw [hcs] at hls
    obtain ⟨x, w, ks, hbegins, -, rfl⟩ := exists_begins hls
    cases hbegins with
    | @mark m _ _ hm =>
      have hstart : m.toList.isPrefixOf ('=' :: cs) = true := by
        have hfound := List.find?_some hm
        exact hfound
      have hmem := hspelled.mem_of_head? hgrouped rfl
      simp only [prefixOperators, List.mem_cons, List.not_mem_nil, or_false] at hmem
      rcases hmem with rfl | rfl | rfl | rfl | rfl <;> exact absurd hstart (by simp)
    | blank hc => exact absurd hc (by decide)
    | numeral hdigit => exact absurd hdigit (by decide)
    | word _ hword => exact absurd hword (by decide)
    | string hc => exact absurd hc (by decide)
    | comment hc => exact absurd hc (by decide)
    | bracket hopen => exact absurd hopen (by simp [Bracket.opened?])
  refine Bool.eq_false_iff.mpr fun hlong => ?_
  have hmem := mem_prolongers hlong
  rcases hop with ⟨rfl, hminus⟩ | rfl
  · rw [prolongers_eq.1] at hmem
    simp only [List.mem_cons, List.not_mem_nil, or_false] at hmem
    rcases hmem with rfl | rfl
    · exact hminus hd
    · exact hne rfl
  · rw [prolongers_eq.2.1] at hmem
    exact hne (by simpa using hmem)

/-! ## The tree as a phrase -/

mutual

/-- The phrase that the tree stands for. What the tree keeps as text stands for what the text is
    read as. -/
noncomputable def Expr.phrase : Expr → Phrase
  | .atom text => reading text
  | .str value => .literal (Literal.quote value)
  | .template parts => .literal (Expr.template parts).text
  | .paren e => .paren e.phrase
  | .unary op e => .unary op e.phrase
  | .binary op l r => .binary op l.phrase r.phrase
  | .ternary c y n => .paren (.ternary c.phrase y.phrase n.phrase)
  | .call f args => .call f.phrase (Phrase.row (phrases args))
  | .construct type args => .construct type (Phrase.row (phrases args))
  | .member e name => .member e.phrase name
  | .index e i => .index e.phrase i.phrase
  | .array elems => .array (Phrase.row (phrases elems))
  | .object props => .object (" " ++ commas (propTexts props) ++ " ")
  | .arrow _ isAsync params body => .arrow isAsync (paramsText params) body.phrase
  | .arrowBlock _ isAsync params body =>
    .arrowBlock isAsync (paramsText params)
      (String.ofList ((braces (blockLines body)).toList.tail.dropLast))
  | .await e => .paren (.unary "await" e.phrase)
  | .tryUnwrap e => .call (.word "try_unwrap") e.phrase
  | .spread e => .spread e.phrase
  | .note e _ => e.phrase
  | .tests ts => reading (Test.condition ts)

noncomputable def phrases : List Expr → List Phrase
  | [] => []
  | e :: es => e.phrase :: phrases es

end

theorem exprTexts_eq (es : List Expr) : exprTexts es = es.map Expr.text := by
  induction es with
  | nil => rfl
  | cons e es ih => rw [exprTexts, ih, List.map_cons]

theorem phrases_eq (es : List Expr) : phrases es = es.map Expr.phrase := by
  induction es with
  | nil => rfl
  | cons e es ih => rw [phrases, ih, List.map_cons]

namespace Expr

/-- The code is read as its own tree. -/
def IsRead (e : Expr) : Prop := GroupsAs e.text e.phrase

/-- The code can be an argument or element, read as its own tree. -/
def IsArgument (e : Expr) : Prop := GroupsAt Level.spread e.text.toList e.phrase

/-- The code as an operand, of which only the text counts. -/
def leaf (e : Expr) : Expr := .atom e.text

theorem isRead_iff {e : Expr} : e.IsRead ↔ ∀ q, GroupsAs e.text q ↔ q = e.phrase := by
  constructor
  · exact fun h q => ⟨fun hq => hq.unique h, fun hq => hq ▸ h⟩
  · exact fun h => (h _).mpr rfl

theorem IsRead.reading_eq {e : Expr} (h : e.IsRead) : reading e.text = e.phrase :=
  GroupsAs.reading_eq h

theorem isRead_atom (h : IsExpr text) : (atom text).IsRead := by
  rw [IsRead, Expr.text, Expr.phrase]
  exact h.groupsAs

theorem fills_commas {args : List Expr} (h : ∀ a ∈ args, a.IsArgument) :
    Fills (commas (exprTexts args)).toList (Phrase.row (phrases args)) := by
  rw [commas, String.toList_intercalate, exprTexts_eq, phrases_eq, List.map_map]
  refine fills_row ?_
  rw [List.forall₂_map_left_iff, List.forall₂_map_right_iff, List.forall₂_same]
  exact h

namespace IsRead

variable {e f i l r : Expr} {args : List Expr}

theorem isArgument (h : e.IsRead) : e.IsArgument := GroupsAt.mono h (by decide)

theorem isArgument_spread (h : e.IsRead) : (spread e).IsArgument := GroupsAs.spread h

theorem paren (h : e.IsRead) : (paren e).IsRead := GroupsAs.paren h

theorem binary (hk : operatorLevel? op = some k) (hle : assignment ≤ k) (hl : l.IsRead)
    (hr : r.IsRead) (hfits : l.phrase.fits op r.phrase = true) : (binary op l r).IsRead :=
  GroupsAs.binary hk hle hl hr hfits

theorem unary (hop : prefixOperators.contains op = true) (h : e.IsRead)
    (hunary : Level.unary ≤ e.phrase.level)
    (hend : ∀ d ∈ e.text.toList.head?, prolonged op d = false) : (unary op e).IsRead :=
  GroupsAs.unary hop h hunary hend

theorem call (hf : f.IsRead) (hprimary : primary ≤ f.phrase.level)
    (hargs : ∀ a ∈ args, a.IsArgument) : (call f args).IsRead :=
  GroupsAs.call hf hprimary (fills_commas hargs)

theorem member (h : e.IsRead) (hprimary : primary ≤ e.phrase.level)
    (hpoint : takesPoint e.text = true) {name : String} (hname : isName name = true) :
    (member e name).IsRead :=
  GroupsAs.member h hprimary hpoint hname

theorem index (h : e.IsRead) (hprimary : primary ≤ e.phrase.level) (hi : i.IsRead) :
    (index e i).IsRead :=
  GroupsAs.index h hprimary hi

theorem array (h : ∀ a ∈ args, a.IsArgument) : (array args).IsRead :=
  GroupsAs.array (fills_commas h)

theorem arrow (h : e.IsRead) (hbrace : e.phrase.opensBrace = false) (origin : Origin)
    (isAsync : Bool) {params : List Binding} (hparams : Closed (paramsText params).toList) :
    (arrow origin isAsync params e).IsRead :=
  GroupsAs.arrow isAsync hparams h hbrace

end IsRead

end Expr

/-! ## Places of operands -/

/-- Where an operand stands in the code around it. -/
inductive Seat where
  | any
  | left (op : String)
  | right (op : String)
  | signed
  | opened
  | pointed
  deriving DecidableEq

/-- Whether code with the text is one operand in the place. -/
def Seat.Admits (text : String) : Seat → Prop
  | any => True
  | left op => ∃ k, operatorLevel? op = some k ∧ (reading text).goesLeft op k = true
  | right op => ∃ k, operatorLevel? op = some k ∧ rightLevel op k ≤ (reading text).level
  | signed => Level.unary ≤ (reading text).level
  | opened => primary ≤ (reading text).level
  | pointed => primary ≤ (reading text).level ∧ takesPoint text = true

theorem fits_reading_iff (op a b : String) :
    (reading a).fits op (reading b) = true ↔ (Seat.left op).Admits a ∧ (Seat.right op).Admits b := by
  cases hk : operatorLevel? op with
  | none => simp [Phrase.fits, Seat.Admits, hk]
  | some k => simp [Phrase.fits, Seat.Admits, hk]

theorem Seat.admits_right (hk : operatorLevel? op = some k)
    (h : Level.unary ≤ (reading text).level) : (Seat.right op).Admits text :=
  ⟨k, hk, Nat.le_trans (Nat.le_of_lt (operatorLevel hk).right_lt_unary) h⟩

theorem Seat.admits_left (hk : operatorLevel? op = some k) (hne : k ≠ assignment)
    (h : primary ≤ (reading text).level) : (Seat.left op).Admits text := by
  have hle : k ≤ (reading text).level :=
    Nat.le_trans (Nat.le_trans (Nat.le_of_lt (operatorLevel hk).lt_unary) (by decide)) h
  have hor : Level.bitOr ≤ (reading text).level := Nat.le_trans (by decide) h
  refine ⟨k, hk, ?_⟩
  rw [Phrase.goesLeft, if_neg (by simpa using hne)]
  split
  · exact decide_eq_true h
  split
  · simp [hor]
  · exact decide_eq_true hle

end RustScript.Js
