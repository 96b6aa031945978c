/-
  Escapes in one pass.

  The escapes are put in by one replacement after the other. None touches what an earlier one has
  put in: backslashes are doubled first, and no later escape holds a character that is still to be
  replaced. So the text is the one that a single pass gives, with an eye on `${` in a template.
-/
import RustScript.Literal.Escape

namespace RustScript.Literal

/-! ## One pass -/

/-- The escape of a character that both kinds of literal write in the same way. -/
def escapeShared (c : Char) : List Char :=
  if c == '\\' then ['\\', '\\']
  else if c == '\n' then ['\\', 'n']
  else if c == '\r' then ['\\', 'r']
  else if c == '\t' then ['\\', 't']
  else if c == '\x00' then ['\\', 'x', '0', '0']
  else if c.toNat == 0x2028 then ['\\', 'u', '2', '0', '2', '8']
  else if c.toNat == 0x2029 then ['\\', 'u', '2', '0', '2', '9']
  else [c]

/-- A character has an escape of its own, or it stands for itself and is neither a backslash nor a
    line end. -/
theorem escapeShared_cases (c : Char) :
    (c = '\\' ∨ c = '\n' ∨ c = '\r' ∨ c = '\t' ∨ c = '\x00' ∨ c = .ofNat 0x2028 ∨
      c = .ofNat 0x2029) ∨
    escapeShared c = [c] ∧ c ≠ '\\' ∧ c ≠ '\n' ∧ c ≠ '\r' ∧ c.toNat ≠ 0x2028 ∧ c.toNat ≠ 0x2029 := by
  have hchar (n : Nat) (h : c.toNat = n) : c = .ofNat n := by rw [← h, Char.ofNat_toNat]
  have hline := hchar 0x2028
  have hparagraph := hchar 0x2029
  grind [escapeShared]

def escapeStringChar (c : Char) : List Char := if c == '"' then ['\\', '"'] else escapeShared c

def escapeTemplateChar (c : Char) : List Char :=
  if c.toNat == 0x60 then ['\\', c] else escapeShared c

/-- The characters as they stand in a string literal. -/
def escapeStringChars (cs : List Char) : List Char := cs.flatMap escapeStringChar

/-- The characters as they stand in a template literal. -/
def escapeTemplateChars : List Char → List Char
  | [] => []
  | '$' :: '\x7b' :: cs => '\\' :: '$' :: '\x7b' :: escapeTemplateChars cs
  | c :: cs => escapeTemplateChar c ++ escapeTemplateChars cs

/-! ## Replacements of single characters -/

theorem replaceFrom_single (old : Char) (new cs : List Char) :
    replaceFrom [old] new 0 cs = cs.flatMap fun c => if old = c then new else [c] := by
  induction cs with
  | nil => rfl
  | cons c cs ih =>
    rw [List.flatMap_cons, ← ih, replaceFrom]
    by_cases hc : old = c <;> simp [hc]

/-- Each replacement is one of a single character. -/
def AreSingle (steps : List (String × String)) : Prop := ∀ step ∈ steps, step.1.toList.length = 1

section Single

variable {steps : List (String × String)} (h : AreSingle steps)
include h

theorem replaceInTurn_append (cs ds : List Char) :
    replaceInTurn steps (cs ++ ds) = replaceInTurn steps cs ++ replaceInTurn steps ds := by
  induction steps generalizing cs ds with
  | nil => rfl
  | cons step steps ih =>
    obtain ⟨hstep, hsteps⟩ := List.forall_mem_cons.mp h
    obtain ⟨old, hold⟩ := List.length_eq_one_iff.mp hstep
    have hsplit : replaceFrom step.1.toList step.2.toList 0 (cs ++ ds) =
        replaceFrom step.1.toList step.2.toList 0 cs ++
          replaceFrom step.1.toList step.2.toList 0 ds := by
      simp only [hold, replaceFrom_single, List.flatMap_append]
    exact (congrArg _ hsplit).trans (ih hsteps _ _)

theorem replaceInTurn_cons (c : Char) (cs : List Char) :
    replaceInTurn steps (c :: cs) = replaceInTurn steps [c] ++ replaceInTurn steps cs :=
  replaceInTurn_append h [c] cs

theorem replaceInTurn_singleton {c : Char} (hne : ∀ step ∈ steps, step.1.toList ≠ [c]) :
    replaceInTurn steps [c] = [c] := by
  induction steps with
  | nil => rfl
  | cons step steps ih =>
    obtain ⟨hstep, hsteps⟩ := List.forall_mem_cons.mp h
    obtain ⟨hc, hne⟩ := List.forall_mem_cons.mp hne
    obtain ⟨old, hold⟩ := List.length_eq_one_iff.mp hstep
    have hkept : replaceFrom step.1.toList step.2.toList 0 [c] = [c] := by
      have hold' : old ≠ c := fun heq => hc (heq ▸ hold)
      simp [hold, replaceFrom_single, hold']
    exact (congrArg _ hkept).trans (ih hsteps hne)

end Single

theorem areSingle_controlSteps : AreSingle controlSteps := by
  unfold AreSingle
  decide

theorem replaceInTurn_controlSteps {c : Char} (hback : c ≠ '\\') :
    replaceInTurn controlSteps [c] = escapeShared c := by
  rcases escapeShared_cases c with hspecial | ⟨hself, -⟩
  · rcases hspecial with rfl | rfl | rfl | rfl | rfl | rfl | rfl
    · exact absurd rfl hback
    all_goals rfl
  · have hne (d : Char) (hd : escapeShared d ≠ [d]) : [d] ≠ [c] := fun heq =>
      hd (by rw [(List.cons.inj heq).1, hself])
    rw [hself]
    refine replaceInTurn_singleton areSingle_controlSteps ?_
    simp only [controlSteps, List.forall_mem_cons]
    exact ⟨hne _ (by decide), hne _ (by decide), hne _ (by decide), hne _ (by decide),
      hne _ (by decide), hne _ (by decide), List.forall_mem_nil _⟩

section Quotes

variable {quote : String} {q : Char} (hquote : quote.toList = [q])
include hquote

theorem areSingle_quoteSteps : AreSingle (quoteSteps quote) := by
  simp [AreSingle, quoteSteps, hquote]

/-- A backslash and a quote get a backslash in front, and all else stays. -/
theorem replaceInTurn_quoteSteps (hq : q ≠ '\\') (c : Char) :
    (c = '\\' ∨ c = q) ∧ replaceInTurn (quoteSteps quote) [c] = ['\\', c] ∨
      (c ≠ '\\' ∧ c ≠ q) ∧ replaceInTurn (quoteSteps quote) [c] = [c] := by
  have hboth : replaceInTurn (quoteSteps quote) [c] =
      (if '\\' = c then ['\\', '\\'] else [c]).flatMap fun d => if q = d then ['\\', q] else [d] := by
    simp [replaceInTurn, quoteSteps, hquote, replaceFrom_single]
  by_cases hback : '\\' = c
  · subst hback
    exact .inl ⟨.inl rfl, by simpa [hq] using hboth⟩
  by_cases hc : q = c
  · subst hc
    exact .inl ⟨.inr rfl, by simpa [hback] using hboth⟩
  · exact .inr ⟨⟨Ne.symm hback, Ne.symm hc⟩, by simpa [hback, hc] using hboth⟩

end Quotes

theorem replaceInTurn_stringSteps (cs : List Char) :
    replaceInTurn stringSteps cs = escapeStringChars cs := by
  have hquotes := @replaceInTurn_quoteSteps "\"" '"' rfl (by decide)
  change replaceInTurn controlSteps (replaceInTurn (quoteSteps "\"") cs) = _
  induction cs with
  | nil => rfl
  | cons c cs ih =>
    rw [replaceInTurn_cons (areSingle_quoteSteps rfl), replaceInTurn_append areSingle_controlSteps, ih]
    refine congrArg (· ++ _) ?_
    rcases hquotes c with ⟨rfl | rfl, -⟩ | ⟨⟨hback, hquote⟩, hself⟩
    · rfl
    · rfl
    · rw [hself, replaceInTurn_controlSteps hback, escapeStringChar, if_neg (by simpa using hquote)]

/-! ## The opening of a substitution -/

/-- The last replacement of a template. -/
def escapeDollar (cs : List Char) : List Char := replaceFrom ['$', '\x7b'] ['\\', '$', '\x7b'] 0 cs

theorem escapeDollar_cons {c : Char} {cs : List Char}
    (h : c = '$' → cs.head? ≠ some '\x7b') : escapeDollar (c :: cs) = c :: escapeDollar cs := by
  rw [escapeDollar, replaceFrom, if_neg, escapeDollar]
  cases cs with
  | nil => simp
  | cons d cs =>
    have hd (hc : c = '$') : d ≠ '\x7b' := fun heq => h hc (congrArg some heq)
    simpa using fun hc hbrace => hd hc.symm hbrace.symm

theorem head?_replaceInTurn_quoteSteps {cs : List Char}
    (h : (replaceInTurn (quoteSteps "`") cs).head? = some '\x7b') : cs.head? = some '\x7b' := by
  cases cs with
  | nil => exact h
  | cons c cs =>
    rw [replaceInTurn_cons (areSingle_quoteSteps rfl)] at h
    rcases @replaceInTurn_quoteSteps "`" (.ofNat 0x60) rfl (by decide) c with ⟨-, hc⟩ | ⟨-, hc⟩
    · rw [hc] at h
      exact absurd (Option.some.inj h) (by decide)
    · rwa [hc] at h

theorem replaceInTurn_templateSteps (cs : List Char) :
    replaceInTurn templateSteps cs = escapeTemplateChars cs := by
  have hquotes := @replaceInTurn_quoteSteps "`" (.ofNat 0x60) rfl (by decide)
  have hsingle : AreSingle (quoteSteps "`") := areSingle_quoteSteps rfl
  have hcons := @replaceInTurn_cons _ areSingle_controlSteps
  change replaceInTurn controlSteps (escapeDollar (replaceInTurn (quoteSteps "`") cs)) = _
  fun_induction escapeTemplateChars cs with
  | case1 => rfl
  | case2 cs ih =>
    have hkept : replaceInTurn (quoteSteps "`") ('$' :: '\x7b' :: cs) =
        '$' :: '\x7b' :: replaceInTurn (quoteSteps "`") cs :=
      replaceInTurn_append hsingle ['$', '\x7b'] cs
    rw [hkept, ← ih]
    exact replaceInTurn_append areSingle_controlSteps ['\\', '$', '\x7b'] _
  | case3 c cs hno ih =>
    rw [replaceInTurn_cons hsingle]
    rcases hquotes c with ⟨hc, hquoted⟩ | ⟨⟨hback, htick⟩, hself⟩
    · have hdollar : c ≠ '$' := by rcases hc with rfl | rfl <;> decide
      rw [hquoted, List.cons_append, List.singleton_append,
        escapeDollar_cons fun heq => absurd heq (by decide),
        escapeDollar_cons fun heq => absurd heq hdollar, hcons, hcons c, ih]
      rcases hc with rfl | rfl <;> rfl
    · have hbrace (hc : c = '$') : (replaceInTurn (quoteSteps "`") cs).head? ≠ some '\x7b' := by
        intro hhead
        obtain ⟨rest, hrest⟩ := List.head?_eq_some_iff.mp (head?_replaceInTurn_quoteSteps hhead)
        exact hno rest hc hrest
      have hnat : ¬(c.toNat == 0x60) = true := fun h =>
        htick (by rw [← beq_iff_eq.mp h, Char.ofNat_toNat])
      rw [hself, List.singleton_append, escapeDollar_cons hbrace, hcons, ih,
        replaceInTurn_controlSteps hback, escapeTemplateChar, if_neg hnat]

theorem toList_escapeString (s : String) : (escapeString s).toList = escapeStringChars s.toList := by
  rw [escapeString, String.toList_ofList, replaceInTurn_stringSteps]

theorem toList_escapeTemplate (s : String) :
    (escapeTemplate s).toList = escapeTemplateChars s.toList := by
  rw [escapeTemplate, String.toList_ofList, replaceInTurn_templateSteps]

end RustScript.Literal
