/-
  Text that leaves the brackets as it found them.

  `EndsLevel p cs` says that, read from the point `p` on, every line of `cs` closes no more than is
  open and that at the end nothing is open. `Neutral cs` says that `cs` may stand in front of any
  code that ends level.
-/
import RustScript.Program.Layout
import RustScript.Proofs.Literal.Replacing
import RustScript.Syntax.Spelling

namespace RustScript.Layout

/-! ## Points -/

/-- A place in the code, with the depth at which its line starts. -/
structure Point where
  depth : Int
  /-- What is known of the line up to here. -/
  scan : Scan

namespace Point

def start : Point := ⟨0, { opened := [] }⟩

/-- The depth at the point. -/
def total (p : Point) : Int := p.depth + p.scan.net

/-- The point stands outside the text of template literals. -/
def InCode (p : Point) : Prop := p.scan.opened.head? ≠ some .template

/-- No more has been closed than was open, at the start of the line and over all. -/
structure Steady (p : Point) : Prop where
  lead_le : (p.scan.lead : Int) ≤ p.depth
  total_nonneg : 0 ≤ p.total
  net_of_leading : p.scan.leading = true → p.scan.net = -p.scan.lead

/-- The point behind characters of its line. -/
def read (p : Point) (cs : List Char) : Point := { p with scan := scanFrom 0 p.scan cs }

/-- The start of the next line. -/
def nextLine (p : Point) : Point := ⟨p.total, { opened := p.scan.opened }⟩

/-- A point with the same things open at the same depth. -/
structure Like (p q : Point) : Prop where
  opened : q.scan.opened = p.scan.opened
  total : q.total = p.total
  steady : q.Steady

variable {p q r : Point}

theorem Like.trans (h : Like p q) (k : Like q r) : Like p r :=
  ⟨k.opened.trans h.opened, k.total.trans h.total, k.steady⟩

theorem Steady.like (h : p.Steady) : Like p p := ⟨rfl, rfl, h⟩

theorem Like.inCode (h : Like p q) (hp : p.InCode) : q.InCode := by
  unfold InCode
  rw [h.opened]
  exact hp

@[simp] theorem total_nextLine (p : Point) : p.nextLine.total = p.total := by simp [nextLine, total]

theorem Steady.nextLine (h : p.Steady) : Like p p.nextLine := by
  refine ⟨rfl, total_nextLine p, ?_⟩
  refine ⟨h.total_nonneg, ?_, fun _ => rfl⟩
  rw [total_nextLine]
  exact h.total_nonneg

end Point

theorem start_steady : Point.start.Steady := by refine ⟨?_, ?_, fun _ => rfl⟩ <;> decide

/-! ## Code that ends level -/

/-- Reading the lines from the point on, no line closes more than is open, at its start or over
    all, and at the end nothing is open. -/
def Level : Point → List (List Char) → Prop
  | p, [] => p.scan.opened = [] ∧ p.total = 0
  | p, line :: lines =>
    ((p.read line).scan.lead : Int) ≤ p.depth ∧ 0 ≤ (p.read line).total ∧
      Level (p.read line).nextLine lines

/-- Read from the point on, the code closes what is open and nothing else, line by line. -/
def EndsLevel (p : Point) (cs : List Char) : Prop := Level p (Text.cutLines cs)

theorem exists_cutLines (cs : List Char) : ∃ line lines, Text.cutLines cs = line :: lines := by
  induction cs with
  | nil => exact ⟨[], [], rfl⟩
  | cons c cs ih =>
    obtain ⟨line, lines, h⟩ := ih
    by_cases hc : c == '\n'
    · exact ⟨[], line :: lines, by rw [Text.cutLines, if_pos hc, h]⟩
    · exact ⟨c :: line, lines, by rw [Text.cutLines, if_neg hc, h, Text.onFirst]⟩

variable {cs : List Char} {lines : List (List Char)}

theorem cutLines_append (hcs : '\n' ∉ cs) {rest line : List Char}
    (h : Text.cutLines rest = line :: lines) :
    Text.cutLines (cs ++ rest) = (cs ++ line) :: lines := by
  induction cs with
  | nil => exact h
  | cons c cs ih =>
    have hc : ¬ (c == '\n') = true := by
      rintro hc
      exact hcs (by rw [beq_iff_eq.mp hc]; exact List.mem_cons_self)
    rw [List.cons_append, Text.cutLines, if_neg hc,
      ih fun hmem => hcs (List.mem_cons_of_mem c hmem), Text.onFirst, List.cons_append]

theorem head?_of_cutLines {rest line : List Char} (h : Text.cutLines rest = line :: lines)
    {c : Char} (hc : line.head? = some c) : rest.head? = some c := by
  cases rest with
  | nil =>
    cases h
    exact absurd hc (by simp)
  | cons d ds =>
    obtain ⟨line', lines', h'⟩ := exists_cutLines ds
    by_cases hd : d == '\n'
    · rw [Text.cutLines, if_pos hd] at h
      cases h
      exact absurd hc (by simp)
    · rw [Text.cutLines, if_neg hd, h', Text.onFirst] at h
      cases h
      exact hc

section Ends

variable {rest : List Char} {p : Point}

theorem EndsLevel.of_scan (cs : List Char) (after : Scan) (hcs : '\n' ∉ cs)
    (h : ∀ line : List Char, (∀ c, line.head? = some c → rest.head? = some c) →
      scanFrom 0 p.scan (cs ++ line) = scanFrom 0 after line)
    (hrest : EndsLevel { p with scan := after } rest) : EndsLevel p (cs ++ rest) := by
  obtain ⟨line, lines, hcut⟩ := exists_cutLines rest
  have hline := h line fun c hc => head?_of_cutLines hcut hc
  unfold EndsLevel at hrest ⊢
  rw [hcut] at hrest
  rw [cutLines_append hcs hcut]
  unfold Level Point.read at hrest ⊢
  rw [hline]
  exact hrest

theorem EndsLevel.newline (hp : p.Steady) (h : EndsLevel p.nextLine rest) :
    EndsLevel p ('\n' :: rest) := ⟨hp.lead_le, hp.total_nonneg, h⟩

end Ends

/-! ## Reading code -/

/-- A character that the layout takes no note of, in code and in string literals. -/
def isPlain (c : Char) : Bool :=
  c != '\n' && c != '"' && c != '\'' && c != '/' && c != '\\' && c.toNat != 0x60 &&
    c != '(' && c != ')' && c != '[' && c != ']' && c != '\x7b' && c != '\x7d'

/-- The characters of a name: none of them ends a line or counts as a bracket or a quote. -/
def isPlainText (s : String) : Bool := s.toList.all isPlain

/-- The scan behind a character that is no bracket and opens nothing. -/
def Scan.pass (s : Scan) (c : Char) : Scan := if Text.isBlank c then s else s.seen

section Code

variable {d : Int} {s : Scan} {c : Char} {rest : List Char}

theorem scanFrom_code (hs : s.opened.head? ≠ some .template) (hc : c ≠ '"') (hc' : c ≠ '\'')
    (hslash : c = '/' → rest.head? ≠ some '/' ∧ rest.head? ≠ some '*') :
    scanFrom 0 s (c :: rest) = scanFrom 0 (s.step c) rest := by
  rw [scanFrom, if_neg (by simpa using hs), if_neg (by simp [hc, hc']),
    if_neg (by simpa using fun e => (hslash e).1), if_neg (by simpa using fun e => (hslash e).2)]

theorem EndsLevel.char {p : Point} (hp : p.InCode) (hc : c ≠ '\n' ∧ c ≠ '"' ∧ c ≠ '\'')
    (hslash : c = '/' → ∃ e, rest.head? = some e ∧ e ≠ '/' ∧ e ≠ '*')
    (h : EndsLevel { p with scan := p.scan.step c } rest) : EndsLevel p (c :: rest) := by
  refine .of_scan [c] _ (by simpa using hc.1.symm) (fun line hline => ?_) h
  refine scanFrom_code hp hc.2.1 hc.2.2 fun e => ?_
  obtain ⟨f, hf, h1, h2⟩ := hslash e
  refine ⟨fun hh => h1 ?_, fun hh => h2 ?_⟩ <;>
    exact Option.some.inj (hf.symm.trans (hline _ hh))

theorem isPlain_iff : isPlain c = true ↔ c ≠ '\n' ∧ c ≠ '"' ∧ c ≠ '\'' ∧ c ≠ '/' ∧ c ≠ '\\' ∧
    c.toNat ≠ 0x60 ∧ c ≠ '(' ∧ c ≠ ')' ∧ c ≠ '[' ∧ c ≠ ']' ∧ c ≠ '\x7b' ∧ c ≠ '\x7d' := by
  simp [isPlain, and_assoc]

theorem step_plain (hc : isPlain c = true) : s.step c = s.pass c := by
  obtain ⟨-, -, -, -, -, h1, h2, h3, h4, h5, h6, h7⟩ := isPlain_iff.mp hc
  simp [Scan.step, Scan.pass, h1, h2, h3, h4, h5, h6, h7]

theorem scanFrom_skip (s : Scan) (cs rest : List Char) :
    scanFrom cs.length s (cs ++ rest) = scanFrom 0 s rest := by
  induction cs with
  | nil => rfl
  | cons c cs ih => exact ih

end Code

namespace Point

variable {p : Point} {c : Char}

theorem Steady.pass (hp : p.Steady) (c : Char) : Like p { p with scan := p.scan.pass c } := by
  unfold Scan.pass
  split
  · exact hp.like
  · exact ⟨rfl, rfl, hp.lead_le, hp.total_nonneg, fun h => by simp [Scan.seen] at h⟩

theorem Steady.opening (hp : p.Steady) (opened : List Opening) :
    ({ p with scan := { p.scan.openBracket with opened } } : Point).Steady := by
  have htotal := hp.total_nonneg
  unfold total at htotal
  refine ⟨hp.lead_le, ?_, fun h => by simp [Scan.openBracket, Scan.seen] at h⟩
  simp only [total, Scan.openBracket]
  omega

theorem Steady.closing (hp : p.Steady) (hopen : 0 < p.total) (opened : List Opening) :
    ({ p with scan := { p.scan.closeBracket with opened } } : Point).Steady := by
  have hlead := hp.lead_le
  unfold total at hopen
  refine ⟨?_, ?_, ?_⟩
  · by_cases hl : p.scan.leading = true
    · have := hp.net_of_leading hl
      simp only [Scan.closeBracket, hl, if_true]
      omega
    · simp only [Scan.closeBracket, if_neg hl]
      exact hlead
  · simp only [total, Scan.closeBracket]
    omega
  · intro hl
    have := hp.net_of_leading hl
    have hl' : p.scan.leading = true := hl
    simp only [Scan.closeBracket, hl', if_true]
    omega

end Point

/-! ## Neutral texts -/

/-- The text leaves depth and openings as they were, whatever code follows. -/
structure Neutral (cs : List Char) : Prop where
  before : ∀ p rest, p.InCode → p.Steady → (∀ q, Point.Like p q → EndsLevel q rest) →
    EndsLevel p (cs ++ rest)

namespace Neutral

variable {cs ds : List Char}

theorem nil : Neutral [] := ⟨fun p _ _ hp h => h p hp.like⟩

theorem append (hcs : Neutral cs) (hds : Neutral ds) : Neutral (cs ++ ds) := by
  refine ⟨fun p rest hcode hp h => ?_⟩
  rw [List.append_assoc]
  refine hcs.before p _ hcode hp fun q hq => ?_
  exact hds.before q rest (hq.inCode hcode) hq.steady fun r hr => h r (hq.trans hr)

theorem endsLevel (h : Neutral cs) : EndsLevel Point.start cs := by
  have hcode : Point.start.InCode := by simp [Point.InCode, Point.start]
  have hend := h.before Point.start [] hcode start_steady fun q hq => by
    refine ⟨hq.steady.lead_le, hq.steady.total_nonneg, ?_, ?_⟩
    · exact hq.opened
    · exact (Point.total_nextLine q).trans hq.total
  rwa [List.append_nil] at hend

end Neutral

/-! ## Brackets -/

def closerOf? (c : Char) : Option Char :=
  if c == '(' then some ')'
  else if c == '[' then some ']'
  else if c == '\x7b' then some '\x7d'
  else none

/-- What a bracket leaves open for the lines that follow. -/
def openingOf (closer : Char) : List Opening := if closer == '\x7d' then [.brace] else []

section Brackets

variable {p q : Point} {c d : Char} {rest : List Char}

theorem closerOf?_cases (h : closerOf? c = some d) :
    (c = '(' ∧ d = ')') ∨ (c = '[' ∧ d = ']') ∨ (c = '\x7b' ∧ d = '\x7d') := by
  unfold closerOf? at h
  split at h
  case isTrue hc => exact .inl ⟨beq_iff_eq.mp hc, (Option.some.inj h).symm⟩
  split at h
  case isTrue hc => exact .inr (.inl ⟨beq_iff_eq.mp hc, (Option.some.inj h).symm⟩)
  split at h
  case isTrue hc => exact .inr (.inr ⟨beq_iff_eq.mp hc, (Option.some.inj h).symm⟩)
  cases h

/-- The point after brackets that the closers will close. -/
structure Inside (closers : List Char) (p q : Point) : Prop where
  valid : ∀ d ∈ closers, ∃ c, closerOf? c = some d
  opened : q.scan.opened = closers.flatMap openingOf ++ p.scan.opened
  total : q.total = p.total + closers.length
  steady : q.Steady

theorem Point.Steady.inside (hp : p.Steady) : Inside [] p p := ⟨by simp, rfl, by simp, hp⟩

variable {closers : List Char}

theorem Inside.inCode (h : Inside closers p q) (hp : p.InCode) : q.InCode := by
  have hbraces : ∀ o ∈ closers.flatMap openingOf, o = .brace := by
    intro o ho
    obtain ⟨e, -, he⟩ := List.mem_flatMap.mp ho
    unfold openingOf at he
    split at he
    · exact List.mem_singleton.mp he
    · cases he
  unfold Point.InCode
  rw [h.opened, List.head?_append]
  cases hhead : (closers.flatMap openingOf).head? with
  | none => exact hp
  | some o =>
    rw [hbraces o (List.mem_of_mem_head? hhead)]
    simp

theorem Inside.like {r : Point} (h : Inside closers p q) (hr : Point.Like q r) :
    Inside closers p r :=
  ⟨h.valid, hr.opened.trans h.opened, hr.total.trans h.total, hr.steady⟩

theorem Inside.toLike (h : Inside [] p q) : Point.Like p q :=
  ⟨h.opened, by simpa using h.total, h.steady⟩

theorem EndsLevel.bracket {e : Char} (hc : closerOf? c = some d) (he : e = c ∨ e = d) (hp : p.InCode)
    (h : EndsLevel { p with scan := p.scan.step e } rest) : EndsLevel p (e :: rest) := by
  have hno : (e ≠ '\n' ∧ e ≠ '"' ∧ e ≠ '\'') ∧ e ≠ '/' := by
    obtain ⟨rfl, rfl⟩ | ⟨rfl, rfl⟩ | ⟨rfl, rfl⟩ := closerOf?_cases hc <;>
      rcases he with rfl | rfl <;> decide
  exact .char hp hno.1 (fun heq => absurd heq hno.2) h

theorem EndsLevel.openBracket (hc : closerOf? c = some d) (hp : p.InCode) (hq : Inside closers p q)
    (h : ∀ r, Inside (d :: closers) p r → EndsLevel r rest) : EndsLevel q (c :: rest) := by
  have hstep : q.scan.step c =
      { q.scan.openBracket with opened := openingOf d ++ q.scan.opened } := by
    obtain ⟨rfl, rfl⟩ | ⟨rfl, rfl⟩ | ⟨rfl, rfl⟩ := closerOf?_cases hc <;> rfl
  refine .bracket hc (.inl rfl) (hq.inCode hp) ?_
  rw [hstep]
  refine h _ ⟨?_, ?_, ?_, hq.steady.opening _⟩
  · intro e he
    rcases List.mem_cons.mp he with rfl | he
    · exact ⟨c, hc⟩
    · exact hq.valid e he
  · simp [hq.opened]
  · have htotal := hq.total
    simp only [Point.total, Scan.openBracket, List.length_cons] at htotal ⊢
    omega

theorem EndsLevel.closeBracket (hp : p.InCode) (hnonneg : 0 ≤ p.total)
    (hq : Inside (d :: closers) p q) (h : ∀ r, Inside closers p r → EndsLevel r rest) :
    EndsLevel q (d :: rest) := by
  obtain ⟨c, hc⟩ := hq.valid d List.mem_cons_self
  have hopened := hq.opened
  have htotal := hq.total
  rw [List.length_cons] at htotal
  have hstep : q.scan.step d =
      { q.scan.closeBracket with opened := closers.flatMap openingOf ++ p.scan.opened } := by
    obtain ⟨rfl, rfl⟩ | ⟨rfl, rfl⟩ | ⟨rfl, rfl⟩ := closerOf?_cases hc
    · exact congrArg (fun o => { q.scan.closeBracket with opened := o }) hopened
    · exact congrArg (fun o => { q.scan.closeBracket with opened := o }) hopened
    · change q.scan.closeBrace = _
      rw [Scan.closeBrace, hopened]
      rfl
  refine .bracket hc (.inr rfl) (hq.inCode hp) ?_
  rw [hstep]
  refine h _ ⟨fun e he => hq.valid e (List.mem_cons_of_mem d he), rfl, ?_,
    hq.steady.closing (by omega) _⟩
  simp only [Point.total, Scan.closeBracket] at htotal ⊢
  omega

end Brackets

/-- Read inside the brackets that `before` closes, the text ends inside those that `after` closes,
    whatever code follows. -/
structure Moves (before after : List Char) (cs : List Char) : Prop where
  between : ∀ p q rest, p.InCode → p.Steady → Inside before p q →
    (∀ r, Inside after p r → EndsLevel r rest) → EndsLevel q (cs ++ rest)

section Moves

variable {a b c : List Char} {cs ds : List Char}

theorem Moves.append (hcs : Moves a b cs) (hds : Moves b c ds) : Moves a c (cs ++ ds) := by
  refine ⟨fun p q rest hcode hp hq h => ?_⟩
  rw [List.append_assoc]
  exact hcs.between p q _ hcode hp hq fun r hr => hds.between p r rest hcode hp hr h

theorem Neutral.moves (hcs : Neutral cs) : Moves a a cs := by
  refine ⟨fun p q rest hcode _ hq h => ?_⟩
  exact hcs.before q rest (hq.inCode hcode) hq.steady fun r hr => h r (hq.like hr)

theorem Moves.neutral (hcs : Moves [] [] cs) : Neutral cs := by
  refine ⟨fun p rest hcode hp h => ?_⟩
  exact hcs.between p p rest hcode hp hp.inside fun r hr => h r hr.toLike

end Moves

/-! ## String literals -/

section Strings

variable {s : Scan} {body rest : List Char}

theorem scanFrom_string (hs : s.opened.head? ≠ some .template)
    (hbody : stringTail '"' (body ++ '"' :: rest) = body.length + 1) :
    scanFrom 0 s ('"' :: (body ++ '"' :: rest)) = scanFrom 0 s.seen rest := by
  rw [scanFrom, if_neg (by simpa using hs), if_pos (by decide), hbody]
  have h := scanFrom_skip s.seen (body ++ ['"']) rest
  rw [List.length_append, List.append_assoc] at h
  exact h

theorem EndsLevel.string {p : Point} (hcode : p.InCode) (hp : p.Steady) (hline : '\n' ∉ body)
    (hbody : ∀ rest, stringTail '"' (body ++ '"' :: rest) = body.length + 1)
    (h : ∀ q, Point.Like p q → EndsLevel q rest) : EndsLevel p ('"' :: (body ++ '"' :: rest)) := by
  have hlike : Point.Like p { p with scan := p.scan.seen } := hp.pass 'a'
  have hcs : '\n' ∉ '"' :: (body ++ ['"']) := by
    intro hmem
    rcases List.mem_cons.mp hmem with h0 | hmem
    · exact absurd h0 (by decide)
    rcases List.mem_append.mp hmem with hmem | hmem
    · exact hline hmem
    · exact absurd (List.mem_singleton.mp hmem) (by decide)
  have := EndsLevel.of_scan _ p.scan.seen hcs (fun line _ => ?_) (h _ hlike)
  · simpa using this
  · simpa using scanFrom_string hcode (hbody line)

theorem stringTail_raw (hbody : ∀ c ∈ body, c ≠ '"' ∧ c ≠ '\\') (rest : List Char) :
    stringTail '"' (body ++ '"' :: rest) = body.length + 1 := by
  induction body with
  | nil => simp [stringTail]
  | cons c body ih =>
    obtain ⟨hq, hb⟩ := hbody c List.mem_cons_self
    rw [List.cons_append, stringTail, if_neg (by simpa using hq),
      ih fun e he => hbody e (List.mem_cons_of_mem c he), List.length_cons]
    all_goals intros; exact hb ‹_›

end Strings

/-! ## Fixed code -/

/-- The brackets still to close after the code, if it closes no others and ends its strings; `quoted`
    code starts inside a string. -/
def closersAfter : (quoted : Bool) → (closers : List Char) → List Char → Option (List Char)
  | quoted, closers, [] => if quoted then none else some closers
  | true, closers, c :: cs =>
    if c == '\\' || c == '\n' then none else closersAfter (c != '"') closers cs
  | false, closers, c :: cs =>
    if c == '"' then closersAfter true closers cs
    else match closerOf? c with
      | some d => closersAfter false (d :: closers) cs
      | none =>
        if closers.head? == some c then closersAfter false closers.tail cs
        else if isPlain c || c == '\n' ||
            c == '/' && cs.head?.any fun e => e != '/' && e != '*' then
          closersAfter false closers cs
        else none

section Fixed

variable {p q : Point} {closers cs rest : List Char} {c : Char} {after : List Char}

theorem EndsLevel.plain (hcode : p.InCode) (hp : p.Steady)
    (hc : isPlain c = true ∨ c = '\n' ∨ c = '/' ∧ ∃ e, rest.head? = some e ∧ e ≠ '/' ∧ e ≠ '*')
    (h : ∀ q, Point.Like p q → EndsLevel q rest) : EndsLevel p (c :: rest) := by
  rcases hc with hc | rfl | ⟨rfl, hslash⟩
  · obtain ⟨h1, h2, h3, h4, -⟩ := isPlain_iff.mp hc
    refine .char hcode ⟨h1, h2, h3⟩ (fun e => absurd e h4) ?_
    rw [step_plain hc]
    exact h _ (hp.pass c)
  · exact .newline hp (h _ hp.nextLine)
  · refine .char hcode (by decide) (fun _ => hslash) ?_
    exact h _ (hp.pass 'a')

theorem passes_cases (h : (isPlain c || c == '\n' ||
      c == '/' && cs.head?.any fun e => e != '/' && e != '*') = true) :
    isPlain c = true ∨ c = '\n' ∨
      c = '/' ∧ ∃ e, (cs ++ rest).head? = some e ∧ e ≠ '/' ∧ e ≠ '*' := by
  rcases Bool.or_eq_true_iff.mp h with hplain | hslash
  · rcases Bool.or_eq_true_iff.mp hplain with hplain | hline
    · exact .inl hplain
    · exact .inr (.inl (beq_iff_eq.mp hline))
  · obtain ⟨h1, h2⟩ := Bool.and_eq_true_iff.mp hslash
    cases cs with
    | nil => simp at h2
    | cons e cs => exact .inr (.inr ⟨beq_iff_eq.mp h1, e, rfl, by simpa using h2⟩)

/-- Such code piece by piece, each string as a whole, up to the place inside the brackets that
    `after` closes. -/
inductive Pieces (after : List Char) : List Char → List Char → Prop
  | nil : Pieces after after []
  | string {closers body cs : List Char} (hbody : ∀ c ∈ body, c ≠ '"' ∧ c ≠ '\\' ∧ c ≠ '\n')
      (h : Pieces after closers cs) : Pieces after closers ('"' :: (body ++ '"' :: cs))
  | opens {closers cs : List Char} {c d : Char} (hc : closerOf? c = some d)
      (h : Pieces after (d :: closers) cs) : Pieces after closers (c :: cs)
  | closes {closers cs : List Char} {d : Char} (h : Pieces after closers cs) :
      Pieces after (d :: closers) (d :: cs)
  | passes {closers cs : List Char} {c : Char}
      (hc : (isPlain c || c == '\n' || c == '/' && cs.head?.any fun e => e != '/' && e != '*') = true)
      (h : Pieces after closers cs) : Pieces after closers (c :: cs)

/-- By induction on the code; the string that the code is in the middle of stands in front. -/
theorem Pieces.of_closersAfter {quoted : Bool} (h : closersAfter quoted closers cs = some after)
    {body : List Char} (hbody : ∀ c ∈ body, c ≠ '"' ∧ c ≠ '\\' ∧ c ≠ '\n') :
    Pieces after closers ((if quoted then '"' :: body else []) ++ cs) := by
  induction cs generalizing quoted closers body with
  | nil =>
    cases quoted with
    | true => cases h
    | false =>
      cases h
      exact .nil
  | cons c cs ih =>
    have hnext {closers : List Char} (h : closersAfter false closers cs = some after) :
        Pieces after closers cs := @ih _ false h [] (by simp)
    cases quoted with
    | true =>
      rw [closersAfter] at h
      split at h
      case isTrue => cases h
      case isFalse hno =>
        obtain ⟨hb, hn⟩ : c ≠ '\\' ∧ c ≠ '\n' := by simpa using hno
        by_cases hquote : c = '"'
        · subst hquote
          exact .string hbody (hnext h)
        · rw [show (c != '"') = true from bne_iff_ne.mpr hquote] at h
          have := @ih _ true h (body ++ [c]) fun e he => by
            rcases List.mem_append.mp he with he | he
            · exact hbody e he
            · rw [List.mem_singleton.mp he]
              exact ⟨hquote, hb, hn⟩
          simpa using this
    | false =>
      rw [closersAfter] at h
      split at h
      case isTrue hquote =>
        rw [beq_iff_eq.mp hquote]
        exact @ih _ true h [] (by simp)
      split at h
      case h_1 d hd => exact .opens hd (hnext h)
      split at h
      case isTrue hhead =>
        obtain ⟨closers', rfl⟩ : ∃ closers', closers = c :: closers' := by
          cases closers with
          | nil => simp at hhead
          | cons d closers' => exact ⟨closers', by simpa using hhead⟩
        exact .closes (hnext h)
      split at h
      case isFalse => cases h
      case isTrue hplain => exact .passes hplain (hnext h)

theorem EndsLevel.of_pieces (h : Pieces after closers cs) (hcode : p.InCode) (hp : p.Steady)
    (hq : Inside closers p q) (hrest : ∀ r, Inside after p r → EndsLevel r rest) :
    EndsLevel q (cs ++ rest) := by
  induction h generalizing q with
  | nil => exact hrest q hq
  | string hbody _ ih =>
    rw [List.cons_append, List.append_assoc, List.cons_append]
    exact .string (hq.inCode hcode) hq.steady (fun hmem => (hbody _ hmem).2.2 rfl)
      (stringTail_raw fun c hc => ⟨(hbody c hc).1, (hbody c hc).2.1⟩) fun r hr => ih (hq.like hr)
  | opens hc _ ih => exact .openBracket hc hcode hq fun r hr => ih hr
  | closes _ ih => exact .closeBracket hcode hp.total_nonneg hq fun r hr => ih hr
  | passes hc _ ih =>
    exact .plain (hq.inCode hcode) hq.steady (passes_cases hc) fun r hr => ih (hq.like hr)

end Fixed

theorem Pieces.code {before after cs : List Char}
    (h : closersAfter false before cs = some after) : Pieces after before cs :=
  Pieces.of_closersAfter h (fun _ hc => nomatch hc : ∀ c ∈ [], _)

theorem Moves.code {before after cs : List Char} (h : closersAfter false before cs = some after) :
    Moves before after cs :=
  ⟨fun _ _ _ hcode hp hq hrest => .of_pieces (.code h) hcode hp hq hrest⟩

theorem Neutral.code (h : closersAfter false [] cs = some []) : Neutral cs := (Moves.code h).neutral

theorem closersAfter_plain (h : cs.all isPlain = true) : closersAfter false [] cs = some [] := by
  induction cs with
  | nil => rfl
  | cons c cs ih =>
    obtain ⟨hc, hcs⟩ := Bool.and_eq_true_iff.mp (List.all_cons.symm.trans h)
    obtain ⟨-, h1, -, -, -, -, h2, -, h3, -, h4, -⟩ := isPlain_iff.mp hc
    have hno : closerOf? c = none := by simp [closerOf?, h2, h3, h4]
    rw [closersAfter, if_neg (by simpa using h1), hno]
    simp [hc, ih hcs]

theorem Neutral.plain (h : cs.all isPlain = true) : Neutral cs := .code (closersAfter_plain h)

/-! ## Literals and comments -/

open Literal in
theorem stringTail_escape (c : Char) (rest : List Char) :
    stringTail '"' (escapeStringChar c ++ rest) =
      stringTail '"' rest + (escapeStringChar c).length := by
  unfold escapeStringChar
  split
  case isTrue => rfl
  case isFalse hquote =>
    obtain (rfl | rfl | rfl | rfl | rfl | rfl | rfl) | ⟨hself, hback, -⟩ := escapeShared_cases c
    all_goals try rfl
    rw [hself, List.singleton_append, stringTail, if_neg hquote]
    · rfl
    · exact fun h _ => hback h
    · exact fun _ _ h _ => hback h

open Literal in
theorem stringTail_escaped (cs rest : List Char) :
    stringTail '"' (escapeStringChars cs ++ '"' :: rest) = (escapeStringChars cs).length + 1 := by
  induction cs with
  | nil => simp [escapeStringChars, stringTail]
  | cons c cs ih =>
    rw [escapeStringChars, List.flatMap_cons, List.append_assoc, stringTail_escape,
      List.length_append]
    rw [escapeStringChars] at ih
    omega

open Literal in
theorem newline_not_mem_escapeShared (c : Char) : '\n' ∉ escapeShared c := by
  obtain (rfl | rfl | rfl | rfl | rfl | rfl | rfl) | ⟨hself, -, hfeed, -⟩ := escapeShared_cases c
  all_goals try decide
  rw [hself]
  exact fun h => hfeed (List.mem_singleton.mp h).symm

open Literal in
theorem newline_not_mem_escapeString (cs : List Char) : '\n' ∉ escapeStringChars cs := by
  intro hmem
  obtain ⟨c, -, hc⟩ := List.mem_flatMap.mp hmem
  unfold escapeStringChar at hc
  split at hc
  · exact absurd hc (by decide)
  · exact newline_not_mem_escapeShared c hc

/-- A string literal is neutral, whatever it holds. -/
theorem Neutral.quote (s : String) : Neutral (Literal.quote s).toList := by
  refine ⟨fun p rest hcode hp h => ?_⟩
  have := EndsLevel.string hcode hp (newline_not_mem_escapeString s.toList)
    (stringTail_escaped s.toList) h
  simpa [Literal.quote, Literal.toList_escapeString] using this

/-- The text holds the end of a comment. -/
def endsComment : List Char → Bool
  | [] => false
  | '*' :: '/' :: _ => true
  | _ :: cs => endsComment cs

theorem commentTail_append (cs : List Char) (h : endsComment cs = false) (rest : List Char) :
    commentTail (cs ++ ' ' :: '*' :: '/' :: rest) = cs.length + 3 := by
  fun_induction endsComment cs with
  | case1 => rfl
  | case2 => cases h
  | case3 c cs hno ih =>
    rw [List.cons_append, commentTail, ih h, List.length_cons]
    intro cs' hc hcs
    cases cs with
    | nil => simp at hcs
    | cons e cs =>
      obtain ⟨he, -⟩ := List.cons.inj hcs
      exact hno cs hc (by rw [he])

theorem Neutral.comment (hline : '\n' ∉ cs) (hend : endsComment cs = false) :
    Neutral ('/' :: '*' :: ' ' :: (cs ++ [' ', '*', '/'])) := by
  refine ⟨fun p rest hcode hp h => ?_⟩
  have htail (line : List Char) :
      commentTail (' ' :: cs ++ ' ' :: '*' :: '/' :: line) = (' ' :: cs).length + 3 :=
    commentTail_append (' ' :: cs) (by simpa [endsComment] using hend) line
  refine .of_scan _ p.scan ?_ (fun line _ => ?_) (h p hp.like)
  · simpa using hline
  · have hskip := scanFrom_skip p.scan ('*' :: ' ' :: (cs ++ [' ', '*', '/'])) line
    simp only [List.cons_append, List.append_assoc, List.nil_append] at htail ⊢
    rw [scanFrom, if_neg (by simpa [Point.InCode] using hcode), if_neg (by decide),
      if_neg (by simp), if_pos (by simp), List.tail_cons, htail]
    have hlen : 1 + ((' ' :: cs).length + 3) = ('*' :: ' ' :: (cs ++ [' ', '*', '/'])).length := by
      simp only [List.length_cons, List.length_append, List.length_nil]
      omega
    rw [hlen]
    simpa using hskip

/-! ## Template literals -/

section Templates

variable {s : Scan} {c : Char} {cs rest : List Char}

theorem scanFrom_text (hs : s.opened.head? = some .template) (hb : c ≠ '\\') (ht : c.toNat ≠ 0x60)
    (hslot : c = '$' → rest.head? ≠ some '\x7b') :
    scanFrom 0 s (c :: rest) = scanFrom 0 s rest := by
  have hno : ¬ (c == '$' && rest.head? == some '\x7b') = true := by
    intro h
    obtain ⟨h1, h2⟩ := Bool.and_eq_true_iff.mp h
    exact hslot (beq_iff_eq.mp h1) (beq_iff_eq.mp h2)
  rw [scanFrom, if_pos (by simpa using hs), if_neg (by simpa using hb), if_neg (by simpa using ht),
    if_neg hno]

theorem scanFrom_backslash (hs : s.opened.head? = some .template) (c : Char) (rest : List Char) :
    scanFrom 0 s ('\\' :: c :: rest) = scanFrom 0 s rest := by
  rw [scanFrom, if_pos (by simpa using hs), if_pos (by decide), scanFrom]

open Literal in
theorem scanFrom_escape (hs : s.opened.head? = some .template)
    (hslot : c = '$' → rest.head? ≠ some '\x7b') :
    scanFrom 0 s (escapeTemplateChar c ++ rest) = scanFrom 0 s rest := by
  have hplain (e : Char) (es : List Char) (he : e ≠ '\\' ∧ e.toNat ≠ 0x60 ∧ e ≠ '$') :
      scanFrom 0 s (e :: es) = scanFrom 0 s es :=
    scanFrom_text hs he.1 he.2.1 fun h => absurd h he.2.2
  unfold escapeTemplateChar
  split
  case isTrue => exact scanFrom_backslash hs c rest
  case isFalse ht =>
    obtain (rfl | rfl | rfl | rfl | rfl | rfl | rfl) | ⟨hself, hback, -⟩ := escapeShared_cases c
    case inr =>
      rw [hself]
      exact scanFrom_text hs hback (by simpa using ht) hslot
    all_goals
      simp only [escapeShared, Char.reduceBEq, Char.reduceToNat, Nat.reduceBEq, Bool.false_eq_true,
        if_true, if_false, List.cons_append, List.nil_append, scanFrom_backslash hs]
      repeat rw [hplain _ _ (by decide)]

open Literal in
theorem head?_escapeTemplate (h : (escapeTemplateChars cs ++ rest).head? = some '\x7b') :
    (cs ++ rest).head? = some '\x7b' := by
  fun_cases escapeTemplateChars cs with
  | case1 => exact h
  | case2 cs => simp [escapeTemplateChars] at h
  | case3 c cs hno =>
    rw [escapeTemplateChars.eq_3 c cs hno] at h
    unfold escapeTemplateChar escapeShared at h
    repeat' split at h
    all_goals simp at h
    rw [h]
    rfl

open Literal in
/-- A chunk opens no value, unless its last character and what follows do. -/
theorem scanFrom_chunk (hs : s.opened.head? = some .template)
    (hjoin : cs.getLast? = some '$' → rest.head? ≠ some '\x7b') :
    scanFrom 0 s (escapeTemplateChars cs ++ rest) = scanFrom 0 s rest := by
  fun_induction escapeTemplateChars cs with
  | case1 => rfl
  | case2 cs ih =>
    simp only [List.cons_append]
    rw [scanFrom_backslash hs,
      scanFrom_text hs (by decide) (by decide) fun h => absurd h (by decide)]
    refine ih fun hlast => hjoin ?_
    rw [List.getLast?_cons_cons, List.getLast?_cons, hlast]
    rfl
  | case3 c cs hno ih =>
    rw [List.append_assoc, scanFrom_escape hs]
    · refine ih fun hlast => hjoin ?_
      rw [List.getLast?_cons, hlast]
      rfl
    · intro hc hhead
      have hhead' := head?_escapeTemplate hhead
      cases cs with
      | nil => exact hjoin (by rw [hc]; rfl) hhead'
      | cons d ds => exact hno ds hc (by rw [Option.some.inj hhead'])

open Literal in
theorem newline_not_mem_escapeTemplate (cs : List Char) : '\n' ∉ escapeTemplateChars cs := by
  fun_induction escapeTemplateChars cs with
  | case1 => simp
  | case2 cs ih => simpa using ih
  | case3 c cs hno ih =>
    have hc : '\n' ∉ escapeTemplateChar c := by
      unfold escapeTemplateChar
      split
      case isTrue ht =>
        intro hmem
        rcases List.mem_cons.mp hmem with h | h
        · exact absurd h (by decide)
        · rw [← List.mem_singleton.mp h] at ht
          exact absurd ht (by decide)
      case isFalse => exact newline_not_mem_escapeShared c
    exact fun hmem => (List.mem_append.mp hmem).elim hc ih

theorem EndsLevel.chunk {p : Point} (hp : p.scan.opened.head? = some .template)
    (hjoin : cs.getLast? = some '$' → rest.head? ≠ some '\x7b') (h : EndsLevel p rest) :
    EndsLevel p (Literal.escapeTemplateChars cs ++ rest) :=
  EndsLevel.of_scan _ _ (newline_not_mem_escapeTemplate cs)
    (fun _ hline => scanFrom_chunk hp fun hlast hhead => hjoin hlast (hline _ hhead)) h

/-- The point inside template literals and their values that opened after the other point. -/
structure Within (opened : List Opening) (p q : Point) : Prop where
  opened : q.scan.opened = opened ++ p.scan.opened
  total : q.total = p.total
  steady : q.Steady

variable {p q : Point} {o : List Opening}

theorem Within.like {r : Point} (h : Within o p q) (hr : Point.Like q r) : Within o p r :=
  ⟨hr.opened.trans h.opened, hr.total.trans h.total, hr.steady⟩

theorem EndsLevel.openTemplate (hc : c.toNat = 0x60) (hcode : p.InCode) (hp : p.Steady)
    (h : ∀ q, Within [.template] p q → EndsLevel q rest) : EndsLevel p (c :: rest) := by
  have hno : c ≠ '\n' ∧ c ≠ '"' ∧ c ≠ '\'' ∧ c ≠ '/' := by
    refine ⟨?_, ?_, ?_, ?_⟩ <;>
      · rintro rfl
        exact absurd hc (by decide)
  refine .char hcode ⟨hno.1, hno.2.1, hno.2.2.1⟩ (fun e => absurd e hno.2.2.2) (h _ ?_)
  rw [Scan.step, if_pos (by simpa using hc)]
  exact ⟨rfl, rfl, hp.lead_le, hp.total_nonneg, fun h => by simp [Scan.seen] at h⟩

theorem EndsLevel.closeTemplate (hc : c.toNat = 0x60) (hq : Within (.template :: o) p q)
    (h : ∀ r, Within o p r → EndsLevel r rest) : EndsLevel q (c :: rest) := by
  have hno : c ≠ '\n' ∧ c ≠ '\\' := by
    refine ⟨?_, ?_⟩ <;>
      · rintro rfl
        exact absurd hc (by decide)
  refine .of_scan [c] { q.scan with opened := o ++ p.scan.opened } (by simpa using hno.1.symm)
    (fun line _ => ?_) (h _ ?_)
  · rw [List.singleton_append, scanFrom, if_pos (by simp [hq.opened]), if_neg (by simpa using hno.2),
      if_pos (by simpa using hc), hq.opened]
    rfl
  · exact ⟨rfl, hq.total, hq.steady.lead_le, hq.steady.total_nonneg, hq.steady.net_of_leading⟩

theorem EndsLevel.openSlot (hq : Within (.template :: o) p q)
    (h : ∀ r, Within (.slot :: .template :: o) p r → EndsLevel r rest) :
    EndsLevel q ('$' :: '\x7b' :: rest) := by
  refine .of_scan ['$', '\x7b'] { q.scan with opened := .slot :: q.scan.opened } (by decide)
    (fun line _ => ?_) (h _ ?_)
  · rw [List.cons_append, scanFrom, if_pos (by simp [hq.opened]), if_neg (by decide),
      if_neg (by decide), if_pos (by simp), List.singleton_append, scanFrom]
  · refine ⟨?_, hq.total, hq.steady.lead_le, hq.steady.total_nonneg, hq.steady.net_of_leading⟩
    simp [hq.opened]

theorem EndsLevel.closeSlot (hq : Within (.slot :: o) p q)
    (h : ∀ r, Within o p r → EndsLevel r rest) : EndsLevel q ('\x7d' :: rest) := by
  refine .char ?_ (by decide) (fun e => absurd e (by decide)) (h _ ?_)
  · rw [Point.InCode, hq.opened]
    simp
  · have hstep : q.scan.step '\x7d' = { q.scan with opened := o ++ p.scan.opened } := by
      change q.scan.closeBrace = _
      rw [Scan.closeBrace, hq.opened]
      rfl
    rw [hstep]
    exact ⟨rfl, hq.total, hq.steady.lead_le, hq.steady.total_nonneg, hq.steady.net_of_leading⟩

end Templates

end RustScript.Layout
