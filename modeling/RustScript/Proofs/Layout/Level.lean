/-
  Lines as the layout takes them.

  The layout holds the depth at zero where a line closes more than is open. In code that ends level
  nothing has to be held: the brackets of its lines add up to zero, and up to any line to no less
  than zero.
-/
import Mathlib.Algebra.Ring.Int.Defs
import RustScript.Proofs.Layout.Printed
import RustScript.Proofs.Text.Trim

namespace RustScript

open Text (isBlank trimLeft trim trimRight cutLines)

namespace Layout

/-! ## Blanks around a line -/

section Blanks

variable {s : Scan} {c : Char} {cs bs : List Char}

theorem ne_of_isBlank {d : Char} (hc : isBlank c = true) (hd : isBlank d = false) : c ≠ d := by
  rintro rfl
  exact Bool.false_ne_true (hd.symm.trans hc)

theorem step_blank (hc : isBlank c = true) : s.step c = s := by
  have htick : c.toNat ≠ 0x60 := fun h =>
    ne_of_isBlank hc (d := Char.ofNat 0x60) (by decide) (by rw [← h, Char.ofNat_toNat])
  have hparen := ne_of_isBlank hc (d := '(') (by decide)
  have hclose := ne_of_isBlank hc (d := ')') (by decide)
  have hsquare := ne_of_isBlank hc (d := '[') (by decide)
  have hclose' := ne_of_isBlank hc (d := ']') (by decide)
  have hbrace := ne_of_isBlank hc (d := '\x7b') (by decide)
  have hbrace' := ne_of_isBlank hc (d := '\x7d') (by decide)
  simp [Scan.step, htick, hparen, hclose, hsquare, hclose', hbrace, hbrace', hc]

theorem scanFrom_blank (hc : isBlank c = true) (rest : List Char) :
    scanFrom 0 s (c :: rest) = scanFrom 0 s rest := by
  by_cases hs : s.opened.head? = some .template
  · have htick : c.toNat ≠ 0x60 := fun h =>
      ne_of_isBlank hc (d := Char.ofNat 0x60) (by decide) (by rw [← h, Char.ofNat_toNat])
    exact scanFrom_text hs (ne_of_isBlank hc (by decide)) htick fun h =>
      absurd h (ne_of_isBlank hc (by decide))
  · rw [scanFrom_code hs (ne_of_isBlank hc (by decide)) (ne_of_isBlank hc (by decide)) fun h =>
      absurd h (ne_of_isBlank hc (by decide)), step_blank hc]

theorem scanFrom_trimLeft (s : Scan) (cs : List Char) :
    scanFrom 0 s (trimLeft cs) = scanFrom 0 s cs := by
  unfold trimLeft
  induction cs with
  | nil => rfl
  | cons c cs ih =>
    by_cases hc : isBlank c = true
    · rw [List.dropWhile_cons_of_pos hc, ih, scanFrom_blank hc]
    · rw [List.dropWhile_cons_of_neg hc]

theorem scanFrom_of_length_le {n : Nat} (h : cs.length ≤ n) : scanFrom n s cs = s := by
  induction cs generalizing n with
  | nil => cases n <;> rfl
  | cons c cs ih =>
    obtain ⟨m, rfl⟩ : ∃ m, n = m + 1 := ⟨n - 1, by rw [List.length_cons] at h; omega⟩
    rw [scanFrom]
    exact ih (by rw [List.length_cons] at h; omega)

theorem scanFrom_blanks (hbs : ∀ c ∈ bs, isBlank c = true) (n : Nat) : scanFrom n s bs = s := by
  induction bs generalizing n with
  | nil => cases n <;> rfl
  | cons b bs ih =>
    have ih := ih fun c hc => hbs c (List.mem_cons_of_mem b hc)
    cases n with
    | zero => rw [scanFrom_blank (hbs b List.mem_cons_self), ih]
    | succ n => rw [scanFrom, ih]

theorem ne_backslash (hone : c = '\\' → cs = [] → False)
    (htwo : ∀ d ds, c = '\\' → cs = d :: ds → False) : c ≠ '\\' := by
  intro hc
  cases cs with
  | nil => exact hone hc rfl
  | cons d ds => exact htwo d ds hc rfl

theorem stringTail_cons {quote : Char} (hc : c ≠ '\\') (cs : List Char) :
    stringTail quote (c :: cs) = if c == quote then 1 else stringTail quote cs + 1 := by
  rw [stringTail]
  all_goals
    intros
    exact hc ‹_›

theorem stringTail_append (quote : Char) (cs bs : List Char) :
    stringTail quote (cs ++ bs) = stringTail quote cs ∨
      (cs.length ≤ stringTail quote (cs ++ bs) ∧ cs.length ≤ stringTail quote cs) := by
  fun_induction stringTail quote cs with
  | case1 => exact .inr ⟨Nat.zero_le _, Nat.le_refl _⟩
  | case2 =>
    refine .inr ⟨?_, Nat.le_refl _⟩
    cases bs <;> simp [stringTail]
  | case3 c cs ih =>
    simp only [List.cons_append, stringTail, List.length_cons]
    omega
  | case4 c cs hone htwo hquote =>
    rw [List.cons_append, stringTail_cons (ne_backslash hone htwo), if_pos hquote]
    exact .inl rfl
  | case5 c cs hone htwo hquote ih =>
    rw [List.cons_append, stringTail_cons (ne_backslash hone htwo), if_neg hquote, List.length_cons]
    omega

theorem commentTail_blanks (cs : List Char) (hbs : ∀ c ∈ bs, isBlank c = true) :
    commentTail (cs ++ bs) = commentTail cs ∨
      (cs.length ≤ commentTail (cs ++ bs) ∧ cs.length ≤ commentTail cs) := by
  fun_induction commentTail cs with
  | case1 => exact .inr ⟨Nat.zero_le _, Nat.le_refl _⟩
  | case2 => exact .inl rfl
  | case3 c cs hno ih =>
    have hlong : commentTail (c :: (cs ++ bs)) = commentTail (cs ++ bs) + 1 := by
      rw [commentTail]
      intro ds hc hds
      cases cs with
      | nil =>
        have hslash := hbs '/' (by rw [List.nil_append] at hds; rw [hds]; exact List.mem_cons_self)
        exact absurd hslash (by decide)
      | cons d cs =>
        obtain ⟨hd, -⟩ := List.cons.inj hds
        exact hno cs hc (by rw [hd])
    rw [List.cons_append, hlong, List.length_cons]
    omega

/-- By induction on the line. What is found ahead, a string, a comment or a value, is not found in
    the blanks. -/
theorem scanFrom_append_blanks (hbs : ∀ c ∈ bs, isBlank c = true) (n : Nat) (s : Scan)
    (cs : List Char) : scanFrom n s (cs ++ bs) = scanFrom n s cs := by
  have hskip {m k : Nat} (s : Scan) (cs : List Char)
      (h : m = k ∨ (cs.length ≤ m ∧ cs.length ≤ k)) : scanFrom m s cs = scanFrom k s cs := by
    rcases h with rfl | ⟨hm, hk⟩
    · rfl
    · rw [scanFrom_of_length_le hm, scanFrom_of_length_le hk]
  induction cs generalizing n s with
  | nil =>
    rw [List.nil_append, scanFrom_blanks hbs]
    cases n <;> rfl
  | cons c cs ih =>
    cases n with
    | succ n =>
      rw [List.cons_append, scanFrom, scanFrom]
      exact ih n s
    | zero =>
      have hhead (d : Char) (hd : isBlank d = false) :
          ((cs ++ bs).head? == some d) = (cs.head? == some d) := by
        cases cs with
        | cons e cs => rfl
        | nil =>
          cases bs with
          | nil => rfl
          | cons b bs => simpa using ne_of_isBlank (hbs b List.mem_cons_self) hd
      have hstring := hskip s.seen cs (stringTail_append c cs bs)
      have hcomment : scanFrom (1 + commentTail (cs ++ bs).tail) s cs =
          scanFrom (1 + commentTail cs.tail) s cs := by
        cases cs with
        | nil => cases commentTail ([] ++ bs).tail <;> rfl
        | cons e cs =>
          refine hskip s (e :: cs) ?_
          have := commentTail_blanks cs hbs
          simp only [List.cons_append, List.tail_cons, List.length_cons]
          omega
      rw [List.cons_append, scanFrom, scanFrom]
      simp only [hhead _ (show isBlank '\x7b' = false by decide),
        hhead _ (show isBlank '/' = false by decide),
        hhead _ (show isBlank '*' = false by decide), ih, hstring, hcomment]

theorem scanFrom_trim (s : Scan) (cs : List Char) : scanFrom 0 s (trim cs) = scanFrom 0 s cs := by
  have hright (ds : List Char) : scanFrom 0 s (trimRight ds) = scanFrom 0 s ds := by
    have hsplit : trimRight ds ++ (ds.reverse.takeWhile isBlank).reverse = ds := by
      rw [trimRight, ← List.reverse_append, List.takeWhile_append_dropWhile, List.reverse_reverse]
    have hblank : ∀ c ∈ (ds.reverse.takeWhile isBlank).reverse, isBlank c = true :=
      fun c hc => List.all_eq_true.mp List.all_takeWhile c (List.mem_reverse.mp hc)
    conv => rhs; rw [← hsplit, scanFrom_append_blanks hblank]
  rw [trim, hright, scanFrom_trimLeft]

end Blanks

/-! ## Running sums -/

/-- The scans of lines in order. What is open after a line is open before the next. -/
def scans : List Opening → List (List Char) → List Scan
  | _, [] => []
  | opened, raw :: lines =>
    let s := scanFrom 0 { opened } (trim raw)
    s :: scans s.opened lines

/-- Opening less closing brackets on several lines. -/
def balance (ss : List Scan) : Int := (ss.map Scan.net).sum

/-- Laid out from the depth on, no line starts left of the margin or ends at a depth below zero,
    so that no depth is held at zero. -/
def Unclamped : (depth : Nat) → List Opening → List (List Char) → Prop
  | _, _, [] => True
  | depth, opened, raw :: lines =>
    let s := scanFrom 0 { opened } (trim raw)
    s.lead ≤ depth ∧ 0 ≤ depth + s.net ∧ Unclamped (depth + s.net).toNat s.opened lines

/-- Read from the start, the lines close what they open and nothing else. -/
structure Balanced (lines : List (List Char)) : Prop where
  closed : ∀ s ∈ (scans [] lines).getLast?, s.opened = []
  balance : balance (scans [] lines) = 0
  nonneg : ∀ n, 0 ≤ Layout.balance ((scans [] lines).take n)
  unclamped : Unclamped 0 [] lines

section Balance

variable {opened : List Opening} {lines : List (List Char)} {depth : Nat}

theorem balance_cons (s : Scan) (ss : List Scan) : balance (s :: ss) = s.net + balance ss := by
  simp [balance]

/-- The start of a line. -/
def Point.line (depth : Nat) (opened : List Opening) : Point := ⟨depth, { opened }⟩

theorem Level.step {raw : List Char} (h : Level (.line depth opened) (raw :: lines)) :
    let s := scanFrom 0 { opened } (trim raw)
    s.lead ≤ depth ∧ 0 ≤ depth + s.net ∧ Level (.line (depth + s.net).toNat s.opened) lines := by
  intro s
  have hs : scanFrom 0 { opened } raw = s := (scanFrom_trim _ raw).symm
  obtain ⟨hlead, htotal, hnext⟩ := h
  simp only [Point.line, Point.read, Point.total, Point.nextLine, hs] at hlead htotal hnext
  refine ⟨by omega, htotal, ?_⟩
  rw [Point.line, Int.toNat_of_nonneg htotal]
  exact hnext

section

variable (h : Level (.line depth opened) lines)

include h

theorem Level.unclamped : Unclamped depth opened lines := by
  induction lines generalizing depth opened with
  | nil => trivial
  | cons raw lines ih =>
    obtain ⟨hlead, htotal, hnext⟩ := h.step
    exact ⟨hlead, htotal, ih hnext⟩

theorem Level.balance_eq : depth + balance (scans opened lines) = 0 := by
  induction lines generalizing depth opened with
  | nil => simpa [Level, Point.line, Point.total, scans, balance] using h.2
  | cons raw lines ih =>
    obtain ⟨-, htotal, hnext⟩ := h.step
    have hrest := ih hnext
    rw [scans, balance_cons]
    omega

theorem Level.nonneg (n : Nat) : 0 ≤ depth + balance ((scans opened lines).take n) := by
  induction lines generalizing depth opened n with
  | nil => simp [scans, balance]
  | cons raw lines ih =>
    obtain ⟨-, htotal, hnext⟩ := h.step
    cases n with
    | zero => simp [balance]
    | succ n =>
      have hrest := ih hnext n
      rw [scans, List.take_succ_cons, balance_cons]
      omega

theorem Level.closed : ((scans opened lines).getLast?.map Scan.opened).getD opened = [] := by
  induction lines generalizing depth opened with
  | nil => exact h.1
  | cons raw lines ih =>
    obtain ⟨-, -, hnext⟩ := h.step
    have hrest := ih hnext
    rw [scans, List.getLast?_cons]
    cases hlast : (scans (scanFrom 0 { opened } (trim raw)).opened lines).getLast? with
    | none => simpa [hlast] using hrest
    | some s => simpa [hlast] using hrest

end

/-- Code that ends level is balanced. -/
theorem Level.balanced (h : Level Point.start lines) : Balanced lines := by
  have h : Level (.line 0 []) lines := h
  refine ⟨fun s hs => ?_, ?_, fun n => ?_, h.unclamped⟩
  · have hclosed := h.closed
    rw [Option.mem_def.mp hs] at hclosed
    exact hclosed
  · simpa using h.balance_eq
  · simpa using h.nonneg n

theorem Level.of_append_nil {p : Point} (h : Level p (lines ++ [[]])) : Level p lines := by
  induction lines generalizing p with
  | nil => exact ⟨h.2.2.1, (Point.total_nextLine p).symm.trans h.2.2.2⟩
  | cons line lines ih => exact ⟨h.1, h.2.1, ih h.2.2⟩

theorem cutLines_newline (cs ds : List Char) :
    cutLines (cs ++ '\n' :: ds) = cutLines cs ++ cutLines ds := by
  induction cs with
  | nil => rfl
  | cons c cs ih =>
    obtain ⟨line, lines, hcut⟩ := exists_cutLines cs
    rw [List.cons_append, cutLines, cutLines, ih]
    split
    · rfl
    · rw [hcut]
      rfl

open Js in
theorem cutLines_linesText (texts : List String) :
    cutLines (linesText texts) = (texts.flatMap fun t => cutLines t.toList) ++ [[]] := by
  induction texts with
  | nil => rfl
  | cons t texts ih =>
    rw [linesText_cons, cutLines_newline, ih, List.flatMap_cons, List.append_assoc]

/-- Texts that are neutral with a line feed behind each are balanced, line by line. -/
theorem balanced_of_lines {texts : List String} (h : Js.Lines [] [] texts) :
    Balanced (texts.flatMap fun t => cutLines t.toList) := by
  have hends : EndsLevel Point.start (Js.linesText texts) := (Moves.neutral h).endsLevel
  rw [EndsLevel, cutLines_linesText] at hends
  exact hends.of_append_nil.balanced

end Balance

end Layout

end RustScript
