/-
  Templates are read as they are written.

  Runs of braces such as `{{{}}}` can be taken apart in more than one way; the reading from left to
  right is the one that undoes the writing (`render`). What stops it is a brace that is neither
  doubled nor part of a placeholder (`Meets`).
-/
import Mathlib.Data.List.Chain
import RustScript.Macro.Expand
import RustScript.Proofs.Text.Trim

namespace RustScript

/-- What stands between the braces of a placeholder. -/
def Placeholder.inner (p : Placeholder) : List Char :=
  if p.spec.isEmpty then p.key.toList else p.key.toList ++ ':' :: p.spec.toList

/-- Whether the key and the specification have no blanks around them and end where they should. -/
def Placeholder.isPlain (p : Placeholder) : Bool :=
  Text.strip p.key == p.key && !p.key.toList.any ['\x7b', '\x7d', ':'].contains &&
    Text.strip p.spec == p.spec && !p.spec.toList.contains '\x7d'

namespace Template

/-! ## Writing -/

/-- A character of a text in a template: a brace is doubled. -/
def doubled (c : Char) : List Char := if c = '\x7b' ∨ c = '\x7d' then [c, c] else [c]

/-- How a piece is written. -/
def Piece.written : Piece → List Char
  | .text value => value.toList.flatMap doubled
  | .slot p => '\x7b' :: (p.inner ++ ['\x7d'])

/-- The template that is written for the pieces. -/
def render (pieces : List Piece) : String := String.ofList (pieces.flatMap Piece.written)

/-- Whether a piece can be told from its template: no text is empty. -/
def Piece.isPlain : Piece → Bool
  | .text value => !value.isEmpty
  | .slot p => p.isPlain

/-! ## Steps of the reading -/

section Steps

variable {template : String} {buffer inner cs : List Char}

theorem piecesFrom_skip (passed : List Char) :
    piecesFrom template passed.length buffer (passed ++ cs) = piecesFrom template 0 buffer cs := by
  induction passed with
  | nil => rfl
  | cons c passed ih => exact ih

theorem piecesFrom_doubled (c : Char) :
    piecesFrom template 0 buffer (doubled c ++ cs) = piecesFrom template 0 (c :: buffer) cs := by
  unfold doubled
  split
  · next hc =>
    have hskip : piecesFrom template 1 (c :: buffer) (c :: cs) =
        piecesFrom template 0 (c :: buffer) cs := piecesFrom_skip [c]
    rcases hc with rfl | rfl <;> exact hskip
  · next hc =>
    rw [not_or] at hc
    rw [List.singleton_append, piecesFrom, if_neg (by simpa using hc.1),
      if_neg (by simpa using hc.2)]

theorem head?_append_ne {c d : Char} (hinner : inner.head? ≠ some c) (hd : d ≠ c) :
    (inner ++ d :: cs).head? ≠ some c := by
  cases inner with
  | nil => exact fun h => hd (Option.some.inj h)
  | cons => exact hinner

theorem piecesFrom_slot (hopen : inner.head? ≠ some '\x7b') (hclose : '\x7d' ∉ inner) :
    piecesFrom template 0 buffer ('\x7b' :: (inner ++ '\x7d' :: cs)) =
      (piecesFrom template 0 [] cs).map fun rest =>
        flush buffer (.slot (placeholder inner) :: rest) := by
  have hsingle : (inner ++ '\x7d' :: cs).head? ≠ some '\x7b' := head?_append_ne hopen (by decide)
  have hpassed : piecesFrom template (inner.length + 1) [] (inner ++ '\x7d' :: cs) =
      piecesFrom template 0 [] cs := by
    rw [List.append_cons, ← piecesFrom_skip (inner ++ ['\x7d']), List.length_append]
    rfl
  rw [piecesFrom, if_pos (by decide), if_neg (by simpa using hsingle), if_pos (by simp)]
  dsimp only
  rw [Text.takeWhile_ne_append hclose, hpassed]
  cases piecesFrom template 0 [] cs <;> rfl

end Steps

/-! ## Reading what was written -/

section Written

variable {template : String} {buffer : List Char}

theorem piecesFrom_text (value cs : List Char) :
    piecesFrom template 0 buffer (value.flatMap doubled ++ cs) =
      piecesFrom template 0 (value.reverse ++ buffer) cs := by
  induction value generalizing buffer with
  | nil => rfl
  | cons c value ih =>
    rw [List.flatMap_cons, List.append_assoc, piecesFrom_doubled, ih, List.reverse_cons,
      List.append_assoc]
    rfl

theorem flush_reverse {value : String} (h : value.isEmpty = false) (pieces : List Piece) :
    flush value.toList.reverse pieces = .text value :: pieces := by
  have hne : value.toList.reverse.isEmpty = false := by simpa [String.isEmpty_iff] using h
  rw [flush, hne, List.reverse_reverse, String.ofList_toList]
  rfl

/-- The key ends at the first colon, since it has none. -/
theorem placeholder_inner {p : Placeholder} (h : p.isPlain = true) :
    placeholder p.inner = p ∧ p.inner.head? ≠ some '\x7b' ∧ '\x7d' ∉ p.inner := by
  obtain ⟨key, spec⟩ := p
  simp only [Placeholder.isPlain, Bool.and_eq_true, beq_iff_eq, Bool.not_eq_true',
    List.any_eq_false, List.contains_eq_mem, decide_eq_true_eq, decide_eq_false_iff_not] at h
  obtain ⟨⟨⟨hkey, hfree⟩, hspec⟩, hend⟩ := h
  have hcolon : ':' ∉ key.toList := fun hmem => hfree _ hmem (by simp)
  have hopen : '\x7b' ∉ key.toList := fun hmem => hfree _ hmem (by simp)
  have hclose : '\x7d' ∉ key.toList := fun hmem => hfree _ hmem (by simp)
  have hfront : key.toList.head? ≠ some '\x7b' := fun hhead => hopen (List.mem_of_mem_head? hhead)
  rw [Text.strip] at hkey hspec
  unfold Placeholder.inner placeholder
  dsimp only
  split
  · next hempty =>
    have hall : ∀ c ∈ key.toList, (c != ':') = true := fun c hc =>
      bne_iff_ne.mpr fun heq => hcolon (heq ▸ hc)
    rw [List.takeWhile_eq_self_iff.mpr hall, List.dropWhile_eq_nil_iff.mpr hall, hkey,
      String.isEmpty_iff.mp hempty]
    exact ⟨rfl, hfront, hclose⟩
  · rw [Text.takeWhile_ne_append hcolon, Text.dropWhile_ne_append hcolon, List.drop_one,
      List.tail_cons, hkey, hspec]
    refine ⟨rfl, head?_append_ne hfront (by decide), fun hmem => ?_⟩
    rcases List.mem_append.mp hmem with hmem | hmem
    · exact hclose hmem
    · exact hend ((List.mem_cons.mp hmem).resolve_left (by decide))

/-- By induction on the pieces. Text is held back until a placeholder or the end comes, so the next
    piece may be a text only if none is held back. -/
theorem piecesFrom_written {pieces : List Piece} (hplain : pieces.all Piece.isPlain = true)
    (hchain : pieces.IsChain fun a b => Macro.isSlot a || Macro.isSlot b)
    (hbuffer : buffer = [] ∨ ∀ piece ∈ pieces.head?, Macro.isSlot piece = true) :
    piecesFrom template 0 buffer (pieces.flatMap Piece.written) = .ok (flush buffer pieces) := by
  induction pieces generalizing buffer with
  | nil => rfl
  | cons piece pieces ih =>
    rw [List.all_cons, Bool.and_eq_true] at hplain
    have hnext := List.isChain_cons.mp hchain
    rw [List.flatMap_cons]
    cases piece with
    | text value =>
      obtain rfl : buffer = [] := hbuffer.resolve_right fun h => by cases h _ rfl
      have hvalue : value.isEmpty = false := by simpa [Piece.isPlain] using hplain.1
      have hslot : ∀ piece ∈ pieces.head?, Macro.isSlot piece = true := fun piece hpiece => by
        simpa [Macro.isSlot] using hnext.1 piece hpiece
      rw [Piece.written, piecesFrom_text, List.append_nil, ih hplain.2 hnext.2 (.inr hslot),
        flush_reverse hvalue]
      rfl
    | slot p =>
      obtain ⟨hsame, hopen, hclose⟩ := placeholder_inner hplain.1
      rw [Piece.written, List.cons_append, List.append_assoc, List.singleton_append,
        piecesFrom_slot hopen hclose, hsame, ih hplain.2 hnext.2 (.inl rfl)]
      rfl

end Written

/-! ## Braces that stop the reading -/

/-- What a brace can lack. -/
inductive Flaw where
  | unclosed
  | unmatched

/-- How a flaw is reported. -/
def Flaw.error (template : String) : Flaw → Error
  | unclosed => .mistake (.unclosedPlaceholder template)
  | unmatched => .mistake (.unmatchedBrace template)

/-- The reading from left to right, past characters, doubled braces and placeholders, comes to a
    brace with a flaw. -/
inductive Meets : List Char → Flaw → Prop
  | unclosed {cs : List Char} (hsingle : cs.head? ≠ some '\x7b') (hclose : '\x7d' ∉ cs) :
    Meets ('\x7b' :: cs) .unclosed
  | unmatched {cs : List Char} (hsingle : cs.head? ≠ some '\x7d') : Meets ('\x7d' :: cs) .unmatched
  | text {c : Char} {cs : List Char} {flaw : Flaw} (h : Meets cs flaw) : Meets (doubled c ++ cs) flaw
  | slot {inner cs : List Char} {flaw : Flaw} (hsingle : inner.head? ≠ some '\x7b')
      (hclose : '\x7d' ∉ inner) (h : Meets cs flaw) :
    Meets ('\x7b' :: (inner ++ '\x7d' :: cs)) flaw

theorem front_cases (cs : List Char) :
    cs = [] ∨ (∃ c rest, cs = doubled c ++ rest) ∨
      (∃ inner rest, cs = '\x7b' :: (inner ++ '\x7d' :: rest) ∧ inner.head? ≠ some '\x7b' ∧
        '\x7d' ∉ inner) ∨
      ∃ flaw, Meets cs flaw := by
  cases cs with
  | nil => exact .inl rfl
  | cons c cs =>
    have hdouble (hc : c = '\x7b' ∨ c = '\x7d') (hhead : cs.head? = some c) :
        ∃ d rest, c :: cs = doubled d ++ rest := by
      obtain ⟨rest, rfl⟩ := List.head?_eq_some_iff.mp hhead
      exact ⟨c, rest, by rw [doubled, if_pos hc]; rfl⟩
    by_cases hopen : c = '\x7b'
    · by_cases hhead : cs.head? = some c
      · exact .inr (.inl (hdouble (.inl hopen) hhead))
      subst hopen
      by_cases hclose : '\x7d' ∈ cs
      · obtain ⟨inner, rest, rfl, hinner⟩ := List.eq_append_cons_of_mem hclose
        refine .inr (.inr (.inl ⟨inner, rest, rfl, fun h => hhead ?_, hinner⟩))
        rw [List.head?_append, h]
        rfl
      · exact .inr (.inr (.inr ⟨.unclosed, .unclosed hhead hclose⟩))
    by_cases hclose : c = '\x7d'
    · by_cases hhead : cs.head? = some c
      · exact .inr (.inl (hdouble (.inr hclose) hhead))
      subst hclose
      exact .inr (.inr (.inr ⟨.unmatched, .unmatched hhead⟩))
    · refine .inr (.inl ⟨c, cs, ?_⟩)
      rw [doubled, if_neg (not_or.mpr ⟨hopen, hclose⟩)]
      rfl

theorem length_doubled_pos (c : Char) : 0 < (doubled c).length := by
  unfold doubled
  split <;> exact Nat.succ_pos _

section Flaws

variable {template : String} {buffer cs : List Char} {flaw : Flaw} {e : Error}

theorem Meets.piecesFrom (h : Meets cs flaw) :
    Template.piecesFrom template 0 buffer cs = .error (flaw.error template) := by
  induction h generalizing buffer with
  | unclosed hsingle hclose =>
    rw [Template.piecesFrom, if_pos (by decide), if_neg (by simpa using hsingle),
      if_neg (by simpa using hclose)]
    rfl
  | unmatched hsingle =>
    rw [Template.piecesFrom, if_neg (by decide), if_pos (by decide),
      if_neg (by simpa using hsingle)]
    rfl
  | text _ ih => rw [piecesFrom_doubled, ih]
  | slot hsingle hclose _ ih =>
    rw [piecesFrom_slot hsingle hclose, ih]
    rfl

/-- By induction on the length, since the reading goes on behind a whole placeholder. -/
theorem exists_meets (n : Nat) (hn : cs.length < n)
    (h : piecesFrom template 0 buffer cs = .error e) :
    ∃ flaw, Meets cs flaw ∧ e = flaw.error template := by
  induction n generalizing buffer cs with
  | zero => omega
  | succ n ih =>
    rcases front_cases cs with rfl | ⟨c, rest, rfl⟩ | ⟨inner, rest, rfl, hsingle, hclose⟩ |
      ⟨flaw, hmeets⟩
    · cases h
    · have hshort : rest.length < n := by
        have hpos := length_doubled_pos c
        rw [List.length_append] at hn
        omega
      rw [piecesFrom_doubled] at h
      obtain ⟨flaw, hmeets, rfl⟩ := ih hshort h
      exact ⟨flaw, .text hmeets, rfl⟩
    · have hshort : rest.length < n := by
        simp only [List.length_cons, List.length_append] at hn
        omega
      rw [piecesFrom_slot hsingle hclose] at h
      cases hrest : piecesFrom template 0 [] rest with
      | ok pieces =>
        rw [hrest] at h
        cases h
      | error e' =>
        rw [hrest] at h
        cases h
        obtain ⟨flaw, hmeets, rfl⟩ := ih hshort hrest
        exact ⟨flaw, .slot hsingle hclose hmeets, rfl⟩
    · rw [hmeets.piecesFrom] at h
      exact ⟨flaw, hmeets, (Except.error.inj h).symm⟩

end Flaws

/-- Reading undoes writing: a template that is made of pieces, no text empty and no two texts side
    by side, is read as these pieces. A template cannot be read exactly if the reading comes to an
    opening brace that is single and never closed or to a closing brace that is single and closes
    nothing, and the error says which. -/
theorem template_reading_undoes_writing :
    (∀ pieces : List Piece, pieces.all Piece.isPlain = true →
      (pieces.IsChain fun a b => Macro.isSlot a || Macro.isSlot b) →
      Template.pieces (render pieces) = .ok pieces) ∧
    ∀ (template : String) (e : Error), Template.pieces template = .error e ↔
      ∃ flaw, Meets template.toList flaw ∧ e = flaw.error template := by
  refine ⟨fun pieces hplain hchain => ?_, fun template e => ⟨fun h => ?_, ?_⟩⟩
  · rw [Template.pieces, render, String.toList_ofList, piecesFrom_written hplain hchain (.inl rfl)]
    rfl
  · exact exists_meets _ (Nat.lt_succ_self _) h
  · rintro ⟨flaw, hmeets, rfl⟩
    exact hmeets.piecesFrom

/-- Braces of the text beside placeholders, and a specification with a colon and an opening brace. -/
theorem braces_beside_placeholders_are_read :
    Template.pieces (render [.text "\x7b", .slot {}, .text "\x7d\x7d", .slot ⟨"x", ":\x7b>8"⟩,
        .slot ⟨"0", "?"⟩]) =
      .ok [.text "\x7b", .slot {}, .text "\x7d\x7d", .slot ⟨"x", ":\x7b>8"⟩, .slot ⟨"0", "?"⟩] :=
  template_reading_undoes_writing.1 _ (by decide +kernel) (by decide +kernel)

end Template

end RustScript
