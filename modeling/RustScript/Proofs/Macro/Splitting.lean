/-
  Where tokens are cut.

  `Reads` follows the reading of one part with what stands behind it in view, since a literal is
  found by looking ahead. Tokens split into parts exactly if they are such stretches with separators
  between them (`split_eq_ok_iff`).
-/
import RustScript.Js.Print
import RustScript.Proofs.Macro.Lookahead
import RustScript.Proofs.Outcome

namespace RustScript.Arguments

open Text (isBlank)

/-! ## Reading a part -/

/-- Whether a character outside literals ends a part. -/
def isCut (sep : Char) (closers : List Char) (c : Char) : Bool :=
  (closer? c).isNone && !isCloser c && c == sep && closers.isEmpty

/-- The brackets due after a character outside literals, none if it closes what is not open. -/
def closersAfter? (closers : List Char) (c : Char) : Option (List Char) :=
  match closer? c with
  | some closing => some (closing :: closers)
  | none =>
    if isCloser c then
      match closers with
      | closing :: rest => if closing == c then some rest else none
      | [] => none
    else some closers

variable {tokens : String} {sep : Char} {p q : Progress} {previous : Option Char} {cs : List Char}
  {c : Char} {parts : List String}

theorem step_of_isCut (h : isCut sep p.closers c = true) : p.step tokens sep c = .ok p.cut := by
  simp only [isCut, Bool.and_eq_true, Bool.not_eq_true', Option.isNone_iff_eq_none] at h
  obtain ⟨⟨⟨hopen, hclose⟩, hsep⟩, hempty⟩ := h
  simp [Progress.step, hopen, hclose, hsep, hempty]

theorem step_eq_ok_iff (h : isCut sep p.closers c = false) :
    p.step tokens sep c = .ok q ↔
      ∃ closers, closersAfter? p.closers c = some closers ∧ q = { p.keep c with closers } := by
  unfold Progress.step closersAfter?
  cases hopen : closer? c with
  | some closing => simp [eq_comm]
  | none =>
    cases hclose : isCloser c with
    | true =>
      simp only [if_true]
      cases p.closers with
      | nil => simp
      | cons closing rest =>
        dsimp only
        split <;> simp [eq_comm]
    | false =>
      have hsep : (c == sep && p.closers.isEmpty) = false := by simpa [isCut, hopen, hclose] using h
      simp only [Bool.false_eq_true, if_false, hsep]
      simp [eq_comm, Progress.keep]

/-- The reading of a stretch in front of `rest`: `skip` characters belong to a literal, `previous`
    stands before and `closers` are due. No separator is met outside brackets, and at the end
    nothing is open. Only at the end of the text may a literal miss its end. -/
inductive Reads (sep : Char) (rest : List Char) :
    (skip : Nat) → (previous : Option Char) → (closers chunk : List Char) → Prop
  | stop {skip : Nat} {previous : Option Char} (h : skip = 0 ∨ rest = []) :
    Reads sep rest skip previous [] []
  | inside {skip : Nat} {previous : Option Char} {c : Char} {closers cs : List Char}
      (h : Reads sep rest skip (some c) closers cs) :
    Reads sep rest (skip + 1) previous closers (c :: cs)
  | literal {n : Nat} {previous : Option Char} {c : Char} {closers cs : List Char}
      (hstarts : Starts previous c (cs ++ rest) (n + 1)) (h : Reads sep rest n (some c) closers cs) :
    Reads sep rest 0 previous closers (c :: cs)
  | plain {previous : Option Char} {c : Char} {closers closers' cs : List Char}
      (hstarts : Starts previous c (cs ++ rest) 0) (hcut : isCut sep closers c = false)
      (hclosers : closersAfter? closers c = some closers')
      (h : Reads sep rest 0 (some c) closers' cs) :
    Reads sep rest 0 previous closers (c :: cs)

/-- The progress behind a stretch that closes its brackets. -/
def Progress.take (p : Progress) (chunk : List Char) : Progress :=
  { p with part := chunk.reverse ++ p.part, closers := [] }

theorem Progress.take_nil (h : p.closers = []) : p.take [] = p := by
  cases p
  cases h
  rfl

theorem Progress.take_keep (p : Progress) (c : Char) (closers chunk : List Char) :
    ({ p.keep c with closers } : Progress).take chunk = p.take (c :: chunk) := by
  simp [Progress.take, Progress.keep]

theorem Reads.scan {rest closers chunk : List Char} {skip : Nat}
    (h : Reads sep rest skip previous closers chunk) (tokens : String) (p : Progress)
    (hp : p.closers = closers) :
    ∃ skip' previous', (skip' = 0 ∨ rest = []) ∧
      Arguments.scan tokens sep skip previous p (chunk ++ rest) =
        Arguments.scan tokens sep skip' previous' (p.take chunk) rest := by
  induction h generalizing p with
  | @stop skip previous hskip =>
    refine ⟨skip, previous, hskip, ?_⟩
    rw [Progress.take_nil hp, List.nil_append]
  | @inside skip previous c closers cs _ ih =>
    obtain ⟨skip', previous', hskip, hscan⟩ := ih (p.keep c) hp
    refine ⟨skip', previous', hskip, ?_⟩
    rw [List.cons_append, Arguments.scan, hscan]
    exact congrArg (Arguments.scan _ _ _ _ · _) (p.take_keep c p.closers cs)
  | @literal n previous c closers cs hstarts _ ih =>
    obtain ⟨skip', previous', hskip, hscan⟩ := ih (p.keep c) hp
    refine ⟨skip', previous', hskip, ?_⟩
    rw [List.cons_append, Arguments.scan, literalLength_eq_ok_iff.mpr hstarts]
    refine hscan.trans ?_
    exact congrArg (Arguments.scan _ _ _ _ · _) (p.take_keep c p.closers cs)
  | @plain previous c closers closers' cs hstarts hcut hclosers _ ih =>
    subst hp
    obtain ⟨skip', previous', hskip, hscan⟩ := ih { p.keep c with closers := closers' } rfl
    refine ⟨skip', previous', hskip, ?_⟩
    have hstep : p.step tokens sep c = .ok { p.keep c with closers := closers' } :=
      (step_eq_ok_iff hcut).mpr ⟨closers', hclosers, rfl⟩
    rw [List.cons_append, Arguments.scan, literalLength_eq_ok_iff.mpr hstarts]
    rw [← p.take_keep c closers' cs, ← hscan]
    exact congrArg (· >>= fun q => Arguments.scan tokens sep 0 (some c) q (cs ++ rest)) hstep

/-- A reading that ends well goes through one stretch up to a separator or the end. -/
theorem exists_reads {skip : Nat} (h : scan tokens sep skip previous p cs = .ok q)
    (hq : q.closers = []) :
    ∃ chunk rest, cs = chunk ++ rest ∧ Reads sep rest skip previous p.closers chunk ∧
      (rest = [] ∧ q = p.take chunk ∨ ∃ after, rest = sep :: after ∧
          scan tokens sep 0 (some sep) (p.take chunk).cut after = .ok q) := by
  induction cs generalizing skip previous p with
  | nil =>
    cases h
    refine ⟨[], [], rfl, ?_, .inl ⟨rfl, (Progress.take_nil hq).symm⟩⟩
    rw [hq]
    exact .stop (.inr rfl)
  | cons c cs ih =>
    cases skip with
    | succ skip =>
      obtain ⟨chunk, rest, rfl, hreads, hend⟩ := ih h
      refine ⟨c :: chunk, rest, rfl, .inside hreads, ?_⟩
      rwa [← p.take_keep c p.closers]
    | zero =>
      obtain ⟨m, hm, h⟩ := exists_of_bind_eq_ok h
      have hstarts := literalLength_eq_ok_iff.mp hm
      cases m with
      | succ n =>
        obtain ⟨chunk, rest, rfl, hreads, hend⟩ := ih h
        refine ⟨c :: chunk, rest, rfl, .literal hstarts hreads, ?_⟩
        rwa [← p.take_keep c p.closers]
      | zero =>
        obtain ⟨after, hstep, h⟩ := exists_of_bind_eq_ok h
        cases hcut : isCut sep p.closers c with
        | true =>
          rw [step_of_isCut hcut] at hstep
          cases hstep
          simp only [isCut, Bool.and_eq_true, beq_iff_eq, List.isEmpty_iff] at hcut
          obtain ⟨⟨-, rfl⟩, hclosers⟩ := hcut
          refine ⟨[], c :: cs, rfl, ?_, .inr ⟨cs, rfl, ?_⟩⟩
          · rw [hclosers]
            exact .stop (.inl rfl)
          · rwa [Progress.take_nil hclosers]
        | false =>
          obtain ⟨closers, hclosers, rfl⟩ := (step_eq_ok_iff hcut).mp hstep
          obtain ⟨chunk, rest, rfl, hreads, hend⟩ := ih h
          refine ⟨c :: chunk, rest, rfl, .plain hstarts hcut hclosers hreads, ?_⟩
          rwa [← p.take_keep c closers]

/-! ## Other surroundings -/

namespace Reads

variable {rest closers chunk : List Char} {sep : Char} {skip : Nat} {previous : Option Char}
  {previous' : Option Char}

theorem le_length (h : Reads sep rest skip previous closers chunk) :
    skip ≤ chunk.length ∨ rest = [] := by
  induction h with
  | stop h => exact h.imp_left fun hskip => by omega
  | inside _ ih => exact ih.imp_left Nat.succ_le_succ
  | literal | plain => exact .inl (Nat.zero_le _)

theorem exceeding (h : chunk.length ≤ skip) : Reads sep [] skip previous [] chunk := by
  induction chunk generalizing skip previous with
  | nil => exact .stop (.inr rfl)
  | cons c cs ih =>
    rw [List.length_cons] at h
    obtain ⟨skip, rfl⟩ : ∃ k, skip = k + 1 := ⟨skip - 1, by omega⟩
    exact .inside (ih (by omega))

theorem closers_of_exceeding (h : Reads sep rest skip previous closers chunk)
    (hskip : chunk.length < skip) : closers = [] := by
  induction h with
  | stop => rfl
  | inside _ ih => exact ih (Nat.lt_of_succ_lt_succ hskip)
  | literal | plain => omega

theorem not_starts_of_isBlank {c : Char} {n : Nat} (hc : isBlank c = true)
    (h : Starts previous c cs n) : n = 0 := by
  cases h with
  | string | raw | char => cases hc
  | none => rfl

theorem closersAfter?_of_isBlank {c : Char} (hc : isBlank c = true) (closers : List Char) :
    closersAfter? closers c = some closers := by
  have hne (d : Char) (hd : isBlank d = false) : (c == d) = false := by
    refine beq_eq_false_iff_ne.mpr ?_
    rintro rfl
    rw [hc] at hd
    cases hd
  have hopen : closer? c = none := by
    simp [closer?, hne _ (show isBlank '(' = false by decide),
      hne _ (show isBlank '[' = false by decide),
      hne _ (show isBlank '\x7b' = false by decide)]
  have hclose : isCloser c = false := by
    simp [isCloser, hne _ (show isBlank ')' = false by decide),
      hne _ (show isBlank ']' = false by decide),
      hne _ (show isBlank '\x7d' = false by decide)]
  simp [closersAfter?, hopen, hclose]

theorem closers_of_blanks (h : Reads sep rest 0 previous closers chunk)
    (hchunk : chunk.all isBlank = true) : closers = [] := by
  generalize hskip : 0 = skip at h
  induction h with
  | stop => rfl
  | inside => omega
  | literal hstarts =>
    rw [List.all_cons, Bool.and_eq_true] at hchunk
    cases not_starts_of_isBlank hchunk.1 hstarts
  | plain _ _ hclosers _ ih =>
    rw [List.all_cons, Bool.and_eq_true] at hchunk
    rw [closersAfter?_of_isBlank hchunk.1] at hclosers
    rw [Option.some.inj hclosers]
    exact ih hchunk.2 hskip

/-- A stretch is read as before without the blanks at its end and with other things behind it. What
    is passed over of a literal has to end before the blanks. -/
theorem respace {bs rest' : List Char} (h : Reads sep rest skip previous closers (chunk ++ bs))
    (hbs : bs.all isBlank = true) (hrest : rest.head? ≠ some '\'')
    (hrest' : rest' = [] ∨ rest ≠ [] ∧ ∃ after, rest' = ',' :: ' ' :: after)
    (hprevious : previous'.any isWordChar = previous.any isWordChar)
    (hskip : skip = 0 ∨ (∃ d, (chunk ++ bs)[skip - 1]? = some d ∧ isBlank d = false) ∨
      rest = [] ∧ (chunk ++ bs).length < skip) : Reads sep rest' skip previous' closers chunk := by
  have hnil (h : rest = []) : rest' = [] := hrest'.resolve_right fun h' => h'.1 h
  have hblank {d : Char} (hd : d ∈ bs) : isBlank d = true := List.all_eq_true.mp hbs d hd
  have hbehind : (bs ++ rest).head? ≠ some '\'' := by
    cases bs with
    | nil => exact hrest
    | cons d bs =>
      intro heq
      have hd := hblank (d := '\'') (by rw [Option.some.inj heq]; exact List.mem_cons_self)
      cases hd
  generalize hall : chunk ++ bs = all at h hskip
  induction h generalizing chunk previous' with
  | stop h =>
    obtain ⟨rfl, rfl⟩ := List.append_eq_nil_iff.mp hall
    exact .stop (h.imp_right hnil)
  | @inside skip previous c closers cs hreads ih =>
    cases chunk with
    | nil =>
      rcases hskip with hzero | ⟨d, hd, hnot⟩ | ⟨hend, hlong⟩
      · cases hzero
      · have hd := hblank (hall ▸ List.mem_of_getElem? hd)
        rw [hd] at hnot
        cases hnot
      · rw [hnil hend, hreads.closers_of_exceeding (Nat.lt_of_succ_lt_succ hlong)]
        exact .stop (.inr rfl)
    | cons x chunk =>
      cases hall
      refine .inside (ih rfl rfl ?_)
      rcases hskip with hzero | ⟨d, hd, hnot⟩ | ⟨hend, hlong⟩
      · cases hzero
      · cases skip with
        | zero => exact .inl rfl
        | succ skip => exact .inr (.inl ⟨d, hd, hnot⟩)
      · exact .inr (.inr ⟨hend, Nat.lt_of_succ_lt_succ hlong⟩)
  | @literal n previous c closers cs hstarts hreads ih =>
    cases chunk with
    | nil =>
      rw [List.nil_append] at hall
      cases not_starts_of_isBlank (hblank (hall ▸ List.mem_cons_self)) hstarts
    | cons x chunk =>
      rw [List.cons_append] at hall
      cases hall
      rcases hstarts.last with ⟨hpos, d, hd, hnot⟩ | ⟨rfl, hhead, hno, hlong⟩
      · -- the literal ends inside the stretch, and before the blanks
        have hinside : n ≤ (chunk ++ bs).length := by
          rcases hreads.le_length with hle | rfl
          · exact hle
          · have hlt := (List.getElem?_eq_some_iff.mp hd).1
            rw [List.append_nil] at hlt
            omega
        rw [List.getElem?_append_left (by omega)] at hd
        have hbefore : n ≤ chunk.length := by
          by_contra hlater
          rw [List.getElem?_append_right (by omega)] at hd
          rw [hblank (List.mem_of_getElem? hd)] at hnot
          cases hnot
        rw [List.append_assoc] at hstarts
        exact .literal (hstarts.append hbefore hbehind hprevious)
          (ih rfl rfl (.inr (.inl ⟨d, hd, hnot⟩)))
      · obtain rfl : rest = [] := by
          rw [List.length_append] at hlong
          exact hreads.le_length.resolve_left (by omega)
        rw [List.append_nil] at hhead hno hlong
        obtain ⟨n', hstarts', hle⟩ : ∃ n, Starts previous' '\'' chunk (n + 1) ∧ chunk.length ≤ n :=
          Starts.unended hhead hno hbs
        rw [hnil rfl, hreads.closers_of_exceeding hlong]
        exact .literal (by rwa [List.append_nil]) (exceeding hle)
  | @plain previous c closers closers' cs hstarts hcut hclosers hreads ih =>
    cases chunk with
    | nil =>
      subst hall
      rw [List.all_cons, Bool.and_eq_true] at hbs
      rw [closersAfter?_of_isBlank hbs.1] at hclosers
      rw [Option.some.inj hclosers, hreads.closers_of_blanks hbs.2]
      exact .stop (.inl rfl)
    | cons x chunk =>
      rw [List.cons_append] at hall
      cases hall
      rw [List.append_assoc] at hstarts
      exact .plain (hstarts.append_none (hrest'.imp_right And.right) hprevious) hcut hclosers
        (ih rfl rfl (.inl rfl))

theorem trimLeft {bs : List Char} (h : Reads sep rest 0 previous [] (bs ++ chunk))
    (hbs : bs.all isBlank = true) (hprevious : previous.any isWordChar = false) :
    ∃ previous', previous'.any isWordChar = false ∧ Reads sep rest 0 previous' [] chunk := by
  induction bs generalizing previous with
  | nil => exact ⟨previous, hprevious, h⟩
  | cons b bs ih =>
    rw [List.all_cons, Bool.and_eq_true] at hbs
    cases h with
    | literal hstarts => cases not_starts_of_isBlank hbs.1 hstarts
    | plain _ _ hclosers h =>
      rw [closersAfter?_of_isBlank hbs.1] at hclosers
      cases hclosers
      refine ih h hbs.2 ?_
      have hne : b ≠ '_' := by
        rintro rfl
        cases hbs.1
      simp [isWordChar, Text.isAlnum_of_isBlank hbs.1, hne]

theorem trim {rest' lead : List Char} (h : Reads ',' rest 0 previous [] chunk)
    (hprevious : previous.any isWordChar = false) (hrest : rest.head? ≠ some '\'')
    (hrest' : rest' = [] ∨ rest ≠ [] ∧ ∃ after, rest' = ',' :: ' ' :: after)
    (hprevious' : previous'.any isWordChar = false) (hlead : lead = [] ∨ lead = [' ']) :
    Reads ',' rest' 0 previous' [] (lead ++ Text.trim chunk) := by
  obtain ⟨before, after, hbefore, hafter, hchunk⟩ := Text.exists_blanks chunk
  rw [hchunk, List.append_assoc] at h
  obtain ⟨inner, hinner, h⟩ := h.trimLeft hbefore hprevious
  rcases hlead with rfl | rfl
  · exact h.respace hafter hrest hrest' (hprevious'.trans hinner.symm) (.inl rfl)
  · have hspace : Starts previous' ' ' (Text.trim chunk ++ rest') 0 :=
      .plain (by decide)
    refine .plain hspace rfl rfl (h.respace hafter hrest hrest' ?_ (.inl rfl))
    exact (show (some ' ').any isWordChar = false by decide).trans hinner.symm

end Reads

/-! ## Tokens in parts -/

/-- Tokens, before which `previous` stands, as stretches with separators between them. -/
inductive Cut (sep : Char) : (previous : Option Char) → List Char → List (List Char) → Prop
  | last {previous : Option Char} {chunk : List Char} (h : Reads sep [] 0 previous [] chunk) :
    Cut sep previous chunk [chunk]
  | more {previous : Option Char} {chunk rest : List Char} {chunks : List (List Char)}
      (h : Reads sep (sep :: rest) 0 previous [] chunk) (hrest : Cut sep (some sep) rest chunks) :
    Cut sep previous (chunk ++ sep :: rest) (chunk :: chunks)

/-- The parts without the last one if nothing is in it. -/
def dropBlankEnd (parts : List String) : List String :=
  if parts.getLast? = some "" then parts.dropLast else parts

theorem scan_sep (hsep : sep = ',' ∨ sep = ';') (tokens : String) (previous : Option Char)
    (hp : p.closers = []) (rest : List Char) :
    scan tokens sep 0 previous p (sep :: rest) = scan tokens sep 0 (some sep) p.cut rest := by
  have hstarts : Starts previous sep rest 0 := by
    rcases hsep with rfl | rfl <;> exact .plain (by decide)
  have hcut : isCut sep p.closers sep = true := by
    rw [hp]
    rcases hsep with rfl | rfl <;> decide
  rw [scan, literalLength_eq_ok_iff.mpr hstarts]
  exact congrArg (· >>= fun q => scan tokens sep 0 (some sep) q rest) (step_of_isCut hcut)

theorem Cut.scan (hsep : sep = ',' ∨ sep = ';') {chunks : List (List Char)}
    (h : Cut sep previous cs chunks) (tokens : String) (hpart : p.part = [])
    (hclosers : p.closers = []) :
    ∃ q, Arguments.scan tokens sep 0 previous p cs = .ok q ∧ q.closers = [] ∧
      Text.trim q.part.reverse :: q.parts = (chunks.map Text.trim).reverse ++ p.parts := by
  induction h generalizing p with
  | @last previous chunk h =>
    obtain ⟨skip, previous', -, hscan⟩ := h.scan tokens p hclosers
    refine ⟨p.take chunk, ?_, rfl, ?_⟩
    · rw [List.append_nil] at hscan
      rw [hscan, Arguments.scan]
    · simp [Progress.take, hpart]
  | @more previous chunk rest chunks h _ ih =>
    obtain ⟨skip, previous', hskip, hscan⟩ := h.scan tokens p hclosers
    obtain rfl : skip = 0 := by simpa using hskip
    obtain ⟨q, hq, hdone, hparts⟩ := ih (p := (p.take chunk).cut) rfl rfl
    refine ⟨q, ?_, hdone, ?_⟩
    · rw [hscan, scan_sep hsep tokens previous' rfl, hq]
    · rw [hparts]
      simp [Progress.cut, Progress.take, hpart]

theorem exists_cut (n : Nat) (hn : cs.length < n) (h : scan tokens sep 0 previous p cs = .ok q)
    (hpart : p.part = []) (hclosers : p.closers = []) (hq : q.closers = []) :
    ∃ chunks, Cut sep previous cs chunks ∧
      Text.trim q.part.reverse :: q.parts = (chunks.map Text.trim).reverse ++ p.parts := by
  induction n generalizing previous p cs with
  | zero => omega
  | succ n ih =>
    obtain ⟨chunk, rest, rfl, hreads, ⟨rfl, rfl⟩ | ⟨after, rfl, hafter⟩⟩ := exists_reads h hq
    · rw [hclosers] at hreads
      rw [List.append_nil]
      exact ⟨[chunk], .last hreads, by simp [Progress.take, hpart]⟩
    · rw [hclosers] at hreads
      have hshort : after.length < n := by
        rw [List.length_append, List.length_cons] at hn
        omega
      obtain ⟨chunks, hcut, hparts⟩ := ih hshort hafter rfl rfl
      refine ⟨chunk :: chunks, .more hreads hcut, ?_⟩
      rw [hparts]
      simp [Progress.cut, Progress.take, hpart]

/-- The parts that the stretches give. -/
def trimmed (chunks : List (List Char)) : List String := (chunks.map Text.trim).map String.ofList

theorem split_eq_of_scan {chunks : List (List Char)}
    (h : scan tokens sep 0 none {} tokens.toList = .ok q) (hq : q.closers = [])
    (hparts : Text.trim q.part.reverse :: q.parts = (chunks.map Text.trim).reverse) :
    split tokens sep = .ok (dropBlankEnd (trimmed chunks)) := by
  have htrimmed : trimmed chunks =
      q.parts.reverse.map String.ofList ++ [String.ofList (Text.trim q.part.reverse)] := by
    have hchunks : chunks.map Text.trim = q.parts.reverse ++ [Text.trim q.part.reverse] := by
      rw [← List.reverse_inj, ← hparts]
      simp
    rw [trimmed, hchunks, List.map_append]
    rfl
  have hsplit : split tokens sep = .ok ((if (Text.trim q.part.reverse).isEmpty then q.parts
      else Text.trim q.part.reverse :: q.parts).reverse.map String.ofList) := by
    unfold split
    rw [h]
    simp only [bind, Except.bind, hq]
    rfl
  rw [hsplit, dropBlankEnd, htrimmed]
  cases hlast : Text.trim q.part.reverse with
  | nil => simp
  | cons c cs => simp

/-- Tokens split into parts exactly if they are stretches with separators between them. -/
theorem split_eq_ok_iff (hsep : sep = ',' ∨ sep = ';') :
    split tokens sep = .ok parts ↔
      ∃ chunks, Cut sep none tokens.toList chunks ∧ parts = dropBlankEnd (trimmed chunks) := by
  constructor
  · intro h
    have hsplit := h
    obtain ⟨q, hscan, h⟩ := exists_of_bind_eq_ok h
    split at h
    · cases h
    · next hq =>
      obtain ⟨chunks, hcut, hparts⟩ := exists_cut _ (Nat.lt_succ_self _) hscan rfl rfl hq
      rw [List.append_nil] at hparts
      rw [split_eq_of_scan hscan hq hparts] at hsplit
      exact ⟨chunks, hcut, (Except.ok.inj hsplit).symm⟩
  · rintro ⟨chunks, hcut, rfl⟩
    obtain ⟨q, hscan, hq, hparts⟩ := hcut.scan hsep tokens (p := {}) rfl rfl
    rw [List.append_nil] at hparts
    exact split_eq_of_scan hscan hq hparts

/-! ## Parts put together again -/

/-- The texts with a comma and a space between them. -/
def joined (texts : List (List Char)) : List Char := [',', ' '].intercalate texts

/-- The stretches of joined texts: the first begins with `lead`, the others with a space. -/
def spaced (lead : List Char) : List (List Char) → List (List Char)
  | [] => []
  | text :: texts => (lead ++ text) :: spaced [' '] texts

theorem joined_singleton (text : List Char) : joined [text] = text := List.intercalate_singleton

theorem toList_commas (texts : List (List Char)) :
    (Js.commas (texts.map String.ofList)).toList = joined texts := by
  simp [Js.commas, joined]

theorem trimmed_spaced {lead : List Char} (hlead : lead.all isBlank = true)
    {texts : List (List Char)} (h : ∀ text ∈ texts, Text.trim text = text) :
    trimmed (spaced lead texts) = texts.map String.ofList := by
  induction texts generalizing lead with
  | nil => rfl
  | cons text texts ih =>
    rw [List.forall_mem_cons] at h
    have hrest : trimmed (spaced [' '] texts) = texts.map String.ofList := ih (by decide) h.2
    rw [trimmed] at hrest ⊢
    rw [spaced, List.map_cons, List.map_cons, hrest, Text.trim_blanks_append hlead, h.1,
      List.map_cons]

namespace Cut

variable {previous previous' : Option Char} {cs : List Char} {chunks : List (List Char)}

theorem drop (hsep : isWordChar sep = false) (h : Cut sep previous cs chunks)
    (hprevious : previous.any isWordChar = false) {k : Nat} (hk : k < chunks.length) :
    ∃ previous' cs', previous'.any isWordChar = false ∧ Cut sep previous' cs' (chunks.drop k) := by
  induction h generalizing k with
  | @last previous chunk h =>
    obtain rfl : k = 0 := by
      rw [List.length_singleton] at hk
      omega
    exact ⟨previous, chunk, hprevious, .last h⟩
  | @more previous chunk rest chunks h hrest ih =>
    cases k with
    | zero => exact ⟨previous, _, hprevious, .more h hrest⟩
    | succ k => exact ih (by simpa using hsep) (Nat.lt_of_succ_lt_succ hk)

theorem respace (h : Cut ',' previous cs chunks) (hprevious : previous.any isWordChar = false)
    {texts : List (List Char)} (hne : texts ≠ []) (htexts : texts <+: chunks.map Text.trim)
    (hprevious' : previous'.any isWordChar = false) {lead : List Char}
    (hlead : lead = [] ∨ lead = [' ']) :
    Cut ',' previous' (lead ++ joined texts) (spaced lead texts) := by
  induction h generalizing texts previous' lead with
  | @last previous chunk h =>
    cases texts with
    | nil => exact absurd rfl hne
    | cons text texts =>
      obtain ⟨rfl, hnil⟩ := List.cons_prefix_cons.mp htexts
      obtain rfl := List.prefix_nil.mp hnil
      rw [joined_singleton]
      exact .last (h.trim hprevious (by simp) (.inl rfl) hprevious' hlead)
  | @more previous chunk rest chunks h _ ih =>
    cases texts with
    | nil => exact absurd rfl hne
    | cons text texts =>
      obtain ⟨rfl, htail⟩ := List.cons_prefix_cons.mp htexts
      cases texts with
      | nil =>
        rw [joined_singleton]
        exact .last (h.trim hprevious (by simp) (.inl rfl) hprevious' hlead)
      | cons next texts =>
        have hrest : Cut ',' (some ',') ([' '] ++ joined (next :: texts))
            (spaced [' '] (next :: texts)) :=
          ih (by decide) (List.cons_ne_nil next texts) htail (by decide) (.inr rfl)
        have hfirst := h.trim hprevious (by simp)
          (.inr ⟨List.cons_ne_nil _ _, joined (next :: texts), rfl⟩) hprevious' hlead
        rw [joined, List.intercalate_cons_cons, List.append_assoc, ← List.append_assoc]
        exact .more hfirst hrest

end Cut

/-- Parts that are put together again are split as before. -/
theorem split_commas (h : split tokens ',' = .ok parts) {k : Nat} (hk : k < parts.length) :
    split (Js.commas (parts.drop k)) ',' = .ok (dropBlankEnd (parts.drop k)) := by
  obtain ⟨chunks, hcut, rfl⟩ := (split_eq_ok_iff (.inl rfl)).mp h
  obtain ⟨texts, htexts, hparts⟩ : ∃ texts, texts <+: chunks.map Text.trim ∧
      dropBlankEnd (trimmed chunks) = texts.map String.ofList := by
    unfold dropBlankEnd trimmed
    split
    · exact ⟨(chunks.map Text.trim).dropLast, List.dropLast_prefix _, by rw [List.map_dropLast]⟩
    · exact ⟨chunks.map Text.trim, List.prefix_refl _, rfl⟩
  rw [hparts, List.length_map] at hk
  rw [hparts, ← List.map_drop]
  have hlength : k < chunks.length := by
    have hle := htexts.length_le
    rw [List.length_map] at hle
    omega
  obtain ⟨previous, cs, hprevious, hrest⟩ := hcut.drop (by decide) rfl hlength
  have hne : texts.drop k ≠ [] := by simpa using hk
  have hfront : texts.drop k <+: (chunks.drop k).map Text.trim := by
    obtain ⟨more, hmore⟩ := htexts
    rw [List.map_drop, ← hmore, List.drop_append_of_le_length (by omega)]
    exact List.prefix_append _ _
  have htrim : ∀ text ∈ texts.drop k, Text.trim text = text := by
    intro text htext
    obtain ⟨chunk, -, rfl⟩ := List.mem_map.mp (hfront.subset htext)
    exact Text.trim_trim chunk
  refine (split_eq_ok_iff (.inl rfl)).mpr ⟨spaced [] (texts.drop k), ?_, ?_⟩
  · rw [toList_commas]
    exact hrest.respace hprevious hne hfront rfl (.inl rfl)
  · rw [trimmed_spaced rfl htrim]

end RustScript.Arguments
