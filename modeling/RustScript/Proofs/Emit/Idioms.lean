/-
  Code of idioms under a policy: it keeps the rules if its parts do, since the fixed pieces around
  them are neutral and hold neither jumps of the source nor `?`.
-/
import RustScript.Proofs.Emit.Gives
import RustScript.Proofs.Idiom.Frames

namespace RustScript

open Js (Policy Around Site)
open Layout (Neutral isPlainText isPlainText_append)

variable {P : Policy}

/-! ## Code from code -/

namespace Js

variable {around : Around} {site : Site} {e : Expr}

theorem Expr.Obeys.parenIf (h : e.Obeys P around) (needed : Bool) :
    (e.parenIf needed).Obeys P around := by
  unfold Expr.parenIf
  split
  · rw [Expr.Obeys]
    exact h
  · exact h

theorem Expr.Obeys.index {e i : Expr} (he : e.Obeys P around) (hi : i.Obeys P around) :
    (Expr.index e i).Obeys P around := by
  rw [Expr.Obeys]
  exact ⟨he, hi⟩

theorem exprsObey_iff {es : List Expr} : exprsObey P around es ↔ ∀ e ∈ es, e.Obeys P around := by
  induction es with
  | nil => simp [exprsObey]
  | cons e es ih => rw [exprsObey, ih, List.forall_mem_cons]

theorem blockObeys_append {ss ts : List Stmt} :
    blockObeys P site (ss ++ ts) ↔ blockObeys P site ss ∧ blockObeys P site ts := by
  induction ss with
  | nil => simp [blockObeys]
  | cons s ss ih => rw [List.cons_append, blockObeys, blockObeys, ih, and_assoc]

theorem blockObeys_singleton {s : Stmt} : blockObeys P site [s] ↔ s.Obeys P site := by
  rw [blockObeys, blockObeys, and_true]

theorem partsObey_append {ps qs : List Part} :
    partsObey P around (ps ++ qs) ↔ partsObey P around ps ∧ partsObey P around qs := by
  induction ps with
  | nil => simp [partsObey]
  | cons p ps ih =>
    cases p with
    | chunk value => rw [List.cons_append, partsObey, partsObey, ih]
    | slot e => rw [List.cons_append, partsObey, partsObey, ih, and_assoc]

/-- Whatever surrounds an expression, its text is fit to be written. -/
theorem Expr.Obeys.text (h : e.Obeys P around) : P.Text e.text := fun hP => Expr.neutral_text hP e h

end Js

/-! ## Bindings -/

namespace Js.Binding

theorem texts_eq_map (bs : List Binding) : texts bs = bs.map text := by
  induction bs with
  | nil => rfl
  | cons b bs ih => rw [texts, ih, List.map_cons]

theorem neutral_array {bs : List Binding} (h : ∀ b ∈ bs, Neutral b.text.toList) :
    Neutral (array bs).text.toList := by
  rw [text, texts_eq_map]
  refine Spans.neutral (((Spans.code rfl).append (Spans.commas ?_)).lit rfl)
  intro t ht
  obtain ⟨b, hb, rfl⟩ := List.mem_map.mp ht
  exact h b hb

theorem neutral_object {fs : List (String × Binding)}
    (h : ∀ f ∈ fs, Neutral f.1.toList ∧ Neutral f.2.text.toList) :
    Neutral (object fs).text.toList := by
  have htexts : ∀ t ∈ fieldTexts fs, Neutral t.toList := by
    induction fs with
    | nil =>
      rw [fieldTexts]
      simp
    | cons f fs ih =>
      obtain ⟨key, b⟩ := f
      rw [fieldTexts]
      obtain ⟨hkey, hb⟩ := h (key, b) List.mem_cons_self
      rintro t (_ | ⟨_, ht⟩)
      · split
        · exact hb
        · exact Spans.neutral (((Spans.of_neutral hkey).lit rfl).text hb)
      · exact ih (fun f hf => h f (List.mem_cons_of_mem _ hf)) t ht
  rw [text]
  exact Spans.neutral (((Spans.code rfl).append (Spans.commas htexts)).lit rfl)

theorem neutral_slots {fs : List (Nat × Binding)} (h : ∀ f ∈ fs, Neutral f.2.text.toList) :
    Neutral (slots fs).text.toList := by
  have htexts : ∀ t ∈ slotTexts fs, Neutral t.toList := by
    induction fs with
    | nil =>
      rw [slotTexts]
      simp
    | cons f fs ih =>
      obtain ⟨i, b⟩ := f
      rw [slotTexts]
      have hindex : Neutral (toString i).toList := .of_plainText (isPlainText_toString i)
      rintro t (_ | ⟨_, ht⟩)
      · exact Spans.neutral (((Spans.of_neutral hindex).lit rfl).text (h (i, b) List.mem_cons_self))
      · exact ih (fun f hf => h f (List.mem_cons_of_mem _ hf)) t ht
  rw [text]
  exact Spans.neutral (((Spans.code rfl).append (Spans.commas htexts)).lit rfl)

end Js.Binding

theorem Js.neutral_paramsText {bs : List Js.Binding} (h : ∀ b ∈ bs, Neutral b.text.toList) :
    Neutral (Js.paramsText bs).toList := by
  refine Js.Spans.neutral (Js.Spans.commas ?_)
  intro t ht
  obtain ⟨b, hb, rfl⟩ := List.mem_map.mp ht
  exact h b hb

/-! ## Fixed code -/

namespace Js

theorem text_names (names : List String) (h : names.all isPlainText = true) :
    P.Text (paramsText (names.map .name)) := by
  refine fun _ => neutral_paramsText fun b hb => ?_
  obtain ⟨name, hname, rfl⟩ := List.mem_map.mp hb
  rw [Binding.text]
  exact .of_plainText (List.all_eq_true.mp h name hname)

end Js

theorem Js.text_note {comment : String} (hline : '\n' ∉ comment.toList)
    (hopen : Layout.endsComment comment.toList = false) : P.Text ("/* " ++ comment ++ " */") := by
  intro _
  have htext : ("/* " ++ comment ++ " */").toList =
      '/' :: '*' :: ' ' :: (comment.toList ++ [' ', '*', '/']) := by
    simp
  rw [htext]
  exact .comment hline hopen

namespace Idiom

variable {around : Around} {recv code : Js.Expr} {args : List Js.Expr}

theorem obeys_named {func : String} (hfunc : P.Text func) (h : Js.exprsObey P around args) :
    (named func args).Obeys P around := by
  rw [named, Js.Expr.Obeys, Js.Expr.Obeys]
  exact ⟨hfunc, h⟩

theorem obeys_dispatch {params : List String} {code : String}
    (hparams : params.all isPlainText = true) (hcode : P.Text code)
    (h : Js.exprsObey P around args) : (dispatch params code args).Obeys P around := by
  rw [dispatch, Js.Expr.Obeys, Js.Expr.Obeys, Js.Expr.Obeys, Js.Expr.Obeys]
  exact ⟨⟨Js.text_names params hparams, hcode⟩, h⟩

theorem obeys_entries {source : Js.Expr} (h : source.Obeys P around) :
    (entries source).Obeys P around := by
  refine obeys_dispatch (by decide) (.code (by decide)) ?_
  rw [Js.exprsObey, Js.exprsObey]
  exact ⟨h, trivial⟩

theorem exists_of_orElse {x y : Option Js.Expr} (h : (x <|> y) = some code) :
    x = some code ∨ y = some code := by
  cases x with
  | none => exact .inr h
  | some _ => exact .inl h

theorem Frame.obeys_code {f : Frame} (hsound : f.IsSound args.length) (hf : f.IsNeutral)
    (hrecv : recv.Obeys P around) (hargs : Js.exprsObey P around args) :
    (f.code recv args).Obeys P around := by
  have hor : P.Text (" " ++ "??" ++ " ") := Js.text_operator (by decide)
  rw [Js.exprsObey_iff] at hargs
  cases f with
  | itself => exact hrecv
  | property name =>
    simp only [code, Js.Expr.Obeys]
    exact ⟨text_of_isName hsound.2, hrecv⟩
  | element =>
    simp only [code, Js.Expr.Obeys]
    exact ⟨hrecv, .code (by decide)⟩
  | function func =>
    rw [code, Js.Expr.Obeys, Js.exprsObey_iff, List.forall_mem_cons]
    exact ⟨hf P around, hrecv, hargs⟩
  | chain func name more =>
    simp only [code, Js.Expr.Obeys, Js.exprsObey_iff, List.forall_mem_singleton]
    exact ⟨⟨text_of_isName hsound.2.2.1, hf.1 P around, hrecv⟩, fun a ha => hf.2 a ha P around⟩
  | method name more =>
    simp only [code, Js.Expr.Obeys, Js.exprsObey_iff, List.forall_mem_append]
    exact ⟨⟨text_of_isName hsound.1, hrecv⟩, hargs, fun a ha => hf a ha P around⟩
  | extension name =>
    simp only [code, Js.Expr.Obeys, Js.exprsObey_iff, List.forall_mem_map]
    exact ⟨⟨text_of_isName hsound, hrecv⟩, hargs⟩
  | operator op =>
    obtain ⟨a, rfl⟩ := List.length_eq_one_iff.mp hsound.1
    simp only [code, Js.Expr.Obeys]
    exact ⟨hf P, hrecv, hargs a List.mem_cons_self⟩
  | alternative =>
    obtain ⟨a, rfl⟩ := List.length_eq_one_iff.mp hsound
    simp only [code, Js.Expr.Obeys, Js.exprsObey, and_true]
    exact ⟨hor, hrecv, hargs a List.mem_cons_self⟩
  | key text =>
    simp only [code, Js.Expr.Obeys]
    exact ⟨Js.text_operator (by decide), hf P, hrecv⟩
  | question op joint =>
    rw [code, Js.Expr.Obeys]
    exact obeys_ask hsound.2 hrecv

theorem obeys_method? {method : String} {isSimple isHost : Bool} (hrecv : recv.Obeys P around)
    (hargs : Js.exprsObey P around args)
    (h : method? recv method args isSimple isHost = some code) : code.Obeys P around := by
  obtain ⟨f, hbuilds, ⟨hsound, hneutral⟩, -⟩ := exists_frame h
  obtain rfl := Option.some.inj (h.symm.trans (hbuilds recv args rfl))
  exact f.obeys_code hsound hneutral hrecv hargs

theorem obeys_associated? {type func : String} (hargs : Js.exprsObey P around args)
    (h : associated? type func args = some code) : code.Obeys P around := by
  unfold associated? at h
  split at h
  · cases h
  · next fixed hform =>
    cases h
    rw [Js.Expr.Obeys]
    unfold callForm? at hform
    split at hform
    all_goals
      cases hform
      try exact .code (by decide)
  · cases h
    rw [Js.exprsObey] at hargs
    exact hargs.1
  · cases h
  · next func arg _ hform =>
    cases h
    rw [Js.exprsObey] at hargs
    refine obeys_named ?_ (by simpa only [Js.exprsObey, and_true] using hargs.1)
    unfold callForm? at hform
    split at hform
    all_goals
      cases hform
      try exact .code (by decide)
  · cases h

theorem text_constant? {owner name code : String} (h : constant? owner name = some code) :
    P.Text code := by
  unfold constant? at h
  split at h
  all_goals
    cases h
    try exact .code (by decide)

theorem obeys_numeric? {owner func : String} (hfunc : P.Plain func)
    (hargs : Js.exprsObey P around args) (h : numeric? owner func args = some code) :
    code.Obeys P around := by
  unfold numeric? at h
  split at h
  case isFalse => cases h
  case isTrue =>
    split at h
    · cases h
      exact obeys_named ((Js.Policy.Text.code (by decide)).append hfunc.text) hargs
    · split at h
      · cases h
        exact obeys_named (.code (by decide)) hargs
      · cases h

/-- The result has a name of its own, so that it is not computed where the lemma is applied. -/
theorem obeys_cast {value : Js.Expr} {ty : String} (hvalue : value.Obeys P around)
    (hty : P.Text ("/* as " ++ Text.strip ty ++ " */")) (hcode : cast value ty = code) :
    code.Obeys P around := by
  rw [← hcode]
  have hargs : Js.exprsObey P around [value] := by simpa only [Js.exprsObey, and_true] using hvalue
  unfold cast
  generalize Text.strip ty = type at hty ⊢
  dsimp only
  split
  · exact obeys_named (.code (by decide)) hargs
  split
  · exact obeys_named (.code (by decide)) hargs
  split
  · exact obeys_named (.code (by decide)) hargs
  split
  · exact obeys_named (.code (by decide)) hargs
  split
  · exact obeys_named (.code (by decide)) hargs
  · have hnote : "/* " ++ ("as " ++ type) ++ " */" = "/* as " ++ type ++ " */" := by
      rw [← String.append_assoc]
      rfl
    rw [Js.Expr.Obeys, hnote]
    exact ⟨hty, hvalue⟩

end Idiom

end RustScript
