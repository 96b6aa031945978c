/-
  The code of declarations is balanced.

  With plain names the fragments of a declaration close what they open and nothing else, taken with
  a line feed behind each. A sum of texts is the exception: a text that ends in a dollar sign opens
  a value together with a brace at the start of the next one.
-/
import RustScript.Declaration
import RustScript.Proofs.Emit.GivesTree

namespace RustScript

open Js (Spans Lines commas)
open Layout (Neutral Balanced isPlainText isPlain isPlain_iff EndsLevel Point)
open Js.Spans (neutral code)

/-- The rule that code is neutral for the layout. -/
def Js.Policy.balancing : Js.Policy where
  neutral := True

/-! ## Plain trees -/

namespace Law

/-- Names and labels are plain, types of casts can stand in a comment on one line, and the texts
    of a sum open no value together. -/
def plain : Law where
  name := isPlainText
  label label := isPlainText (String.ofList (label.toList.dropWhile (· == '\'')))
  jump label := isPlainText (String.ofList (label.toList.dropWhile (· == '\'')))
  cast ty := !ty.toList.contains '\n' && !Layout.endsComment ty.toList
  sum := Js.joinsSafely

end Law

namespace Layout

theorem endsComment_iff (cs : List Char) : endsComment cs = true ↔ ['*', '/'] <:+: cs := by
  fun_induction endsComment cs with
  | case1 => simp
  | case2 cs => exact iff_of_true rfl (List.prefix_append ['*', '/'] cs).isInfix
  | case3 c cs hno ih =>
    rw [ih, List.infix_cons_iff]
    refine ⟨.inr, fun h => h.resolve_left fun hpre => ?_⟩
    obtain ⟨ds, hds⟩ := hpre
    obtain ⟨hc, hcs⟩ := List.cons.inj hds
    exact hno ds hc.symm hcs.symm

end Layout

theorem neutral_cast {ty : String} (h : Law.plain.cast ty = true) :
    Neutral ("/* as " ++ Text.strip ty ++ " */").toList := by
  simp only [Law.plain, Bool.and_eq_true, Bool.not_eq_true', List.contains_eq_mem,
    decide_eq_false_iff_not] at h
  have hpart := Text.trim_isInfix ty.toList
  have hline : '\n' ∉ 'a' :: 's' :: ' ' :: Text.trim ty.toList := by
    simpa using fun hmem => h.1 (hpart.subset hmem)
  have hend : Layout.endsComment ('a' :: 's' :: ' ' :: Text.trim ty.toList) = false := by
    have hno : Layout.endsComment (Text.trim ty.toList) = false := by
      rw [← Bool.not_eq_true, Layout.endsComment_iff]
      intro hin
      rw [(Layout.endsComment_iff _).mpr (hin.trans hpart)] at h
      exact absurd h.2 (by decide)
    simpa [Layout.endsComment] using hno
  simpa [Text.strip] using Neutral.comment hline hend

theorem Law.serves_balancing : Law.plain.Serves .balancing where
  name _ _ h := h
  label _ _ h := Name.isPlainText_target h
  jump _ _ h := Name.isPlainText_target h
  written := nofun
  cast _ _ h := neutral_cast h
  sum _ _ h := h
  await := nofun
  control := nofun

def Item.isLawful (law : Law) (call : Mode → MacroCall → Bool) : Item → Bool
  | .struct d => law.name d.ident && d.fields.all law.name
  | .enum d => law.name d.ident && d.variants.all fun v => law.name v.name && v.fields.all law.name
  | .fn d => d.isLawful law call
  | .impl d => law.name d.ident && d.fns.all fun f => f.isLawful law call
  | .const d => law.name d.ident && d.value.isLawful law call .sync
  | .inert ident what => law.name ident && law.name what
  | .unknown .. | .bare => true

/-! ## Structs -/

variable {a : List Char}

theorem Js.Spans.plain {s : String} (h : isPlainText s = true) : Spans a a s :=
  .of_neutral (.of_plainText h)

theorem Js.Spans.word {a b : List Char} {s t : String} (hs : Spans a b s)
    (ht : isPlainText t = true) : Spans a b (s ++ t) :=
  hs.append (.plain ht)

variable {ls : List String}

theorem Js.Lines.of_forall (h : ∀ l ∈ ls, Neutral l.toList) : Lines a a ls := by
  induction ls with
  | nil => exact .nil
  | cons l ls ih =>
    exact .cons (.of_neutral (h l List.mem_cons_self)) (ih fun m hm => h m (List.mem_cons_of_mem l hm))

namespace StructDecl

theorem neutral_method {head : String} {lines : List String} (hhead : Neutral head.toList)
    (hlines : ∀ l ∈ lines, Neutral l.toList) : Neutral (method head lines).toList :=
  neutral (((Spans.of_neutral hhead).lit rfl).append (Js.neutral_braces (.of_forall hlines)))

theorem neutral_members {name toJson : String} {params assigns args : List String}
    (hname : isPlainText name = true) (hparams : ∀ p ∈ params, Neutral p.toList)
    (hassigns : ∀ l ∈ assigns, Neutral l.toList) (htoJson : Neutral toJson.toList)
    (hargs : ∀ a ∈ args, Neutral a.toList) :
    ∀ m ∈ members name params assigns toJson args, Neutral m.toList := by
  have hconstructor : Neutral ("constructor(" ++ commas params ++ ")").toList :=
    neutral (((code rfl).append (.commas hparams)).lit rfl)
  have hreturn : Neutral ("return " ++ toJson ++ ";").toList :=
    neutral (((code rfl).text htoJson).lit rfl)
  have hnew : Neutral ("return new " ++ name ++ "(" ++ commas args ++ ");").toList :=
    neutral (((((code rfl).word hname).lit rfl).append (.commas hargs)).lit rfl)
  simp only [members, List.forall_mem_cons, List.not_mem_nil, false_implies, implies_true, and_true]
  refine ⟨neutral_method hconstructor hassigns, neutral_method (.code (by decide)) ?_,
    neutral_method (.code (by decide)) ?_⟩
  · simpa using hreturn
  · simpa using hnew

theorem neutral_emit (d : StructDecl) (hident : isPlainText d.ident = true)
    (hfields : ∀ f ∈ d.fields, isPlainText f = true) : Neutral d.emit.toList := by
  have hbody {body : List String} (h : ∀ m ∈ body, Neutral m.toList) :
      Neutral ("class " ++ d.ident ++ " " ++ Js.braces body).toList :=
    neutral ((((code rfl).word hident).lit rfl).append (Js.neutral_braces (.of_forall h)))
  unfold emit
  cases hshape : d.shape with
  | unit =>
    refine hbody ?_
    have hnew : Neutral ("return new " ++ d.ident ++ "();").toList :=
      neutral (((code rfl).word hident).lit rfl)
    simp only [List.forall_mem_cons, List.not_mem_nil, false_implies, implies_true, and_true]
    refine ⟨neutral_method (.code (by decide)) ?_, neutral_method (.code (by decide)) ?_⟩
    · simpa using Neutral.code (by decide)
    · simpa using hnew
  | tuple =>
    have hslots : ∀ i ∈ d.fieldNames, isPlainText i = true := by
      intro i hi
      simp only [fieldNames, hshape, List.mem_map] at hi
      obtain ⟨n, -, rfl⟩ := hi
      exact isPlainText_toString n
    refine hbody (neutral_members hident ?_ ?_ ?_ ?_)
    · exact List.forall_mem_map.mpr fun i hi => neutral ((code rfl).word (hslots i hi))
    · exact List.forall_mem_map.mpr fun i hi =>
        neutral (((((code rfl).word (hslots i hi)).lit rfl).word (hslots i hi)).lit rfl)
    · refine neutral (((code rfl).append (.commas ?_)).lit rfl)
      exact List.forall_mem_map.mpr fun i hi => neutral (((code rfl).word (hslots i hi)).lit rfl)
    · exact List.forall_mem_map.mpr fun i hi => neutral (((code rfl).word (hslots i hi)).lit rfl)
  | named =>
    have htargets : ∀ f ∈ d.fields, isPlainText (Name.target f) = true := fun f hf =>
      Name.isPlainText_target (hfields f hf)
    refine hbody (neutral_members hident ?_ ?_ ?_ ?_)
    · exact List.forall_mem_map.mpr fun f hf => .of_plainText (htargets f hf)
    · exact List.forall_mem_map.mpr fun f hf =>
        neutral (((((code rfl).word (hfields f hf)).lit rfl).word (htargets f hf)).lit rfl)
    · split
      · exact .code (by decide)
      · refine neutral (((code rfl).append (.commas ?_)).lit rfl)
        exact List.forall_mem_map.mpr fun f hf =>
          neutral (((Spans.plain (hfields f hf)).lit rfl).word (hfields f hf))
    · exact List.forall_mem_map.mpr fun f hf => neutral ((code rfl).word (hfields f hf))

end StructDecl

/-! ## Enums -/

theorem Layout.scanFrom_plainText {s : Layout.Scan} {cs rest : List Char}
    (hs : s.opened.head? = some .template) (hcs : ∀ c ∈ cs, isPlain c = true)
    (hrest : rest.head? ≠ some '\x7b') :
    Layout.scanFrom 0 s (cs ++ rest) = Layout.scanFrom 0 s rest := by
  induction cs with
  | nil => rfl
  | cons c cs ih =>
    have ih := ih fun d hd => hcs d (List.mem_cons_of_mem c hd)
    obtain ⟨-, -, -, -, hback, htick, -⟩ := isPlain_iff.mp (hcs c List.mem_cons_self)
    rw [List.cons_append, Layout.scanFrom_text hs hback htick, ih]
    intro _ hhead
    cases cs with
    | nil => exact hrest hhead
    | cons d ds =>
      have hd := isPlain_iff.mp (hcs d (List.mem_cons_of_mem c List.mem_cons_self))
      exact hd.2.2.2.2.2.2.2.2.2.2.1 (Option.some.inj hhead)

theorem Layout.Neutral.plainTemplate {c : Char} (hc : c.toNat = 0x60) {text value : List Char}
    (htext : ∀ d ∈ text, isPlain d = true) (hvalue : Neutral value) :
    Neutral (c :: (text ++ ' ' :: '$' :: '\x7b' :: (value ++ ['\x7d', c]))) := by
  have hall : ∀ d ∈ text ++ [' '], isPlain d = true := by
    intro d hd
    rcases List.mem_append.mp hd with hd | hd
    · exact htext d hd
    · rw [List.mem_singleton.mp hd]
      decide
  have hline : '\n' ∉ text ++ [' '] := fun hmem => (isPlain_iff.mp (hall _ hmem)).1 rfl
  refine ⟨fun p rest hcode hp h => ?_⟩
  refine EndsLevel.openTemplate hc hcode hp fun q hq => ?_
  have hslot : EndsLevel q ('$' :: '\x7b' :: (value ++ '\x7d' :: c :: rest)) := by
    refine EndsLevel.openSlot hq fun r hr => ?_
    refine hvalue.before r _ (by simp [Point.InCode, hr.opened]) hr.steady fun t ht => ?_
    refine EndsLevel.closeSlot (hr.like ht) fun u hu => ?_
    exact EndsLevel.closeTemplate hc hu fun v hv => h v ⟨hv.opened, hv.total, hv.steady⟩
  have htop : q.scan.opened.head? = some .template := by simp [hq.opened]
  have := EndsLevel.of_scan (text ++ [' ']) q.scan hline (fun line hhead => ?_) hslot
  · simpa using this
  · refine Layout.scanFrom_plainText htop hall fun hbrace => ?_
    exact absurd (hhead _ hbrace) (by simp)

namespace Variant

theorem neutral_factory {name : String} {params props : List String}
    (hname : isPlainText name = true) (hparams : ∀ p ∈ params, Neutral p.toList)
    (hprops : ∀ p ∈ props, Neutral p.toList) : Neutral (factory name params props).toList := by
  have htag : Neutral ("type: \"" ++ name ++ "\"").toList := by
    have htext : "type: \"" ++ name ++ "\"" = "type: " ++ ("\"" ++ name ++ "\"") := by
      rw [show ("type: \"" : String) = "type: " ++ "\"" from rfl, String.append_assoc,
        String.append_assoc, String.append_assoc]
    rw [htext]
    exact neutral ((code rfl).text (.quoted hname))
  have hall : ∀ p ∈ ("type: \"" ++ name ++ "\"") :: props, Neutral p.toList :=
    List.forall_mem_cons.mpr ⟨htag, hprops⟩
  unfold factory
  exact neutral ((((((Spans.plain hname).lit rfl).append (.commas hparams)).lit rfl).append
    (((code rfl).append (.commas hall)).lit rfl)).lit rfl)

theorem neutral_emit {v : Variant} {member : String} (hname : isPlainText v.name = true)
    (hfields : ∀ f ∈ v.fields, isPlainText f = true) (h : v.emit = .ok member) :
    Neutral member.toList := by
  unfold emit at h
  split at h
  · cases h
    have htext : v.name ++ ": \"" ++ v.name ++ "\"" = v.name ++ ": " ++ ("\"" ++ v.name ++ "\"") := by
      rw [show (": \"" : String) = ": " ++ "\"" from rfl]
      simp only [String.append_assoc]
    rw [htext]
    exact neutral (((Spans.plain hname).lit rfl).text (.quoted hname))
  · cases h
    have hslots : ∀ p ∈ (List.range v.fields.length).map fun i => "value" ++ toString i,
        Neutral p.toList :=
      List.forall_mem_map.mpr fun i _ => neutral ((code rfl).word (isPlainText_toString i))
    exact neutral_factory hname hslots hslots
  · split at h
    · cases h
    cases h
    have htargets : ∀ f ∈ v.fields, isPlainText (Name.target f) = true := fun f hf =>
      Name.isPlainText_target (hfields f hf)
    refine neutral_factory hname ?_ ?_
    · exact List.forall_mem_map.mpr fun f hf => .of_plainText (htargets f hf)
    · refine List.forall_mem_map.mpr fun f hf => ?_
      split
      · exact .of_plainText (hfields f hf)
      · exact neutral (((Spans.plain (hfields f hf)).lit rfl).word (htargets f hf))

end Variant

theorem exists_mem_of_mapM {α β : Type} {f : α → Except Error β} {xs : List α} {ys : List β}
    (h : xs.mapM f = .ok ys) {y : β} (hy : y ∈ ys) : ∃ x ∈ xs, f x = .ok y := by
  induction xs generalizing ys with
  | nil =>
    cases h
    cases hy
  | cons x xs ih =>
    rw [List.mapM_cons] at h
    obtain ⟨z, zs, hz, hzs, rfl⟩ := exists_of_both_eq_ok h
    rcases List.mem_cons.mp hy with rfl | hy
    · exact ⟨x, List.mem_cons_self, hz⟩
    · obtain ⟨w, hw, hf⟩ := ih hzs hy
      exact ⟨w, List.mem_cons_of_mem x hw, hf⟩

namespace EnumDecl

theorem neutral_conversions {name : String} (hname : isPlainText name = true) :
    ∀ m ∈ conversions name, Neutral m.toList := by
  have hmessage : Neutral ("`Invalid " ++ name ++ ": $\x7bJSON.stringify(json)\x7d`").toList := by
    have hplain : ∀ c ∈ ("Invalid " ++ name ++ ":").toList, isPlain c = true := by
      refine List.all_eq_true.mp ?_
      change isPlainText ("Invalid " ++ name ++ ":") = true
      rw [Layout.isPlainText_append, Layout.isPlainText_append, hname]
      decide
    have hvalue : Neutral "JSON.stringify(json)".toList := .code (by decide)
    simpa using Neutral.plainTemplate (c := Char.ofNat 0x60) (by decide) hplain hvalue
  have htext : "fromJSON(json) \x7b\nif (!is" ++ name ++ "(json)) throw new Error(`Invalid " ++ name ++
      ": $\x7bJSON.stringify(json)\x7d`);\nreturn json;\n\x7d" =
      "fromJSON(json) \x7b\nif (!is" ++ name ++ "(json)) throw new Error(" ++
        ("`Invalid " ++ name ++ ": $\x7bJSON.stringify(json)\x7d`") ++ ");\nreturn json;\n\x7d" := by
    refine String.toList_injective ?_
    simp
  simp only [conversions, List.forall_mem_cons, List.not_mem_nil, false_implies, implies_true,
    and_true]
  refine ⟨?_, .code (by decide)⟩
  rw [htext]
  exact neutral (((((code rfl).word hname).lit rfl).text hmessage).lit rfl)

theorem neutral_predicate {name names : String} (hname : isPlainText name = true)
    (hnames : Neutral names.toList) : Neutral (predicate name names).toList := by
  have hmiddle : Spans ['\x7d', '\x7d'] ['\x7d']
      ".includes(value);\n\x7d\nreturn value !== null && typeof value === \"object\" && " :=
    .code (by decide)
  unfold predicate
  exact neutral ((((((code rfl).word hname).lit rfl).text hnames).append hmiddle).text
    hnames |>.lit rfl)

theorem neutral_emit {d : EnumDecl} {code : String} (hident : isPlainText d.ident = true)
    (hvariants : ∀ v ∈ d.variants, isPlainText v.name = true ∧
      ∀ f ∈ v.fields, isPlainText f = true) (h : d.emit = .ok code) : Neutral code.toList := by
  obtain ⟨members, hmembers, rfl⟩ := exists_of_return_eq_ok h
  have hall : ∀ m ∈ members ++ conversions d.ident, Neutral m.toList := by
    intro m hm
    rcases List.mem_append.mp hm with hm | hm
    · obtain ⟨v, hv, hemit⟩ := exists_mem_of_mapM hmembers hm
      exact Variant.neutral_emit (hvariants v hv).1 (hvariants v hv).2 hemit
    · exact neutral_conversions hident m hm
  have hnames : Neutral ("[" ++ commas (d.variants.map fun v => "\"" ++ v.name ++ "\"") ++
      "]").toList := by
    refine neutral (((code rfl).append (.commas ?_)).lit rfl)
    exact List.forall_mem_map.mpr fun v hv => .quoted (hvariants v hv).1
  exact neutral ((((((code rfl).word hident).lit rfl).append
    (.intercalate (.code (by decide)) hall)).lit rfl).text (neutral_predicate hident hnames))

end EnumDecl

/-! ## Functions -/

open Js.Policy (balancing)

section Functions

variable (r : Reader) (structs : Structs) {code : String} {α : Type} {d : FnDecl}

theorem neutral_functionText {tries isAsync : Bool} {params : List Js.Binding}
    {body : List Js.Stmt} (h : Emit.IsFunction balancing tries isAsync params body) :
    Neutral (functionText params body).toList :=
  neutral ((((code rfl).text (h.params trivial)).lit rfl).append
    (Js.neutral_braces (Js.block_lines trivial body h.body)))

theorem neutral_functionKeyword (isAsync : Bool) : Neutral (functionKeyword isAsync).toList :=
  neutral ((Js.spans_async isAsync).lit rfl)

theorem ready_start : Ready balancing ⟨{ structs }, .sync⟩ {} := by
  refine ⟨by simp, ?_, by simp, rfl⟩
  rintro layer (_ | ⟨_, hlayer⟩) entry hentry
  · cases hentry
  · cases hlayer

theorem Law.knows_plain (place : Place) : Law.plain.Knows place := fun _ _ => rfl

theorem Except.exists_of_toBool {x : Except Error α} {Q : α → Prop} (h : ∀ a, x = .ok a → Q a)
    (hok : x.toBool = true) : ∃ a, x = .ok a ∧ Q a := by
  cases x with
  | error e => cases hok
  | ok a => exact ⟨a, rfl, h a rfl⟩

theorem Emit.exists_run_of_ok {place : Place} {body : Emit α} {a : α}
    (h : Emit.run place body = .ok a) : ∃ t, body place {} = (.ok a, t) :=
  ⟨(body place {}).2, Prod.ext h rfl⟩

theorem FnDecl.isPlainText_ident {call : Mode → MacroCall → Bool}
    (h : d.isLawful .plain call = true) : isPlainText d.ident = true := by
  cases d
  simp only [isLawful, Bool.and_eq_true] at h
  exact h.1.1

theorem FnDecl.neutral_emit (hlawful : d.isLawful .plain (r.isLawful .plain) = true)
    (h : d.emit r structs = .ok code) : Neutral code.toList := by
  have hident := isPlainText_ident hlawful
  unfold emit at h
  split at h
  · cases h
  obtain ⟨⟨params, body⟩, hrun, rfl⟩ := exists_of_return_eq_ok h
  obtain ⟨t, hrun⟩ := Emit.exists_run_of_ok hrun
  have hfn := (r.gives_emitFn Law.serves_balancing (Law.knows_plain _) d _ fun _ => hlawful).fact
    (ready_start structs) hrun
  exact neutral ((((Spans.of_neutral (neutral_functionKeyword d.isAsync)).lit rfl).word
    (Name.isPlainText_target hident)).text (neutral_functionText hfn))

theorem ConstDecl.neutral_emit {d : ConstDecl} (hident : isPlainText d.ident = true)
    (hlawful : d.value.isLawful .plain (r.isLawful .plain) .sync = true)
    (h : d.emit r structs = .ok code) : Neutral code.toList := by
  obtain ⟨value, hrun, rfl⟩ := exists_of_return_eq_ok h
  obtain ⟨t, hrun⟩ := Emit.exists_run_of_ok hrun
  obtain ⟨-, -, hobeys⟩ := (r.gives_emit Law.serves_balancing (Law.knows_plain _) d.value _
    fun _ => hlawful).run _ _ _ (ready_start structs) hrun
  obtain ⟨site, hsite⟩ := exists_fits _ t
  have hvalue := Js.Expr.neutral_text trivial value (hobeys site hsite)
  exact neutral (((((code rfl).word (Name.isPlainText_target hident)).lit rfl).text hvalue).lit rfl)

/-! ## Methods -/

namespace ImplDecl

variable {type : String} {place : Place} {s t : State}

/-- A method is neutral, and the next can start in the state after it. -/
theorem neutral_method {d : FnDecl} {fragment : String} (htype : isPlainText type = true)
    (hlawful : d.isLawful .plain (r.isLawful .plain) = true)
    (hs : Ready balancing ⟨{ structs }, .sync⟩ s)
    (h : method r structs type d place s = (.ok fragment, t)) :
    Neutral fragment.toList ∧ Ready balancing ⟨{ structs }, .sync⟩ t := by
  let inside : Place := { selfType := some type, isStatic := d.receiver.isNone, structs }
  have hready : Ready balancing ⟨inside, .sync⟩ s :=
    ⟨fun name hname _ => Option.mem_some.mp hname ▸ htype, hs.scopes, hs.tails, hs.isAsync⟩
  obtain ⟨⟨params, body⟩, hrun, rfl⟩ := Emit.exists_of_return h
  have hgives := r.gives_emitFn Law.serves_balancing (Law.knows_plain inside) d .sync fun _ => hlawful
  have hend := (hgives.run s _ _ hready hrun).1
  refine ⟨?_, ⟨by simp, hend.scopes, hend.tails, hend.isAsync⟩⟩
  have howner : Spans [] [] (if d.receiver.isNone then type else type ++ ".prototype") := by
    split
    · exact .plain htype
    · exact (Spans.plain htype).lit rfl
  have hfunction := neutral_functionText (hgives.fact hready hrun)
  exact neutral ((((((howner.lit rfl).word (FnDecl.isPlainText_ident hlawful)).lit rfl).text
    (neutral_functionKeyword d.isAsync)).text hfunction).lit rfl)

theorem lines_methods {ds : List FnDecl} {fragments : List String} (htype : isPlainText type = true)
    (hlawful : ∀ d ∈ ds, d.isLawful .plain (r.isLawful .plain) = true)
    (hs : Ready balancing ⟨{ structs }, .sync⟩ s)
    (h : methods r structs type ds place s = (.ok fragments, t)) : Lines [] [] fragments := by
  induction ds generalizing s fragments with
  | nil =>
    cases h
    exact .nil
  | cons d ds ih =>
    obtain ⟨fragment, rest, u, hmethod, hrest, rfl⟩ := Emit.exists_of_both h
    obtain ⟨hneutral, hu⟩ := neutral_method r structs htype (hlawful d List.mem_cons_self) hs hmethod
    exact .cons (.of_neutral hneutral)
      (ih (fun e he => hlawful e (List.mem_cons_of_mem d he)) hu hrest)

end ImplDecl

end Functions

/-! ## Comments -/

theorem Layout.Neutral.lineComment {cs : List Char} (h : '\n' ∉ cs) :
    Neutral ('/' :: '/' :: (cs ++ ['\n'])) := by
  refine ⟨fun p rest hcode hp hrest => ?_⟩
  have hline : '\n' ∉ '/' :: '/' :: cs := by simpa using h
  have hcut : Text.cutLines ('/' :: '/' :: (cs ++ ['\n']) ++ rest) =
      ('/' :: '/' :: cs) :: Text.cutLines rest := by
    have hrest : Text.cutLines ('\n' :: rest) = [] :: Text.cutLines rest := rfl
    simpa using Layout.cutLines_append hline hrest
  have hread : p.read ('/' :: '/' :: cs) = p := by
    rw [Point.read, Layout.scanFrom, if_neg (by simpa [Point.InCode] using hcode),
      if_neg (by decide), if_pos (by simp)]
  rw [EndsLevel, hcut]
  refine ⟨?_, ?_, ?_⟩
  all_goals rw [hread]
  · exact hp.lead_le
  · exact hp.total_nonneg
  · exact hrest _ hp.nextLine

theorem Js.Lines.comment {text : String} (h : isPlainText text = true) (hls : Lines [] [] ls) :
    Lines [] [] (("//" ++ text) :: ls) := by
  have hline : '\n' ∉ text.toList := fun hmem =>
    (isPlain_iff.mp (List.all_eq_true.mp h _ hmem)).1 rfl
  unfold Lines
  have := (Layout.Neutral.lineComment hline).moves.append hls
  simpa using this

namespace ImplDecl

variable {fragments : List String}

theorem lines_withMarker {type : String} (htype : isPlainText type = true)
    (h : Lines [] [] fragments) : Lines [] [] (withMarker type fragments) := by
  have hplain : isPlainText (" Methods for " ++ type) = true := by
    rw [Layout.isPlainText_append, htype]
    decide
  have hmarker : marker type = "//" ++ (" Methods for " ++ type) := by
    rw [← String.append_assoc]
    rfl
  have hlines := Js.Lines.comment hplain h
  rw [← hmarker] at hlines
  cases fragments with
  | nil => exact hlines
  | cons first rest =>
    unfold Lines at hlines ⊢
    simpa [withMarker] using hlines

theorem lines_emit (r : Reader) (structs : Structs) (enums : Enums) {d : ImplDecl}
    (hident : isPlainText d.ident = true)
    (hlawful : ∀ f ∈ d.fns, f.isLawful .plain (r.isLawful .plain) = true)
    (h : d.emit r structs enums = .ok fragments) : Lines [] [] fragments := by
  unfold emit at h
  split at h
  · cases h
  · obtain ⟨methods, hrun, rfl⟩ := exists_of_return_eq_ok h
    obtain ⟨t, hrun⟩ := Emit.exists_run_of_ok hrun
    exact lines_withMarker hident (lines_methods r structs hident hlawful (ready_start structs) hrun)

end ImplDecl

/-! ## Declarations -/

theorem Item.lines_fragments (r : Reader) (structs : Structs) (enums : Enums) {item : Item}
    {fragments : List String} (hlawful : item.isLawful .plain (r.isLawful .plain) = true)
    (h : item.fragments r structs enums = .ok fragments) : Lines [] [] fragments := by
  cases item with
  | struct d =>
    simp only [isLawful, Bool.and_eq_true, List.all_eq_true] at hlawful
    cases h
    exact .single (.of_neutral (d.neutral_emit hlawful.1 hlawful.2))
  | enum d =>
    simp only [isLawful, Bool.and_eq_true, List.all_eq_true] at hlawful
    obtain ⟨code, hcode, rfl⟩ := exists_of_return_eq_ok h
    exact .single (.of_neutral (EnumDecl.neutral_emit hlawful.1 hlawful.2 hcode))
  | fn d =>
    obtain ⟨code, hcode, rfl⟩ := exists_of_return_eq_ok h
    exact .single (.of_neutral (FnDecl.neutral_emit r structs hlawful hcode))
  | impl d =>
    simp only [isLawful, Bool.and_eq_true, List.all_eq_true] at hlawful
    exact ImplDecl.lines_emit r structs enums hlawful.1 hlawful.2 h
  | const d =>
    simp only [isLawful, Bool.and_eq_true] at hlawful
    obtain ⟨code, hcode, rfl⟩ := exists_of_return_eq_ok h
    exact .single (.of_neutral (ConstDecl.neutral_emit r structs hlawful.1 hlawful.2 hcode))
  | inert ident what =>
    simp only [isLawful, Bool.and_eq_true] at hlawful
    cases h
    have hplain : isPlainText (" Skipped " ++ what ++ ": " ++ ident) = true := by
      simp only [Layout.isPlainText_append, show isPlainText what = true from hlawful.2,
        show isPlainText ident = true from hlawful.1]
      decide
    have htext : "// Skipped " ++ what ++ ": " ++ ident =
        "//" ++ (" Skipped " ++ what ++ ": " ++ ident) := by
      simp only [← String.append_assoc]
      rfl
    rw [htext]
    exact .comment hplain .nil
  | unknown ident what => cases h
  | bare => cases h

/-- The lines of all fragments. -/
def fragmentLines (fragments : List String) : List (List Char) :=
  fragments.flatMap fun fragment => Text.cutLines fragment.toList

/-- A letter, a digit, `_` or `$`. -/
def Name.isCommon (c : Char) : Bool := Text.isAlnum c || c == '_' || c == '$'

/-- Whatever declaration is emitted, with names and labels of letters, digits, `_` and `$` (any
    plain ones will do): if the texts of its sums open no value together, its code is balanced. -/
theorem fragments_are_balanced (r : Reader) (structs : Structs) (enums : Enums) (item : Item) :
    (∀ name : String, name.toList.all Name.isCommon = true →
      Law.plain.name name = true ∧ Law.plain.label name = true ∧ Law.plain.jump name = true) ∧
    ∀ fragments : List String, item.isLawful .plain (r.isLawful .plain) = true →
      item.fragments r structs enums = .ok fragments → Balanced (fragmentLines fragments) := by
  refine ⟨fun name hname => ?_, fun fragments hlawful h => ?_⟩
  · have hplain : ∀ c ∈ name.toList, isPlain c = true := fun c hc =>
      Layout.isPlain_of_kind Name.isCommon (by decide) (List.all_eq_true.mp hname c hc)
    have hlabel : isPlainText (String.ofList (name.toList.dropWhile (· == '\''))) = true := by
      rw [isPlainText, String.toList_ofList, List.all_eq_true]
      exact fun c hc => hplain c ((List.dropWhile_suffix _).subset hc)
    exact ⟨List.all_eq_true.mpr hplain, hlabel, hlabel⟩
  · exact Layout.balanced_of_lines (Item.lines_fragments r structs enums hlawful h)

/-- Brackets in texts, a template literal with a value, a macro, a cast, a labelled loop and a
    function that stands for a value. -/
theorem method_with_brackets_in_texts_is_balanced :
    ∃ fragments, Item.fragments (Reader.ofTable [("x", .ident "x")]) [] []
        (.impl ⟨"P", [⟨"f", [], [.letIn (.ident "s" false false none)
            (some (.binary "+" (.lit (.str "(\x7b`")) (.ident "x"))) none none,
          .mac ⟨"println", "\"[\x7b\x7d\", x"⟩ true,
          .expr (.loop [.expr (.brk (some "'a") none) true] (some "'a")) true,
          .expr (.call (.ident "g") [.ifLet (.tupleStruct ["Some"] [.ident "y" false false none])
            (.cast (.ident "x") "[u8]") [] none]) false], none, none, false⟩], none⟩) =
        .ok fragments ∧ Balanced (fragmentLines fragments) := by
  refine Except.exists_of_toBool (fun fragments h => ?_) (by decide +kernel)
  exact (fragments_are_balanced _ _ _ _).2 _ (by decide +kernel) h

/-- A function that gives the sum of two texts, a dollar sign and a brace. -/
def dollarAndBrace : Item :=
  .fn ⟨"f", [], [.expr (.binary "+" (.lit (.str "$")) (.lit (.str "\x7b"))) false], none, none, false⟩

/-- Together they open a value, and it is never closed. -/
theorem sum_that_opens_a_value_is_unbalanced :
    dollarAndBrace.isLawful { Law.plain with sum := fun _ => true } (fun _ _ => true) = true ∧
      ∃ fragments, dollarAndBrace.fragments (Reader.ofTable []) [] [] = .ok fragments ∧
        ¬Balanced (fragmentLines fragments) := by
  refine ⟨by decide, ["function f() \x7b\nreturn `$\x7b`;\n\x7d"], rfl, fun h => ?_⟩
  exact absurd h.balance (by decide +kernel)

end RustScript
