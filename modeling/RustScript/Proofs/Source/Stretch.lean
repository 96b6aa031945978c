/-
  The macro calls in what a text reads as.

  A text is read as the body of a function around it. If the nodes of its tree lie within their
  parents, and the statements within the text, then every macro call in what is read has fewer
  characters between its brackets than the text has.
-/
import RustScript.Proofs.Source.Calls
import RustScript.Source.Entry

namespace RustScript

/-! ## Bytes and characters -/

namespace Text

/-- The number of bytes that do not continue a character. -/
def heads (bytes : List UInt8) : Nat := bytes.countP fun b => !isContinuation b

theorem isContinuation_of_scalar {lead : UInt8} {rest : List UInt8} {c : Char} {size : Nat}
    (h : scalar lead rest = .char c size) : isContinuation lead = false := by
  have hout (hn : lead.toNat < 0x80 ∨ 0xBF < lead.toNat) : isContinuation lead = false := by
    simp only [isContinuation, Bool.and_eq_false_iff, decide_eq_false_iff_not]
    omega
  unfold scalar at h
  split at h
  · next hsmall => exact hout (.inl hsmall)
  · split at h
    · cases h
    · next count lo hi hshape =>
      refine hout (.inr (Nat.lt_of_not_le fun hsmall => ?_))
      -- no shape belongs to a byte this small
      unfold leadShape at hshape
      simp only [Bool.and_eq_true, decide_eq_true_eq, beq_iff_eq] at hshape
      rw [if_neg (by omega), if_neg (by omega), if_neg (by omega), if_neg (by omega),
        if_neg (by omega), if_neg (by omega), if_neg (by omega)] at hshape
      cases hshape

theorem length_le_heads {skip : Nat} {bytes : List UInt8} {cs : List Char}
    (h : decodeFrom skip bytes = some cs) : cs.length ≤ heads bytes := by
  have hcons (b : UInt8) (bs : List UInt8) : heads bs ≤ heads (b :: bs) := by
    rw [heads, heads, List.countP_cons]
    omega
  fun_induction decodeFrom skip bytes generalizing cs with
  | case1 =>
    cases h
    exact Nat.zero_le _
  | case2 skip b bs ih => exact Nat.le_trans (ih h) (hcons b bs)
  | case3 b bs c size hscalar ih =>
    obtain ⟨ds, hds, rfl⟩ := Option.map_eq_some_iff.mp h
    rw [heads, List.countP_cons_of_pos (by rw [isContinuation_of_scalar hscalar]; rfl)]
    exact Nat.succ_le_succ (ih hds)
  | case4 => cases h

theorem heads_encodeChar (c : Char) : heads (encodeChar c) ≤ 1 := by
  have hcontinues (n : Nat) : isContinuation (0x80 + n % 0x40).toUInt8 = true := by
    simp only [isContinuation, Nat.toUInt8_eq, UInt8.toNat_ofNat', Bool.and_eq_true,
      decide_eq_true_eq]
    omega
  have hone (b : UInt8) {bs : List UInt8} (h : bs.all isContinuation = true) :
      heads (b :: bs) ≤ 1 := by
    have hrest : heads bs = 0 :=
      List.countP_eq_zero.mpr fun c hc => by simp [List.all_eq_true.mp h c hc]
    rw [heads, List.countP_cons, ← heads, hrest]
    split <;> omega
  unfold encodeChar
  dsimp only
  repeat' split
  all_goals exact hone _ (by simp only [List.all_cons, List.all_nil, hcontinues, Bool.and_self])

theorem heads_encode (text : String) : heads (encode text) ≤ text.length := by
  have hlist (cs : List Char) : heads (cs.flatMap encodeChar) ≤ cs.length := by
    induction cs with
    | nil => exact Nat.le_refl 0
    | cons c cs ih =>
      have hone := heads_encodeChar c
      rw [heads] at ih hone ⊢
      rw [List.flatMap_cons, List.countP_append, List.length_cons]
      omega
  exact hlist text.toList

theorem encode_append (s t : String) : encode (s ++ t) = encode s ++ encode t := by
  rw [encode, String.toList_append, List.flatMap_append]
  rfl

end Text

namespace Source

/-! ## The stretch of the text -/

/-- Where the text begins in the function around it, in bytes. -/
def textStart : Nat := (Text.encode wrapperHead).length

/-- Where the text ends in the function around it. -/
def textStop (text : String) : Nat := textStart + (Text.encode text).length

theorem heads_slice_le (text : String) {start stop : Nat} (hstart : textStart ≤ start)
    (hstop : stop ≤ textStop text) :
    Text.heads (((Text.encode (wrap text)).drop start).take (stop - start)) ≤ text.length := by
  obtain ⟨k, rfl⟩ := Nat.exists_eq_add_of_le hstart
  have hdrop : (Text.encode (wrap text)).drop (textStart + k) =
      (Text.encode text ++ Text.encode "\n\x7d").drop k := by
    rw [wrap, Text.encode_append, Text.encode_append, List.append_assoc, ← List.drop_drop,
      textStart, List.drop_left]
  rcases Nat.lt_or_ge (textStart + k) stop with hlt | hge
  · have hle : k + (stop - (textStart + k)) ≤ (Text.encode text).length := by
      rw [textStop] at hstop
      omega
    rw [hdrop, List.drop_append_of_le_length (by omega),
      List.take_append_of_le_length (by rw [List.length_drop]; omega)]
    refine Nat.le_trans ?_ (Text.heads_encode text)
    exact ((List.take_sublist _ _).trans (List.drop_sublist _ _)).countP_le
  · rw [Nat.sub_eq_zero_of_le hge, List.take_zero]
    exact Nat.zero_le _

theorem length_text_le (text : String) {p : Parts} (hstart : textStart ≤ p.start)
    (hstop : p.stop ≤ textStop text) :
    Ensures (fun t => t.length ≤ text.length) (p.text (Text.encode (wrap text))) := by
  unfold Parts.text
  split
  · next found hfound =>
    refine .ok ?_
    obtain ⟨cs, hcs, rfl⟩ := Option.map_eq_some_iff.mp hfound
    rw [String.length_ofList]
    exact Nat.le_trans (Text.length_le_heads hcs) (heads_slice_le text hstart hstop)
  · exact .error _

/-- The call has fewer characters between its brackets than the text has, which may have none. -/
def Shorter (text : String) (m : MacroCall) : Prop :=
  m.tokens.length < text.length ∨ text = "" ∧ m.tokens = ""

theorem callsIn_text (text : String) :
    Phrase.CallsIn (Text.encode (wrap text)) (Shorter text) textStart (textStop text) := by
  intro p hp
  refine .bindAny fun name => ?_
  have hchild : Ensures (fun c => textStart ≤ c.parts.start ∧ c.parts.stop ≤ textStop text)
      (p.childOf "token_tree") := by
    unfold Parts.childOf
    split
    · next c hc => exact .ok (hp c (List.mem_of_find?_eq_some hc))
    · exact .error _
  refine hchild.bind fun c hc => (length_text_le text hc.1 hc.2).bind fun t ht => .ok ?_
  have hinside : (inside t.toList).length = t.length - 2 := by
    rw [inside, List.length_dropLast, List.length_tail, String.length_toList]
    omega
  rw [Shorter, String.length_ofList, hinside]
  rcases Nat.eq_zero_or_pos text.length with hzero | hpos
  · refine .inr ⟨String.length_eq_zero_iff.mp hzero, String.length_eq_zero_iff.mp ?_⟩
    rw [String.length_ofList, hinside]
    omega
  · exact .inl (by omega)

/-- Whether the node is a statement of the block around it. -/
def Node.isStatement (n : Node) : Bool :=
  !Source.isComment n.kind && !(["\x7b", "\x7d", "label", ":"].contains n.kind)

/-- Whether nodes lie within their parents, and statements of a function within the text that the
    function stands around. -/
def Node.fits (text : String) (root : Node) : Bool :=
  root.isNested && root.children.all fun function => function.children.all fun body =>
    body.field != some "body" || body.children.all fun n =>
      !n.isStatement || (textStart ≤ n.start && n.stop ≤ textStop text)

/-! ## What is read -/

variable {bytes : Bytes}

theorem ensures_item_fn {P : MacroCall → Prop} {p : Parts}
    (hbody : ∀ c, p.child? "body" = some c → Ensures (Stmt.allEachCall P) c.asBlock) :
    Ensures (fun i : Item => ∀ decl, i = .fn decl → decl.EachCall P) (item bytes p) := by
  have hunknown (what : String) : Ensures (fun i : Item => ∀ decl, i = .fn decl → decl.EachCall P)
      (do return .unknown (← p.itemLabel bytes) what) := by
    refine .bindAny fun label => .ok ?_
    rintro decl ⟨⟩
  unfold item
  split
  · refine .bindAny fun label => .ok ?_
    rintro decl ⟨⟩
  · split
    · exact hunknown _
    · next i hi =>
      refine .ok ?_
      rintro decl rfl
      unfold item? at hi
      split at hi
      · obtain ⟨found, hfound, heq⟩ := exists_of_bind_eq_ok (Option.some.inj hi)
        obtain rfl := Item.fn.inj (Except.ok.inj heq)
        exact ensures_function hbody found hfound
      all_goals
        first
        | cases hi
        | obtain ⟨found, -, ⟨⟩⟩ := exists_of_return_eq_ok (Option.some.inj hi)
    · split
      · exact hunknown _
      · exact .error _

theorem asBlock_ofNode (n : Node) :
    (Phrase.ofNode bytes n).asBlock = readBlock bytes (Phrase.ofNode bytes n).parts := by
  cases n
  rw [Phrase.ofNode]

theorem Phrase.exists_of_mem_children {n : Node} {c : Phrase}
    (hc : c ∈ (Phrase.ofNode bytes n).parts.children) :
    ∃ m ∈ n.children, c = Phrase.ofNode bytes m := by
  rw [Phrase.parts_ofNode] at hc
  obtain ⟨m, hm, rfl⟩ := List.mem_map.mp hc
  exact ⟨m, hm, rfl⟩

theorem Node.isNested_of_mem {n c : Node} (h : n.isNested = true) (hc : c ∈ n.children) :
    c.isNested = true := by
  cases n
  rw [Node.isNested, Node.areNestedIn_iff] at h
  exact (h c hc).2

/-- The body of the function around a text holds shorter macro calls only. -/
theorem Node.fits.body {text : String} {root : Node} (hfits : root.fits text = true)
    {function body : Node} (hfunction : function ∈ root.children)
    (hbody : body ∈ function.children) (hfield : body.field = some "body") :
    Ensures (Stmt.allEachCall (Shorter text))
      (Phrase.ofNode (Text.encode (wrap text)) body).asBlock := by
  rw [Node.fits, Bool.and_eq_true] at hfits
  obtain ⟨hnested, hfits⟩ := hfits
  have hinside := List.all_eq_true.mp (List.all_eq_true.mp hfits function hfunction) body hbody
  rw [hfield] at hinside
  simp only [bne_self_eq_false, Bool.false_or, List.all_eq_true, Bool.or_eq_true, Bool.not_eq_true',
    Bool.and_eq_true, decide_eq_true_eq] at hinside
  rw [asBlock_ofNode]
  refine ensures_readBlock fun c hc hstatement => ?_
  obtain ⟨n, hn, rfl⟩ := Phrase.exists_of_mem_children hc
  have hin : n.isStatement = true := by
    rw [isInBlock, Phrase.kind, Phrase.parts_ofNode] at hstatement
    exact hstatement
  obtain ⟨hstart, hstop⟩ := (hinside n hn).resolve_left (by rw [hin]; simp)
  exact Phrase.eachCall_ofNode (callsIn_text text) n hstart hstop
    (Node.isNested_of_mem (Node.isNested_of_mem (Node.isNested_of_mem hnested hfunction) hbody) hn)

theorem eachCall_of_exprOf {text : String} {root : Node} (hfits : root.fits text = true) {e : Expr}
    (h : exprOf text root = .ok e) : e.EachCall (Shorter text) := by
  obtain ⟨-, -, h⟩ := exists_of_bind_eq_ok h
  obtain ⟨is, his, h⟩ := exists_of_bind_eq_ok h
  have hitems : ∀ i ∈ is, ∀ decl, i = .fn decl → decl.EachCall (Shorter text) := by
    refine Ensures.mapM (fun c hc => ensures_item_fn fun b hb => ?_) is his
    obtain ⟨function, hfunction, rfl⟩ := Phrase.exists_of_mem_children (List.mem_filter.mp hc).1
    obtain ⟨body, hbody, rfl⟩ := Phrase.exists_of_mem_children (List.mem_of_find?_eq_some hb)
    have hfield : body.field = some "body" := by
      have hfound := List.find?_some hb
      rw [Phrase.parts_ofNode] at hfound
      exact beq_iff_eq.mp hfound
    exact Node.fits.body hfits hfunction hbody hfield
  split at h
  · next decl =>
    have hdecl := hitems _ List.mem_cons_self decl rfl
    cases decl
    rw [FnDecl.EachCall] at hdecl
    dsimp only at h
    split at h
    · cases h
      exact hdecl.1
    · cases h
      exact Expr.eachCall_mac.mpr hdecl.1
    · cases h
  · cases h

end Source

end RustScript
