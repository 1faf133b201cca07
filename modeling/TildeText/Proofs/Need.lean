import TildeText.Proofs.PlainText

namespace TildeText

def Invocation.referBetween (ev : Source → Machine → Outcome Unit) (p : Bytes) :
    List Bytes → Machine → Outcome Unit
  | [], m => .done () (m.write p)
  | q :: ps, m => (refer ev 1 (m.write p)).andThen fun _ m => referBetween ev q ps m

namespace Bytes

theorem tokens_reference (s : Bytes) :
    tokens (utf8 "<~1~>" ++ s) = [.fence 1, .byte 0x31, .run 1 true] ++ s.tokens :=
  tokens_append _ _ (by rintro ⟨h | h, -⟩ <;> revert h <;> decide)

end Bytes

theorem Invocation.carryOut_reference (registry : Registry) (n : Nat)
    (ev : Source → Machine → Outcome Unit) (src : Source) (offset width : Nat) (m : Machine) :
    carryOut registry n ev src ⟨offset, width, [[0x31]]⟩ m = refer ev 1 m :=
  rfl

theorem Layout.Scan.foldl_reference (done : List Segment) (k : Nat) :
    [Token.fence 1, .byte 0x31, .run 1 true].foldl step ⟨done, k, .outside⟩ =
      ⟨.call ⟨k + 2, 1, [[0x31]]⟩ :: done, k + 5, .outside⟩ := by
  simp [step, Opened.feed, Opened.keep, Opened.split, Opened.call, Opened.args, Opened.pendingText,
    Token.spell, Token.size]

theorem Layout.Scan.foldl_references (p : Bytes) (ps : List Bytes)
    (h : ∀ q ∈ p :: ps, Token.lt ∉ q ∧ Token.tilde ∉ q) (done : List Segment) (k : Nat) :
    ∃ xs k', (Bytes.tokens (.join (utf8 "<~1~>") (p :: ps))).foldl step ⟨done, k, .outside⟩ =
        ⟨xs.reverse ++ done, k', .outside⟩ ∧
      ∀ registry n ev src m, Segment.runAll (Invocation.carryOut registry n ev src) xs m =
        Invocation.referBetween ev p ps m := by
  induction ps generalizing p done k with
  | nil =>
    have hp := Bytes.isPlain_of_free (h p List.mem_cons_self)
    obtain ⟨k', hk'⟩ := foldl_plain p.tokens hp done k
    refine ⟨p.tokens.map .literal, k', ?_, fun registry n ev src m => ?_⟩
    · rw [Bytes.join_singleton, hk']
    · rw [Segment.runAll_literals, Bytes.spellAll_tokens, Invocation.referBetween]
  | cons q ps ih =>
    obtain ⟨hfree, hps⟩ := List.forall_mem_cons.1 h
    obtain ⟨k₁, hk₁⟩ := foldl_plain p.tokens (Bytes.isPlain_of_free hfree) done k
    let c : Call := ⟨k₁ + 2, 1, [[0x31]]⟩
    obtain ⟨xs, k', hk', hxs⟩ :=
      ih q hps (.call c :: ((p.tokens.map Segment.literal).reverse ++ done)) (k₁ + 5)
    refine ⟨p.tokens.map .literal ++ .call c :: xs, k', ?_, fun registry n ev src m => ?_⟩
    · rw [Bytes.join_cons_cons, Bytes.tokens_append _ _ (Bytes.not_fuse_of_free hfree _),
        Bytes.tokens_reference, List.foldl_append, List.foldl_append, hk₁, foldl_reference, hk']
      simp [c]
    · rw [Segment.runAll_append, Segment.runAll_literals, Bytes.spellAll_tokens, Outcome.andThen,
        Segment.runAll, Invocation.carryOut_reference, Invocation.referBetween]
      cases Invocation.refer ev 1 (m.write p) with
      | done a m => exact hxs registry n ev src m
      | failed e m => rfl
      | exhausted => rfl

theorem eval_references (p : Bytes) (ps : List Bytes)
    (h : ∀ q ∈ p :: ps, Token.lt ∉ q ∧ Token.tilde ∉ q) (registry : Registry) (n : Nat)
    (label : Bytes) (m : Machine) :
    eval registry (n + 1) ⟨label, .join (utf8 "<~1~>") (p :: ps)⟩ m =
      Invocation.referBetween (eval registry n) p ps m := by
  obtain ⟨xs, k, hk, hxs⟩ := Layout.Scan.foldl_references p ps h [] 0
  have hscan : Bytes.scan (.join (utf8 "<~1~>") (p :: ps)) = ⟨xs.reverse ++ [], k, .outside⟩ := hk
  have hlayout : Bytes.layout (.join (utf8 "<~1~>") (p :: ps)) = ⟨xs, none⟩ := by
    rw [Bytes.layout_eq_finish, hscan]
    simp [Layout.Scan.finish]
  rw [eval, hlayout, Layout.run_of_no_defect rfl, hxs]

section

variable {ev : Source → Machine → Outcome Unit} {m : Machine} {p : Bytes} {ps : List Bytes}

theorem Invocation.referBetween_known {s : Slot} (hs : m.scope.frame.slots[1]? = some s)
    (hv : s.value = some v) :
    referBetween ev p ps m = .done () (m.write (.join v (p :: ps))) := by
  induction ps generalizing p m with
  | nil => rw [referBetween, Bytes.join_singleton]
  | cons q ps ih =>
    have hrefer : refer ev 1 (m.write p) = .done () ((m.write p).write v) := by
      have hs' : (m.write p).scope.frame.slots[1]? = some s := hs
      obtain ⟨text, value⟩ := s
      obtain rfl : value = some v := hv
      simp only [refer, Machine.argument, hs', Option.getD_some]
    have hrest := @ih ((m.write p).write v) q hs
    rw [referBetween, hrefer, Outcome.andThen, hrest, Machine.write_write, Machine.write_write,
      Bytes.join_cons_cons]

theorem Machine.argument_push {f : Frame} (hf : f.slots[n]? = some { text := some t }) :
    (m.push f).argument ev n =
      match ev { bytes := t } { m with out := {} } with
      | .done _ m₁ =>
        .done (some m₁.out.toBytes) (push { m₁ with out := m.out } (f.remember n m₁.out.toBytes))
      | .failed x m₁ => .failed x (push { m₁ with out := m.out } f)
      | .exhausted => .exhausted := by
  have hs : (m.push f).scope.frame.slots[n]? = some { text := some t } := hf
  rw [argument, hs]
  rfl

theorem Invocation.referBetween_raw {f : Frame} (hf : f.slots[1]? = some { text := some t })
    (hps : ps ≠ []) :
    (referBetween ev p ps (m.push f)).pop =
      match ev { bytes := t } { m with out := {} } with
      | .done _ m₁ => .done () { m₁ with out := m.out.write (.join m₁.out.toBytes (p :: ps)) }
      | .failed x m₁ => .failed x { m₁ with out := m.out.write p }
      | .exhausted => .exhausted := by
  cases ps with
  | nil => exact absurd rfl hps
  | cons q ps =>
    have hpush : (m.push f).write p = (m.write p).push f := rfl
    rw [referBetween, refer, hpush, Machine.argument_push hf]
    have hout : { m.write p with out := {} } = { m with out := {} } := rfl
    rw [hout]
    cases ev { bytes := t } { m with out := {} } with
    | done a m₁ =>
      have hs : (f.remember 1 m₁.out.toBytes).slots[1]? =
          some { text := some t, value := some m₁.out.toBytes } := by
        simp [Frame.remember, hf]
      simp only [Outcome.andThen, Option.getD_some]
      rw [referBetween_known hs rfl, Machine.write_write, Bytes.join_cons_cons,
        ← Output.write_write]
      rfl
    | failed x m₁ => rfl
    | exhausted => rfl

end

section

variable {c : Call} {registry : Registry} {k : Nat} {m : Machine} {name title : Bytes}

theorem Bytes.not_allDigits_of_eval (hname : name.allDigits = false)
    (htitle : eval registry (k + 1) { bytes := title } { m with out := {} } =
      .done () { m with out := Output.write {} name }) : title.allDigits = false := by
  rw [Bool.eq_false_iff]
  intro hdigits
  rw [(isPlain_of_allDigits hdigits).eval_eq] at htitle
  have hout : Output.write {} title = Output.write {} name := by
    simpa [Machine.write] using htitle
  have heq : title = name := by
    have hbytes := congrArg Output.toBytes hout
    rw [Output.toBytes_write, Output.toBytes_write] at hbytes
    exact List.append_cancel_left hbytes
  rw [heq, hname] at hdigits
  cases hdigits

theorem Invocation.expand_entry (h : m.table.find? name = some e)
    (ev : Source → Machine → Outcome Unit) :
    expand ev name m = (ev ⟨e.name, e.value⟩ m).pop := by
  have ht : m.state.dictionary.table.find? name = some e := h
  rw [expand, Dictionary.find, ht]

theorem Invocation.carryOut_macro (hargs : c.args = title :: rest)
    (htitle : eval registry (k + 1) { bytes := title } { m with out := {} } =
      .done () { m with out := Output.write {} name })
    (hname : name.allDigits = false) (hbuiltin : registry.lookup name = none)
    (hentry : m.table.find? name = some e) (src : Source) :
    carryOut registry (k + 1) (eval registry (k + 1)) src c m =
      (eval registry (k + 1) ⟨e.name, e.value⟩ (m.push ((c.frame src).remember 0 name))).pop := by
  have hindex : c.index? = none := by
    simp [Call.index?, hargs, Bytes.not_allDigits_of_eval hname htitle]
  have hslot : (c.frame src).slots[0]? = some { text := some title } := by
    simp [Call.frame, Frame.ofTexts, hargs]
  have hvalue : (Output.write {} name).toBytes = name := Output.toBytes_write _ _
  rw [carryOut, hindex]
  simp only [byName, Machine.argument_push hslot, htitle, hvalue, Option.getD_some, hbuiltin]
  exact expand_entry (m := m.push ((c.frame src).remember 0 name)) hentry _

end

/-- Arguments are called by need. The body of a macro consists of pieces with references to the
first argument between them. Without any reference the argument is not evaluated. Otherwise what the
invocation does is what a single evaluation of the argument does in the scope of the invocation, and
what is written has the output of that one evaluation in the place of every reference. -/
theorem call_by_need (registry : Registry) (c : Call) (h : c.WellFenced)
    (hargs : c.args = title :: t :: rest) (k : Nat) (m : Machine)
    (htitle : eval registry (k + 1) { bytes := title } { m with out := {} } =
      .done () { m with out := Output.write {} name })
    (hname : name.allDigits = false) (hbuiltin : registry.lookup name = none)
    (hentry : m.table.find? name = some e)
    (hbody : e.value = .join (utf8 "<~1~>") (p :: ps))
    (hpieces : ∀ q ∈ p :: ps, Token.lt ∉ q ∧ Token.tilde ∉ q) (label label' : Bytes) :
    (ps = [] → eval registry (k + 2) ⟨label, c.render⟩ m = .done () (m.write p)) ∧
    (ps ≠ [] →
      (∀ m₁, eval registry k ⟨label', t⟩ { m with out := {} } = .done () m₁ →
        eval registry (k + 2) ⟨label, c.render⟩ m =
          .done () { m₁ with out := m.out.write (.join m₁.out.toBytes (p :: ps)) }) ∧
      (∀ x m₁, eval registry k ⟨label', t⟩ { m with out := {} } = .failed x m₁ →
        ∃ x', eval registry (k + 2) ⟨label, c.render⟩ m =
          .failed x' { m₁ with out := m.out.write p } ∧ x'.untraced = x.untraced) ∧
      (eval registry k ⟨label', t⟩ { m with out := {} } = .exhausted →
        eval registry (k + 2) ⟨label, c.render⟩ m = .exhausted)) := by
  let src : Source := ⟨label, c.render⟩
  have hslot : ((c.atStart.frame src).remember 0 name).slots[1]? = some { text := some t } := by
    simp [Call.frame, Call.atStart, Frame.ofTexts, Frame.remember, hargs]
  have hrun : eval registry (k + 2) src m = (Invocation.referBetween (eval registry k) p ps
      (m.push ((c.atStart.frame src).remember 0 name))).pop := by
    have hcall := Invocation.carryOut_macro (c := c.atStart) hargs htitle hname hbuiltin hentry src
    rw [h.eval_eq, hcall, hbody, eval_references p ps hpieces]
  rw [hrun]
  refine ⟨?_, fun hps => ?_⟩
  · rintro rfl
    rfl
  · rw [Invocation.referBetween_raw hslot hps]
    have hlabel := eval_named_untraced registry k { m with out := {} } [] label' t
    generalize eval registry k ⟨[], t⟩ { m with out := {} } = x at hlabel ⊢
    refine ⟨fun m₁ h₁ => ?_, fun y m₁ h₁ => ?_, fun h₁ => ?_⟩
    · rw [h₁] at hlabel
      cases x <;> cases hlabel
      rfl
    · rw [h₁] at hlabel
      cases x with
      | done a m₂ => cases hlabel
      | exhausted => cases hlabel
      | failed x m₂ =>
        obtain ⟨hx, rfl⟩ : x.untraced = y.untraced ∧ m₂ = m₁ := by
          simpa [Outcome.untraced] using hlabel
        exact ⟨x, rfl, hx⟩
    · rw [h₁] at hlabel
      cases x <;> cases hlabel
      rfl

def Machine.bracketing : Machine where
  state := { dictionary := { table := (Table.empty 0).install (utf8 "m") (utf8 "(<~1~>,<~1~>)") } }
  scope := ⟨.ofValues [utf8 "top", utf8 "a"], []⟩

def Call.ofBracketing : Call :=
  ⟨0, 2, [utf8 "m", utf8 "<~1~<~1~>b~><~define~m~x~><~gensym~><~1~>"]⟩

theorem call_by_need_bracketing :
    Call.ofBracketing.WellFenced ∧
    eval .standard 5 { bytes := utf8 "m" } { Machine.bracketing with out := {} } =
      .done () { Machine.bracketing with out := Output.write {} (utf8 "m") } ∧
    (∃ e, Machine.bracketing.table.find? (utf8 "m") = some e ∧
      e.value = .join (utf8 "<~1~>") [utf8 "(", utf8 ",", utf8 ")"]) ∧
    ∃ m₁, eval .standard 4 { bytes := utf8 "<~1~<~1~>b~><~define~m~x~><~gensym~><~1~>" }
        { Machine.bracketing with out := {} } = .done () m₁ ∧
      m₁.out.toBytes = utf8 "1001ab" ∧
      eval .standard 6 { bytes := Call.ofBracketing.render } .bracketing =
        .done () { m₁ with out := Output.write {} (utf8 "(1001ab,1001ab)") } := by
  have hc : Call.ofBracketing.WellFenced :=
    ⟨by decide, by decide, utf8 "m", [_], rfl, by decide, by decide, by decide⟩
  have hname : eval .standard 5 { bytes := utf8 "m" } { Machine.bracketing with out := {} } =
      .done () { Machine.bracketing with out := Output.write {} (utf8 "m") } := rfl
  obtain ⟨e, hentry, hbody⟩ : ∃ e, Machine.bracketing.table.find? (utf8 "m") = some e ∧
      e.value = .join (utf8 "<~1~>") [utf8 "(", utf8 ",", utf8 ")"] := ⟨_, rfl, rfl⟩
  have hneed := call_by_need .standard _ hc rfl 4 .bracketing hname rfl rfl hentry hbody (by decide)
    [] []
  exact ⟨hc, hname, ⟨e, hentry, hbody⟩, _, rfl, rfl, (hneed.2 (by simp)).1 _ rfl⟩

end TildeText
