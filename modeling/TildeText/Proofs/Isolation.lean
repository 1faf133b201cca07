import TildeText.Proofs.Heredity
import TildeText.Proofs.PlainText

namespace TildeText

def Scope.extend (s : Scope) : List Frame → Scope
  | [] => s
  | f :: fs => (s.extend fs).push f

structure Invoked where
  left : Scope
  right : Scope
  depth : Nat
  leftOut : Output
  rightOut : Output

structure Machine.Inside (w : Invoked) (m m' : Machine) : Prop where
  state : m.state = m'.state
  scope : ∃ f fs, fs.length = w.depth ∧ Slot.Texts Bytes.IsPlain f.slots ∧
    m.scope = (w.left.push f).extend fs ∧ m'.scope = (w.right.push f).extend fs
  out : ∃ s, m.out = w.leftOut.write s ∧ m'.out = w.rightOut.write s

namespace Machine.Inside

variable {w : Invoked} {m m' m₁ m₁' : Machine}

theorem frame_eq (h : m.Inside w m') : m.scope.frame = m'.scope.frame := by
  obtain ⟨f, fs, -, -, hl, hr⟩ := h.scope
  rw [hl, hr]
  cases fs <;> rfl

theorem slots_eq (h : m.Inside w m') : m.scope.frame.slots = m'.scope.frame.slots := by
  rw [h.frame_eq]

theorem setState (h : m.Inside w m') (s : State) :
    { m with state := s }.Inside w { m' with state := s } :=
  ⟨rfl, h.scope, h.out⟩

theorem write (h : m.Inside w m') (t : Bytes) : (m.write t).Inside w (m'.write t) := by
  obtain ⟨s, hl, hr⟩ := h.out
  refine ⟨h.state, h.scope, s ++ t, ?_, ?_⟩
  · rw [Machine.write, hl, Output.write_write]
  · rw [Machine.write, hr, Output.write_write]

theorem mapFrame (h : m.Inside w m') {g : Frame → Frame}
    (hg : ∀ P, Slot.Texts P m.scope.frame.slots → Slot.Texts P (g m.scope.frame).slots) :
    (m.mapFrame g).Inside w (m'.mapFrame g) := by
  obtain ⟨f, fs, hfs, hf, hl, hr⟩ := h.scope
  rw [hl] at hg
  cases fs with
  | nil =>
    refine ⟨h.state, ⟨g f, [], hfs, hg _ hf, ?_, ?_⟩, h.out⟩
    · rw [Machine.mapFrame, hl]
      rfl
    · rw [Machine.mapFrame, hr]
      rfl
  | cons f₁ fs =>
    refine ⟨h.state, ⟨f, g f₁ :: fs, hfs, hf, ?_, ?_⟩, h.out⟩
    · rw [Machine.mapFrame, hl]
      rfl
    · rw [Machine.mapFrame, hr]
      rfl

theorem push (h : m.Inside w m') (f : Frame) :
    (m.push f).Inside { w with depth := w.depth + 1 } (m'.push f) := by
  obtain ⟨f₀, fs, hfs, hf, hl, hr⟩ := h.scope
  refine ⟨h.state, ⟨f₀, f :: fs, by rw [List.length_cons, hfs], hf, ?_, ?_⟩, h.out⟩
  · rw [Machine.push, hl]
    rfl
  · rw [Machine.push, hr]
    rfl

theorem pop (h : m.Inside { w with depth := w.depth + 1 } m') : m.pop.Inside w m'.pop := by
  obtain ⟨f₀, fs, hfs, hf, hl, hr⟩ := h.scope
  cases fs with
  | nil => cases hfs
  | cons f fs =>
    refine ⟨h.state, ⟨f₀, fs, Nat.succ.inj hfs, hf, ?_, ?_⟩, h.out⟩
    · rw [Machine.pop, hl]
      rfl
    · rw [Machine.pop, hr]
      rfl

theorem adopt (h : m.Inside w m')
    (hm₁ : ∀ P, Slot.Texts P m.scope.frame.slots → Slot.Texts P m₁.scope.frame.slots) :
    (m.adopt m₁).Inside w (m'.adopt m₁) := by
  have hframe := h.mapFrame (g := fun f => { f with slots := m₁.scope.frame.slots }) hm₁
  exact (hframe.setState m₁.state).write m₁.out.toBytes

theorem argument_plain (h : m.Inside w m') (hw : w.depth = 0) (registry : Registry) (k n : Nat) :
    (m.argument (eval registry k) n).Related (Machine.Inside w)
      (fun e e' => e.untraced = e'.untraced) (m'.argument (eval registry k) n) := by
  have hslots := h.slots_eq
  by_cases hraw : ∃ t, m.scope.frame.slots[n]? = some { text := some t }
  · obtain ⟨t, ht⟩ := hraw
    have hplain : t.IsPlain := by
      obtain ⟨f, fs, hfs, hf, hl, -⟩ := h.scope
      obtain rfl : fs = [] := List.eq_nil_of_length_eq_zero (hfs.trans hw)
      rw [hl] at ht
      exact hf.of_getElem? ht rfl
    cases k with
    | zero =>
      rw [Machine.argument_exhausted ht, Machine.argument_exhausted (hslots ▸ ht)]
      exact .exhausted
    | succ k =>
      rw [Machine.argument_plain hplain ht, Machine.argument_plain hplain (hslots ▸ ht)]
      exact .done (h.mapFrame fun P hP => hP.modify n fun _ => rfl)
  · have hknown : ∀ t, m.scope.frame.slots[n]? ≠ some { text := some t } :=
      fun t ht => hraw ⟨t, ht⟩
    rw [Machine.argument_known hknown, Machine.argument_known (hslots ▸ hknown), ← hslots]
    exact .done h

theorem aside (h : m.Inside { w with depth := d + 1 } m') :
    m.aside.Inside { w with depth := d, leftOut := {}, rightOut := {} } m'.aside := by
  obtain ⟨f₀, fs, hfs, hf, hl, hr⟩ := h.scope
  cases fs with
  | nil => cases hfs
  | cons f fs =>
    refine ⟨h.state, ⟨f₀, fs, Nat.succ.inj hfs, hf, ?_, ?_⟩, [], rfl, rfl⟩
    · rw [Machine.aside, hl]
      rfl
    · rw [Machine.aside, hr]
      rfl

theorem resume (h : m.Inside { w with depth := d + 1 } m') (f : Frame)
    (h₁ : m₁.Inside { w with depth := d, leftOut := {}, rightOut := {} } m₁') :
    (m.resume f m₁).Inside { w with depth := d + 1 } (m'.resume f m₁') := by
  obtain ⟨f₀, fs, hfs, hf, hl, hr⟩ := h₁.scope
  obtain ⟨_, gs, hgs, -, hl', hr'⟩ := h.scope
  cases gs with
  | nil => cases hgs
  | cons g gs =>
    refine ⟨h₁.state, ⟨f₀, f :: fs, by rw [List.length_cons, hfs], hf, ?_, ?_⟩, h.out⟩
    · rw [Machine.resume, hl', hl]
      rfl
    · rw [Machine.resume, hr', hr]
      rfl

theorem simulation :
    Simulation (fun _ => True) Machine.Inside (fun e e' => e.untraced = e'.untraced) Eq where
  calls _ _ _ := rfl
  defects _ := .refl (fun _ => rfl) _ _
  under _ := rfl
  slots h := h.slots_eq
  fault _ _ _ _ := rfl
  own _ := rfl
  write h s := h.write s
  perform h ctx r _ hr := r.perform_related (F := fun e e' => e.untraced = e'.untraced) hr ctx
    (fun _ => rfl) h.state h.slots_eq fun _ hm₁ => h.adopt hm₁
  argument {registry k w m m'} he h n := by
    obtain ⟨left, right, depth, leftOut, rightOut⟩ := w
    cases depth with
    | zero => exact h.argument_plain rfl registry k n
    | succ d =>
      have haside := aside (w := ⟨left, right, 0, leftOut, rightOut⟩) h
      refine he.argument h h.slots_eq haside (fun m₁ m₁' h₁ => ⟨?_, ?_, fun n v => ?_⟩) n
      · obtain ⟨s, hl, hr⟩ := h₁.out
        rw [hl, hr]
      · rw [← h.frame_eq]
        exact resume (w := ⟨left, right, 0, leftOut, rightOut⟩) h _ h₁
      · rw [← h.frame_eq]
        exact resume (w := ⟨left, right, 0, leftOut, rightOut⟩) h _ h₁
  push {w m m' f f'} h hf := by
    subst hf
    exact ⟨_, h.push f, fun m₁ m₁' h₁ => h₁.pop⟩
  rebind h n v := h.mapFrame fun P hP => hP.rebind _ n v
  find {w m m'} h name := by
    rw [← h.state]
    cases m.state.dictionary.find m.state.storage.system name with
    | error p => exact .error
    | ok found =>
      obtain ⟨e, d⟩ := found
      refine .ok rfl rfl ?_
      have hs := h.setState { m.state with dictionary := d }
      simpa [Machine.setDictionary, h.state] using hs

theorem start (state : State) (scope scope' : Scope) (out out' : Output) {f : Frame}
    (hf : Slot.Texts Bytes.IsPlain f.slots) :
    (Machine.push ⟨state, scope, out⟩ f).Inside ⟨scope, scope', 0, out, out'⟩
      (Machine.push ⟨state, scope', out'⟩ f) :=
  ⟨rfl, ⟨f, [], rfl, hf, rfl, rfl⟩, [], rfl, rfl⟩

end Machine.Inside

/-- Machines that are in the scopes that they were in before, with the same state and with the same
added to their outputs. -/
structure Machine.Returned (scope scope' : Scope) (out out' : Output) (m m' : Machine) : Prop where
  state : m.state = m'.state
  left : m.scope = scope
  right : m'.scope = scope'
  out : ∃ s, m.out = out.write s ∧ m'.out = out'.write s

theorem Machine.Inside.returned {scope scope' : Scope} {out out' : Output} {m m' : Machine}
    (h : m.Inside ⟨scope, scope', 0, out, out'⟩ m') :
    m.pop.Returned scope scope' out out' m'.pop := by
  obtain ⟨f, fs, hfs, -, hl, hr⟩ := h.scope
  obtain rfl : fs = [] := List.eq_nil_of_length_eq_zero hfs
  refine ⟨h.state, ?_, ?_, h.out⟩
  · rw [Machine.pop, hl]
    rfl
  · rw [Machine.pop, hr]
    rfl

theorem Call.index?_of_not_allDigits {c : Call} (h : c.args = name :: rest)
    (hname : name.allDigits = false) : c.index? = none := by
  simp [index?, h, hname]

theorem Invocation.carryOut_isolated {c : Call} (hargs : c.args = name :: rest)
    (hplain : ∀ a ∈ c.args, a.IsPlain) (hname : name.allDigits = false) {registry : Registry}
    (hbuiltin : registry.lookup name = none) (n : Nat) (src : Source) (state : State)
    (scope scope' : Scope) (out out' : Output) :
    (carryOut registry n (eval registry n) src c ⟨state, scope, out⟩).Related
      (Machine.Returned scope scope' out out') (fun e e' => e.untraced = e'.untraced)
      (carryOut registry n (eval registry n) src c ⟨state, scope', out'⟩) := by
  have S := Machine.Inside.simulation
  have hstart := Machine.Inside.start state scope scope' out out' (f := c.frame src)
    (.ofTexts hplain _)
  simp only [carryOut, Call.index?_of_not_allDigits hargs hname, byName]
  have hslot (m : Machine) :
      (m.push (c.frame src)).scope.frame.slots[0]? = some { text := some name } := by
    simp [Machine.push, Scope.push, Call.frame, Frame.ofTexts, hargs]
  cases n with
  | zero =>
    rw [Machine.argument_exhausted (hslot _), Machine.argument_exhausted (hslot _)]
    exact .exhausted
  | succ n =>
    have hp : name.IsPlain := hplain name (by simp [hargs])
    rw [Machine.argument_plain hp (hslot _), Machine.argument_plain hp (hslot _)]
    simp only [Option.getD_some, hbuiltin]
    exact S.expansion (S.keeps_eval registry.asksOnly (n + 1)) name
      (hstart.mapFrame fun P hP => hP.modify 0 fun _ => rfl) fun _ _ h => h.returned

/-- The body of a macro is isolated from where the macro is invoked. If nothing is invoked in the
arguments of a well fenced invocation, the frames around it are left as they were, whatever the body
does, and whether it fails or not. What is added to the output, the state that is left, and a fault
up to its trace are the same in every scope. -/
theorem eval_isolated (registry : Registry) (c : Call) (h : c.WellFenced)
    (hargs : c.args = name :: rest) (hplain : ∀ a ∈ c.args, ¬ [Token.lt, Token.tilde] <:+: a)
    (hname : name.allDigits = false) (hbuiltin : registry.lookup name = none) (n : Nat)
    (label : Bytes) (state : State) (scope scope' : Scope) (out out' : Output) :
    (eval registry n ⟨label, c.render⟩ ⟨state, scope, out⟩).Related
      (Machine.Returned scope scope' out out') (fun e e' => e.untraced = e'.untraced)
      (eval registry n ⟨label, c.render⟩ ⟨state, scope', out'⟩) := by
  cases n with
  | zero => exact .exhausted
  | succ n =>
    rw [h.eval_eq, h.eval_eq]
    have hargs' : ∀ a ∈ c.args, a.IsPlain :=
      fun a ha => (h.fits a ha).balanced.isPlain (hplain a ha)
    exact Invocation.carryOut_isolated (c := c.atStart) hargs hargs' hname hbuiltin n _ state scope
      scope' out out'

def State.rebinding : State where
  dictionary :=
    { table := (Table.empty 0).install (utf8 "m") (utf8 "<~set~v~<~1~>~><~1~b~><~0~~><~1~>") }

def Call.ofRebinding : Call := ⟨0, 2, [utf8 "m", utf8 "a~c"]⟩

theorem eval_isolated_rebinding :
    Call.ofRebinding.WellFenced ∧
    (∀ a ∈ Call.ofRebinding.args, ¬ [Token.lt, Token.tilde] <:+: a) ∧
    (utf8 "m").allDigits = false ∧ Registry.standard.lookup (utf8 "m") = none ∧
    ∃ m, eval .standard 5 ⟨[], Call.ofRebinding.render⟩ ⟨.rebinding, ⟨.empty, []⟩, {}⟩ =
        .done () m ∧
      m.out.toBytes = utf8 "b" ∧ (m.table.find? (utf8 "v")).map Entry.value = some (utf8 "a~c") ∧
      ∀ scope out,
        (eval .standard 5 ⟨[], Call.ofRebinding.render⟩ ⟨.rebinding, ⟨.empty, []⟩, {}⟩).Related
          (Machine.Returned ⟨.empty, []⟩ scope {} out) (fun e e' => e.untraced = e'.untraced)
          (eval .standard 5 ⟨[], Call.ofRebinding.render⟩ ⟨.rebinding, scope, out⟩) := by
  have hc : Call.ofRebinding.WellFenced :=
    ⟨by decide, by decide, utf8 "m", [utf8 "a~c"], rfl, by decide, by decide, by decide⟩
  have hplain : ∀ a ∈ Call.ofRebinding.args, ¬ [Token.lt, Token.tilde] <:+: a := by decide
  refine ⟨hc, hplain, rfl, rfl, _, rfl, by decide, by decide, fun scope out => ?_⟩
  exact eval_isolated .standard _ hc rfl hplain rfl rfl 5 [] _ _ scope {} out

end TildeText
