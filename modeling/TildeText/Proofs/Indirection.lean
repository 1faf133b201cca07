import TildeText.Proofs.ArgumentNumbers
import TildeText.Proofs.Fuel
import TildeText.Proofs.Heredity
import TildeText.Proofs.Need

/-!
Arguments that are reached through another frame. The body of a macro stands in the frame of its
invocation; a text that is evaluated as if it were a body stands in a frame whose arguments refer to
those of the invocation. Evaluation goes on in parallel in both: an argument that is reached through
another frame is evaluated where it would have been, once, and its value is remembered.
-/

namespace TildeText

/-- What there is of an argument: its value, or a raw text that has yet to be evaluated. What is not
there counts as empty. -/
inductive Given
  | value (v : Bytes)
  | text (t : Bytes)

def Slot.given : Option Slot → Given
  | some { text := some t, value := none } => .text t
  | s => .value ((s.bind Slot.value).getD [])

def Frame.given (f : Frame) (n : Nat) : Given := Slot.given f.slots[n]?

namespace Given

def eval (registry : Registry) (k : Nat) (m : Machine) : Given → Outcome Unit
  | .value v => .done () (m.write v)
  | .text t => TildeText.eval registry k { bytes := t } m

theorem eval_upTo (h : k ≤ k') (registry : Registry) (m : Machine) (g : Given) :
    (g.eval registry k m).UpTo (g.eval registry k' m) := by
  cases g with
  | value v => exact .done rfl
  | text t => exact TildeText.eval_upTo h _ m

end Given

theorem Slot.given_eq_text {s : Option Slot} (h : Slot.given s = .text t) :
    s = some { text := some t } := by
  unfold Slot.given at h
  split at h
  · cases h
    rfl
  · cases h

theorem Slot.given_value (v : Option Bytes) :
    Slot.given (some { value := v }) = .value (v.getD []) :=
  rfl

namespace Frame

variable {f : Frame} {n : Nat}

theorem getElem?_of_given (h : f.given n = .text t) : f.slots[n]? = some { text := some t } :=
  Slot.given_eq_text h

theorem argument_given {m : Machine} (h : m.scope.frame.given n = .value v)
    (ev : Source → Machine → Outcome Unit) :
    ∃ a, a.getD [] = v ∧ m.argument ev n = .done a m := by
  have hknown : ∀ t, m.scope.frame.slots[n]? ≠ some { text := some t } := by
    intro t ht
    rw [given, ht] at h
    cases h
  refine ⟨_, ?_, Machine.argument_known hknown ev⟩
  rw [given] at h
  unfold Slot.given at h
  split at h
  · rename_i t ht
    exact absurd ht (hknown t)
  · exact Given.value.inj h

theorem given_remember (h : f.given n = .text t) (v : Bytes) (i : Nat) :
    (f.remember n v).given i = if i = n then .value v else f.given i := by
  rw [given, remember, List.getElem?_modify]
  split
  · subst_vars
    rw [getElem?_of_given h, if_pos rfl]
    rfl
  · rename_i hi
    rw [if_neg (Ne.symm hi), given]
    cases f.slots[i]? <;> rfl

theorem given_rebind (f : Frame) (n : Nat) (v : Option Bytes) (i : Nat) :
    (f.rebind n v).given i = if i = n then .value (v.getD []) else f.given i := by
  rw [given, getElem?_rebind]
  split
  · exact Slot.given_value v
  · rw [given]
    split
    · rfl
    · -- an empty slot that was added counts as much as none
      rename_i hlen
      rw [List.getElem?_eq_none (Nat.le_of_not_lt hlen)]
      split <;> rfl

end Frame

def Bytes.Refers (n : Nat) (t : Bytes) : Prop :=
  ∀ registry k name m, eval registry (k + 1) ⟨name, t⟩ m = Invocation.refer (eval registry k) n m

theorem Bytes.refers_of_layout {t : Bytes} {c : Call} (ht : t.layout = ⟨[.call c], none⟩)
    (hc : c.index? = some n) (hargs : c.args.length < 2) : t.Refers n := by
  intro registry k name m
  rw [eval, ht, Layout.run_of_no_defect rfl, Segment.runAll_call, Invocation.carryOut, hc]
  simp only [hargs, if_true]
  cases Invocation.refer (eval registry k) n m <;> rfl

theorem Builtin.run_evalText (ctx : Context) (m : Machine) :
    Program.run ctx evalText m = match m.scope.frame.raw 1 with
      | some s => ((ctx.eval { bytes := s } (m.push (.under (utf8 "eval")))).pop).andThen
          fun _ m => .done .finished m
      | none => .done .finished m := by
  have hask : evalText = .ask (.raw 1) fun s => match s with
    | some s => .ask (.evalUnder (utf8 "eval") { bytes := s }) fun _ => .done .finished
    | none => .done .finished := rfl
  rw [hask, Program.run_ask, Request.perform]
  cases m.scope.frame.raw 1 with
  | some s => exact Program.run_ask _ _ _ _
  | none => rfl

def Given.update (args : Nat → Given) (n : Nat) (v : Bytes) (i : Nat) : Given :=
  if i = n then .value v else args i

theorem Given.update_self {args : Nat → Given} (h : args n = .value v) :
    update args n v = args := by
  funext i
  rw [update]
  split
  · subst_vars
    exact h.symm
  · rfl

def Frame.Forwards (under f : Frame) (args : Nat → Given) : Prop :=
  ∀ n, 0 < n → (under.given n = args n ∧ ∃ v, args n = .value v) ∨
    ∃ t, t.Refers (n + 1) ∧ under.given n = .text t ∧ f.given (n + 1) = args n

theorem Frame.Forwards.update {under f under₁ f₁ : Frame} {args : Nat → Given} {n : Nat} {v : Bytes}
    (h : under.Forwards f args) (hu : under₁.given = Given.update under.given n v)
    (hf : ∀ i, i ≠ n → f₁.given (i + 1) = f.given (i + 1)) :
    under₁.Forwards f₁ (Given.update args n v) := by
  intro i hi
  rw [hu, Given.update, Given.update]
  by_cases hin : i = n
  · rw [if_pos hin, if_pos hin]
    exact .inl ⟨rfl, v, rfl⟩
  · rw [if_neg hin, if_neg hin, hf i hin]
    exact h i hi

/-- How the frame of a body has its arguments: it has them itself, or it has references to those of
another frame, which is the one that was opened for the invocation. -/
inductive Way
  | direct
  | through

inductive Scope.Gives (around : Scope) (args : Nat → Given) : Way → Scope → Prop
  | direct {f : Frame} (h : ∀ n, 0 < n → f.given n = args n) :
      Gives around args .direct (around.push f)
  | through {f under : Frame} (h : under.Forwards f args) :
      Gives around args .through ((around.push f).push under)

inductive Frame.Refers (f : Frame) (n : Nat) (out : Output) : Outcome Unit → Outcome Unit → Prop
  | done (hv : m₁.out.toBytes = v) (h : f₁.given = Given.update f.given n v) :
      Refers f n out (.done () m₁) (.done () (Machine.push { m₁ with out := out.write v } f₁))
  | failed : Refers f n out (.failed e m₁) (.failed e (Machine.push { m₁ with out } f))
  | exhausted : Refers f n out .exhausted .exhausted

theorem Frame.refers (f : Frame) (n : Nat) (m : Machine) (registry : Registry) (k : Nat) :
    f.Refers n m.out ((f.given n).eval registry k { m with out := {} })
      (Invocation.refer (eval registry k) n (m.push f)) := by
  rw [Invocation.refer_eq]
  cases hg : f.given n with
  | value v =>
    obtain ⟨a, rfl, ha⟩ := argument_given (m := m.push f) hg (eval registry k)
    have hv : (Output.write {} (a.getD [])).toBytes = a.getD [] := Output.toBytes_write _ _
    rw [ha, Outcome.andThen]
    have hf : f.given = Given.update f.given n (a.getD []) := (Given.update_self hg).symm
    exact .done hv hf
  | text t =>
    rw [Machine.argument_push (getElem?_of_given hg), Given.eval]
    cases eval registry k { bytes := t } { m with out := {} } with
    | done a m₁ => exact .done rfl (funext fun i => given_remember hg _ i)
    | failed e m₁ => exact .failed
    | exhausted => exact .exhausted

namespace Scope.Gives

inductive Refers (args : Nat → Given) (way : Way) (n : Nat) (out : Output) :
    Outcome Unit → Outcome Unit → Prop
  | done (hv : m₁.out.toBytes = v) (hs : m.state = m₁.state) (ho : m.out = out.write v)
      (h : m₁.scope.Gives (Given.update args n v) way m.scope) :
      Refers args way n out (.done () m₁) (.done () m)
  | failed (hs : m.state = m₁.state) (ho : m.out = out) (h : m₁.scope.Gives args way m.scope) :
      Refers args way n out (.failed e m₁) (.failed e m)
  | exhausted : Refers args way n out .exhausted .exhausted

variable {around : Scope} {args : Nat → Given} {n : Nat} {f under : Frame}

theorem refers_direct (h : ∀ i, 0 < i → f.given i = args i) (hn : 0 < n) (m : Machine)
    (registry : Registry) (k : Nat) :
    Refers args .direct n m.out ((args n).eval registry k { m with out := {} })
      (Invocation.refer (eval registry k) n (m.push f)) := by
  have hf := f.refers n m registry k
  rw [h n hn] at hf
  generalize Given.eval registry k _ (args n) = x, Invocation.refer _ n _ = y at hf ⊢
  cases hf with
  | @done v m₁ f₁ hv hf =>
    refine .done hv rfl rfl (.direct (f := f₁) fun i hi => ?_)
    rw [hf, Given.update, Given.update, h i hi]
  | failed => exact .failed rfl rfl (.direct h)
  | exhausted => exact .exhausted

theorem refers_known (h : under.Forwards f args) (hg : under.given n = args n)
    (hv : args n = .value v) (m : Machine) (registry : Registry) (k : Nat) :
    Refers args .through n m.out ((args n).eval registry k { m with out := {} })
      (Invocation.refer (eval registry k) n ((m.push f).push under)) := by
  have hunder := under.refers n (m.push f) registry k
  rw [hg, hv] at hunder
  rw [hv]
  generalize Invocation.refer _ n _ = y at hunder ⊢
  cases hunder with
  | done hv hu => exact .done hv rfl rfl (.through (h.update hu fun i _ => rfl))

theorem refers_through (h : under.Forwards f args) (ht : t.Refers (n + 1))
    (hg : under.given n = .text t) (hf : f.given (n + 1) = args n) (m : Machine)
    (registry : Registry) (k : Nat) :
    Refers args .through n m.out ((args n).eval registry k { m with out := {} })
      (Invocation.refer (eval registry (k + 1)) n ((m.push f).push under)) := by
  have hrefer := f.refers (n + 1) { m with out := {} } registry k
  have hunder := under.refers n (m.push f) registry (k + 1)
  rw [hf] at hrefer
  rw [hg, Given.eval, ht] at hunder
  change under.Refers n m.out (Invocation.refer _ (n + 1) (Machine.push { m with out := {} } f)) _
    at hunder
  generalize Given.eval registry k _ (args n) = x, Invocation.refer _ (n + 1) _ = y,
    Invocation.refer _ n _ = z at hrefer hunder ⊢
  cases hrefer with
  | @done v m₁ f₁ hv hf =>
    cases hunder with
    | @done v' _ under₁ hv' hu =>
      obtain rfl : v = v' := (Output.toBytes_write {} v).symm.trans hv'
      refine .done hv rfl rfl (.through (h.update hu fun i hi => ?_))
      rw [hf, Given.update, if_neg (by omega)]
  | failed =>
    cases hunder with
    | failed => exact .failed rfl rfl (.through h)
  | exhausted =>
    cases hunder with
    | exhausted => exact .exhausted

theorem rebind (h : Gives around args way s) (n : Nat) (v : Option Bytes) :
    Gives around (Given.update args n (v.getD [])) way { s with frame := s.frame.rebind n v } := by
  cases h with
  | @direct f h =>
    refine .direct (f := f.rebind n v) fun i hi => ?_
    rw [Frame.given_rebind, Given.update, h i hi]
  | @through f under h =>
    have hu : (under.rebind n v).given = Given.update under.given n (v.getD []) :=
      funext fun i => under.given_rebind n v i
    exact .through (h.update hu fun i _ => rfl)

theorem refers {m : Machine} (h : Gives around args way m.scope) (hn : 0 < n) (registry : Registry)
    (k : Nat) :
    (k = 0 ∧ Invocation.refer (eval registry k) n m = .exhausted) ∨
    ∃ j ≤ k, k ≤ j + 1 ∧
      Refers args way n m.out ((args n).eval registry j ⟨m.state, around, {}⟩)
        (Invocation.refer (eval registry k) n m) := by
  obtain ⟨state, scope, out⟩ := m
  let m : Machine := ⟨state, around, out⟩
  cases h with
  | direct h => exact .inr ⟨k, le_rfl, Nat.le_succ k, refers_direct h hn m registry k⟩
  | @through f under h =>
    rcases h n hn with ⟨hg, v, hv⟩ | ⟨t, ht, hg, hf⟩
    · exact .inr ⟨k, le_rfl, Nat.le_succ k, refers_known h hg hv m registry k⟩
    · cases k with
      | zero =>
        have hrefer :
            Invocation.refer (eval registry 0) n ((m.push f).push under) = .exhausted := by
          rw [Invocation.refer_eq, Machine.argument_push (Frame.getElem?_of_given hg)]
          rfl
        exact .inl ⟨rfl, hrefer⟩
      | succ k =>
        exact .inr ⟨k, Nat.le_succ k, le_rfl, refers_through h ht hg hf m registry k⟩

end Scope.Gives

theorem Scope.Gives.Refers.follows {args : Nat → Given} {n : Nat} {out : Output}
    {F : Failure → Failure → Prop} (hF : ∀ e, F e e) {R : Machine → Machine → Prop}
    (hR : ∀ around args m m', m.state = m'.state → m.out = m'.out → Gives around args way m.scope →
      Gives around args way' m'.scope → R m m') {x x' y y' : Outcome Unit} (hx : x.UpTo x')
    (h : Refers args way n out x y) (h' : Refers args way' n out x' y') :
    y.Follows True R F y' := by
  rcases hx with ⟨-, rfl⟩ | hx
  · cases h with
    | exhausted => exact .inl ⟨trivial, rfl⟩
  · obtain rfl := hx.eq
    cases h with
    | done hv hs ho h =>
      cases h' with
      | done hv' hs' ho' h' =>
        obtain rfl := hv.symm.trans hv'
        exact .done (hR _ _ _ _ (hs.trans hs'.symm) (ho.trans ho'.symm) h h')
    | failed hs ho h =>
      cases h' with
      | failed hs' ho' h' =>
        exact .failed (hF _) (hR _ _ _ _ (hs.trans hs'.symm) (ho.trans ho'.symm) h h')
    | exhausted =>
      cases h' with
      | exhausted => exact .exhausted

def Bytes.ZeroFree (s : Bytes) : Prop := 0x30 ∉ s

theorem Bytes.ZeroFree.of_part {s t : Bytes} (h : s.ZeroFree) (ht : t <:+: s) : t.ZeroFree :=
  fun hz => h (ht.subset hz)

theorem Bytes.digitsValue_pos {s : Bytes} (h : s.allDigits = true) (hs : s.ZeroFree) :
    0 < s.digitsValue := by
  obtain ⟨hne, hdigits⟩ : s ≠ [] ∧ ∀ b ∈ s, isDigit b = true := by simpa [allDigits] using h
  obtain ⟨init, b, rfl⟩ := List.eq_nil_or_concat s |>.resolve_left hne
  have hb : 0 < digitValue b := by
    have hle : 0x30 ≤ b := by
      have := hdigits b (by simp)
      simp only [isDigit, Bool.and_eq_true, decide_eq_true_eq] at this
      exact this.1
    have hb : b ≠ 0x30 := fun hb => hs (by simp [hb])
    have hlt : 0x30 < b := UInt8.lt_of_le_of_ne hle (Ne.symm hb)
    exact Nat.sub_pos_of_lt hlt
  rw [digitsValue, List.concat_eq_append, List.foldl_append]
  exact Nat.lt_of_lt_of_le hb (Nat.le_add_left _ _)

theorem Call.index?_pos {c : Call} {src : Source}
    (h : Slot.Texts Bytes.ZeroFree (c.frame src).slots) (hn : c.index? = some n) : 0 < n := by
  obtain ⟨offset, width, args⟩ := c
  cases args with
  | nil => cases hn
  | cons name rest =>
    have hname : name.ZeroFree :=
      h { text := some name } (by simp [Call.frame, Frame.ofTexts]) _ rfl
    cases hdigits : name.allDigits with
    | true =>
      have hpos := Bytes.digitsValue_pos hdigits hname
      rw [index?_of_allDigits rfl hdigits, Option.some.injEq] at hn
      omega
    | false => simp [index?, hdigits] at hn

inductive Scope.Parallel (way way' : Way) : Nat → Scope → Scope → Prop
  | body {base s s' : Scope} (h : base.Gives args way s) (h' : base.Gives args way' s') :
      Parallel way way' 0 s s'
  | push (h : Parallel way way' depth s s')
      (hf : depth = 0 → Slot.Texts Bytes.ZeroFree f.slots) :
      Parallel way way' (depth + 1) (s.push f) (s'.push f)

structure Machine.Parallel (way way' : Way) (depth : Nat) (m m' : Machine) : Prop where
  state : m.state = m'.state
  out : m.out = m'.out
  scope : m.scope.Parallel way way' depth m'.scope

namespace Machine.Parallel

variable {way way' : Way} {depth : Nat} {m m' m₁ m₁' : Machine}

theorem setState (h : m.Parallel way way' depth m') (s : State) :
    Parallel way way' depth { m with state := s } { m' with state := s } :=
  ⟨rfl, h.out, h.scope⟩

theorem setOut (h : m.Parallel way way' depth m') (o : Output) :
    Parallel way way' depth { m with out := o } { m' with out := o } :=
  ⟨h.state, rfl, h.scope⟩

theorem write (h : m.Parallel way way' depth m') (s : Bytes) :
    Parallel way way' depth (m.write s) (m'.write s) :=
  ⟨h.state, congrArg (Output.write · s) h.out, h.scope⟩

theorem push (h : m.Parallel way way' depth m') {f : Frame}
    (hf : depth = 0 → Slot.Texts Bytes.ZeroFree f.slots) :
    Parallel way way' (depth + 1) (m.push f) (m'.push f) :=
  ⟨h.state, h.out, .push h.scope hf⟩

theorem exists_push (h : m.Parallel way way' (depth + 1) m') :
    ∃ m₀ m₀' f, m = Machine.push m₀ f ∧ m' = Machine.push m₀' f ∧ Parallel way way' depth m₀ m₀' ∧
      (depth = 0 → Slot.Texts Bytes.ZeroFree f.slots) := by
  obtain ⟨state, scope, out⟩ := m
  obtain ⟨state', scope', out'⟩ := m'
  obtain ⟨hstate, hout, hscope⟩ := h
  cases hscope with
  | @push _ s s' f hscope hf =>
    exact ⟨⟨state, s, out⟩, ⟨state', s', out'⟩, f, rfl, rfl, ⟨hstate, hout, hscope⟩, hf⟩

theorem pop (h : m.Parallel way way' (depth + 1) m') : Parallel way way' depth m.pop m'.pop := by
  obtain ⟨m₀, m₀', f, rfl, rfl, h, -⟩ := h.exists_push
  exact h

theorem frame_eq (h : m.Parallel way way' (depth + 1) m') : m.scope.frame = m'.scope.frame := by
  obtain ⟨m₀, m₀', f, rfl, rfl, -, -⟩ := h.exists_push
  rfl

theorem mapFrame (h : m.Parallel way way' (depth + 1) m') {g : Frame → Frame}
    (hg : ∀ P, Slot.Texts P m.scope.frame.slots → Slot.Texts P (g m.scope.frame).slots) :
    Parallel way way' (depth + 1) (m.mapFrame g) (m'.mapFrame g) := by
  obtain ⟨m₀, m₀', f, rfl, rfl, h, hf⟩ := h.exists_push
  exact h.push fun hdepth => hg _ (hf hdepth)

theorem rebind (h : m.Parallel way way' depth m') (n : Nat) (v : Option Bytes) :
    Parallel way way' depth (m.mapFrame (·.rebind n v)) (m'.mapFrame (·.rebind n v)) := by
  cases depth with
  | zero =>
    obtain ⟨hstate, hout, hscope⟩ := h
    generalize hs : m.scope = s, hs' : m'.scope = s' at hscope
    cases hscope with
    | body h h' =>
      refine ⟨hstate, hout, ?_⟩
      rw [Machine.mapFrame, Machine.mapFrame, hs, hs']
      exact .body (h.rebind n v) (h'.rebind n v)
  | succ depth => exact h.mapFrame fun P hP => hP.rebind _ n v

theorem adopt (h : m.Parallel way way' (depth + 1) m')
    (hm₁ : ∀ P, Slot.Texts P m.scope.frame.slots → Slot.Texts P m₁.scope.frame.slots) :
    Parallel way way' (depth + 1) (m.adopt m₁) (m'.adopt m₁) := by
  have hframe := h.mapFrame (g := fun f => { f with slots := m₁.scope.frame.slots }) hm₁
  exact (hframe.setState m₁.state).write m₁.out.toBytes

def Keeps (way way' : Way) (registry : Registry) (k : Nat) : Prop :=
  ∀ depth (src : Source) m m', (depth = 0 → src.bytes.ZeroFree) → m.Parallel way way' depth m' →
    (eval registry k src m).Follows True (Parallel way way' depth)
      (fun e e' => e.untraced = e'.untraced) (eval registry (k + 1) src m')

section

variable {registry : Registry} {k : Nat}

theorem argument (hk : Keeps way way' registry k) (h : m.Parallel way way' (depth + 1) m')
    (n : Nat) :
    (m.argument (eval registry k) n).Follows True (Parallel way way' (depth + 1))
      (fun e e' => e.untraced = e'.untraced) (m'.argument (eval registry (k + 1)) n) := by
  obtain ⟨m₀, m₀', f, rfl, rfl, h₀, hf⟩ := h.exists_push
  refine Machine.argument_follows (R := Parallel way way' depth) h rfl (fun t ht => ?_)
    fun m₁ m₁' h₁ => ?_
  · exact hk depth _ _ _ (fun hdepth => (hf hdepth).of_getElem? ht rfl) (h₀.setOut {})
  · refine ⟨h₁.out, ⟨h₁.state, h₀.out, .push h₁.scope hf⟩, fun v => ?_⟩
    exact ⟨h₁.state, h₀.out, .push h₁.scope fun hdepth => (hf hdepth).modify n fun _ => rfl⟩

theorem refer_body (h : m.Parallel way way' 0 m') (hn : 0 < n) :
    (Invocation.refer (eval registry k) n m).Follows True (Parallel way way' 0)
      (fun e e' => e.untraced = e'.untraced) (Invocation.refer (eval registry (k + 1)) n m') := by
  obtain ⟨hstate, hout, hscope⟩ := h
  generalize hs : m.scope = s, hs' : m'.scope = s' at hscope
  cases hscope with
  | @body args base _ _ hg hg' =>
    rw [← hs] at hg
    rw [← hs'] at hg'
    rcases hg.refers hn registry k with ⟨-, hx⟩ | ⟨j, hj, -, hrefers⟩
    · rw [hx]
      exact .inl ⟨trivial, rfl⟩
    · rcases hg'.refers hn registry (k + 1) with ⟨hk, -⟩ | ⟨j', -, hj', hrefers'⟩
      · cases hk
      · rw [← hstate, ← hout] at hrefers'
        have hupTo := Given.eval_upTo (by omega : j ≤ j') registry ⟨m.state, base, {}⟩ (args n)
        refine hrefers.follows (F := fun e e' => e.untraced = e'.untraced) (fun _ => rfl) ?_ hupTo
          hrefers'
        exact fun _ _ _ _ hs ho h h' => ⟨hs, ho, .body h h'⟩

theorem request (hk : Keeps way way' registry k) (h : m.Parallel way way' (depth + 1) m')
    (r : Request) :
    (r.perform (registry.context (eval registry k)) m).Follows True (Parallel way way' (depth + 1))
      (fun e e' => e.untraced = e'.untraced)
      (r.perform (registry.context (eval registry (k + 1))) m') := by
  by_cases hr : r.evaluates = false
  · rw [r.perform_context hr registry (eval registry k) (eval registry (k + 1))]
    exact .inr <| r.perform_related (F := fun e e' => e.untraced = e'.untraced) hr _ (fun _ => rfl)
      h.state (by rw [h.frame_eq]) fun m₁ hm₁ => h.adopt hm₁
  · cases r with
    | argument n => exact argument hk h n
    | evalHere src => exact hk (depth + 1) src m m' (by simp) h
    | evalUnder label src =>
      exact (hk (depth + 2) src _ _ (by simp) (h.push (by simp))).pop fun _ _ h₁ => h₁.pop
    | _ => exact absurd rfl hr

end

theorem coupling (hk : Keeps way way' registry k) :
    Coupling True registry k (k + 1) (eval registry k) (eval registry (k + 1)) (· ≠ 0)
      (Parallel way way')
      (fun e e' => e.untraced = e'.untraced)
      (fun depth f f' => f = f' ∧ (depth = 0 → Slot.Texts Bytes.ZeroFree f.slots)) where
  write h s := h.write s
  fault _ _ _ _ := rfl
  rebind h n v := h.rebind n v
  push {depth m m' f f'} h hf := by
    obtain ⟨rfl, hf⟩ := hf
    exact ⟨depth + 1, Nat.succ_ne_zero _, h.push hf, fun _ _ h₁ => h₁.pop⟩
  raw {depth m m'} hi h := by
    obtain ⟨depth, rfl⟩ := Nat.exists_eq_succ_of_ne_zero hi
    rw [h.frame_eq]
  argument {depth m m'} hi h n := by
    obtain ⟨depth, rfl⟩ := Nat.exists_eq_succ_of_ne_zero hi
    exact argument hk h n
  refer {depth m m'} h {src src' c c'} hf n hn := by
    cases depth with
    | zero => exact h.refer_body (Call.index?_pos (hf.2 rfl) hn)
    | succ depth =>
      rw [Invocation.refer_eq, Invocation.refer_eq]
      exact (argument hk h n).andThen fun v _ _ h₁ => .done (h₁.write _)
  builtin {depth m m'} hi h entry _ := by
    obtain ⟨depth, rfl⟩ := Nat.exists_eq_succ_of_ne_zero hi
    refine Builtin.run_follows (fun m m' h => ?_) (.inr ⟨trivial, Nat.le_succ k⟩) h
    exact Program.run_follows (R := Parallel way way' (depth + 1)) (Q := fun _ => True)
      (F := fun e e' => e.untraced = e'.untraced) (fun _ _ _ _ _ _ => rfl) (fun _ _ => rfl)
      (fun r _ _ _ h => request hk h r) _ (Program.asksOnly _) h
  body {depth m m'} hi h name := by
    rw [Invocation.body, Invocation.body, ← h.state]
    split
    · rename_i e d _
      refine hk depth _ _ _ (fun hz => absurd hz hi) ?_
      simpa [Machine.setDictionary, h.state] using h.setState { m.state with dictionary := d }
    · exact .failed rfl h

theorem keeps (way way' : Way) (registry : Registry) (k : Nat) : Keeps way way' registry k := by
  induction k with
  | zero => exact fun _ _ _ _ _ _ => .inl ⟨trivial, rfl⟩
  | succ k ih =>
    intro depth src m m' hsrc h
    refine (coupling ih).layout (.of_frames fun c hc => ⟨rfl, fun hdepth => ?_⟩)
      (.of_args fun d hd _ => ⟨rfl, fun hdepth => ?_⟩) h
    · exact .ofTexts (fun a ha => (hsrc hdepth).of_part (Bytes.infix_of_arg hc ha).1) _
    · exact .ofTexts (fun a ha => (hsrc hdepth).of_part (Bytes.infix_of_defect_arg hd ha)) _

end Machine.Parallel

end TildeText
