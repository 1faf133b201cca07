import TildeText.Proofs.Brackets
import TildeText.Proofs.Faults
import TildeText.Proofs.Runs

namespace TildeText

inductive Machine.Needs (m : Machine) (n : Nat) : Source → Machine → Prop
  | raw {t : Bytes} (h : m.scope.frame.slots[n]? = some { text := some t }) :
      Needs m n { bytes := t } { m with scope := m.scope.around, out := {} }

inductive Request.Begins (m : Machine) : Request → Source → Machine → Prop
  | argument (h : m.Needs n src m₁) : Begins m (.argument n) src m₁
  | evalHere : Begins m (.evalHere src) src m
  | evalUnder : Begins m (.evalUnder label src) src (m.push (.under label))

inductive Program.Begins (ctx : Context) : Program α → Machine → Source → Machine → Prop
  | now {r : Request} {next : r.Answer → Program α} (h : r.Begins m src m₁) :
      Begins ctx (.ask r next) m src m₁
  | later {r : Request} {next : r.Answer → Program α} {a : r.Answer}
      (hr : r.perform ctx m = .done a m') (h : Begins ctx (next a) m' src m₁) :
      Begins ctx (.ask r next) m src m₁

inductive Builtin.Begins (ctx : Context) (b : Builtin) : Nat → Machine → Source → Machine → Prop
  | now (h : Program.Begins ctx b m src m₁) : Begins ctx b (n + 1) m src m₁
  | again (hb : Program.run ctx b m = .done .again m') (h : Begins ctx b n m' src m₁) :
      Begins ctx b (n + 1) m src m₁

inductive Program.Fails (ctx : Context) : Program α → Machine → Machine → Fault → Prop
  | now : Fails ctx (.fail kind evidence cause) m m ⟨kind, m.scope.trace, evidence, cause⟩
  | later {r : Request} {next : r.Answer → Program α} {a : r.Answer}
      (hr : r.perform ctx m = .done a m') (h : Fails ctx (next a) m' m₁ f) :
      Fails ctx (.ask r next) m m₁ f

inductive Builtin.Fails (ctx : Context) (b : Builtin) : Nat → Machine → Machine → Fault → Prop
  | now (h : Program.Fails ctx b m m₁ f) : Fails ctx b (n + 1) m m₁ f
  | again (hb : Program.run ctx b m = .done .again m') (h : Fails ctx b n m' m₁ f) :
      Fails ctx b (n + 1) m m₁ f

/-- The evaluations that carrying out an invocation begins. -/
inductive Invocation.Begins (registry : Registry) (fuel : Nat)
    (eval : Source → Machine → Outcome Unit) (src : Source) (c : Call) (m : Machine) :
    Source → Machine → Prop
  | refer (hc : c.index? = some n) (hl : c.args.length < 2) (h : m.Needs n s m₁) :
      Begins registry fuel eval src c m s m₁
  | rebind (hc : c.index? = some n) (hl : ¬ c.args.length < 2)
      (h : (m.push (c.frame src)).Needs 1 s m₁) : Begins registry fuel eval src c m s m₁
  | name (hc : c.index? = none) (h : (m.push (c.frame src)).Needs 0 s m₁) :
      Begins registry fuel eval src c m s m₁
  | builtin (hc : c.index? = none)
      (hn : (m.push (c.frame src)).argument eval 0 = .done name m')
      (hb : registry.lookup (name.getD []) = some b)
      (h : Builtin.Begins (registry.context eval) b fuel m' s m₁) :
      Begins registry fuel eval src c m s m₁
  | body (hc : c.index? = none)
      (hn : (m.push (c.frame src)).argument eval 0 = .done name m')
      (hb : registry.lookup (name.getD []) = none)
      (hd : m'.state.dictionary.find m'.state.storage.system (name.getD []) = .ok (e, d)) :
      Begins registry fuel eval src c m ⟨e.name, e.value⟩
        { m' with state := { m'.state with dictionary := d } }

inductive Invocation.Faults (registry : Registry) (fuel : Nat)
    (eval : Source → Machine → Outcome Unit) (src : Source) (c : Call) (m : Machine) :
    Machine → Fault → Prop
  | rebind (hc : c.index? = some n) (hl : ¬ c.args.length < 2)
      (hv : (m.push (c.frame src)).argument eval 1 = .done v m₁) :
      Faults registry fuel eval src c m m₁
        ⟨.badArgument, m₁.scope.trace, (m₁.scope.frame.raw 0).getD [], none⟩
  | builtin (hc : c.index? = none)
      (hn : (m.push (c.frame src)).argument eval 0 = .done name m')
      (hb : registry.lookup (name.getD []) = some b)
      (h : Builtin.Fails (registry.context eval) b fuel m' m₁ f) :
      Faults registry fuel eval src c m m₁ f
  | body (hc : c.index? = none)
      (hn : (m.push (c.frame src)).argument eval 0 = .done name m₁)
      (hb : registry.lookup (name.getD []) = none)
      (hd : m₁.state.dictionary.find m₁.state.storage.system (name.getD []) = .error p) :
      Faults registry fuel eval src c m m₁
        ⟨.undefinedMacro, m₁.scope.trace, name.getD [], some p⟩

theorem Machine.argument_failed {eval : Source → Machine → Outcome Unit} {m m' : Machine} {n : Nat}
    (h : m.argument eval n = .failed e m') :
    ∃ src m₁ m₂, m.Needs n src m₁ ∧ eval src m₁ = .failed e m₂ := by
  rw [argument] at h
  split at h
  · cases h
  · cases h
  · cases h
  · rename_i t hs
    split at h
    · cases h
    · rename_i e' m₂ he
      cases h
      exact ⟨_, _, m₂, .raw hs, he⟩
    · cases h

theorem Request.perform_failed {ctx : Context} {m m' : Machine} (r : Request) {f : Fault}
    (h : r.perform ctx m = .failed (.fault f) m') :
    ∃ src m₁ m₂, r.Begins m src m₁ ∧ ctx.eval src m₁ = .failed (.fault f) m₂ := by
  cases r with
  | argument n =>
    obtain ⟨src, m₁, m₂, hn, he⟩ := Machine.argument_failed h
    exact ⟨src, m₁, m₂, .argument hn, he⟩
  | evalHere src => exact ⟨src, m, m', .evalHere, h⟩
  | evalUnder label src =>
    rw [perform] at h
    cases he : ctx.eval src (m.push (.under label)) with
    | done a m₂ =>
      rw [he] at h
      cases h
    | failed e m₂ =>
      rw [he] at h
      cases h
      exact ⟨src, _, m₂, .evalUnder, he⟩
    | exhausted =>
      rw [he] at h
      cases h
  | print s =>
    rw [perform, Machine.report] at h
    split at h <;> cases h
  | dump =>
    rw [perform, Machine.report] at h
    split at h <;> cases h
  | _ => cases h

theorem Program.run_failed {ctx : Context} {p : Program α} {m m' : Machine} {f : Fault}
    (h : p.run ctx m = .failed (.fault f) m') :
    p.Fails ctx m m' f ∨
      ∃ src m₁ m₂, Begins ctx p m src m₁ ∧ ctx.eval src m₁ = .failed (.fault f) m₂ := by
  induction p generalizing m with
  | done a => cases h
  | fail kind evidence cause =>
    cases h
    exact .inl .now
  | abort p => cases h
  | crash start size short => cases h
  | ask r next ih =>
    rw [run_ask] at h
    cases hr : r.perform ctx m with
    | done a m₁ =>
      rw [hr] at h
      rcases ih a h with hf | ⟨src, m₂, m₃, hb, he⟩
      · exact .inl (.later hr hf)
      · exact .inr ⟨src, m₂, m₃, .later hr hb, he⟩
    | failed e m₁ =>
      rw [hr] at h
      cases h
      obtain ⟨src, m₂, m₃, hb, he⟩ := r.perform_failed hr
      exact .inr ⟨src, m₂, m₃, .now hb, he⟩
    | exhausted =>
      rw [hr] at h
      cases h

theorem Program.Fails.sort {ctx : Context} {P : Kind → Prop} {p : Program α} (hp : p.FailsOnly P)
    (h : p.Fails ctx m m₁ f) : P f.kind := by
  induction h with
  | now => exact hp
  | later _ _ ih => exact ih (hp _)

theorem Program.Fails.trace_eq {ctx : Context} {p : Program α} (h : p.Fails ctx m m₁ f) :
    f.trace = m₁.scope.trace := by
  induction h with
  | now => rfl
  | later _ _ ih => exact ih

namespace Builtin

variable {ctx : Context} {b : Builtin} {m m' m₁ : Machine} {f : Fault}

theorem run_failed {n : Nat} (h : b.run ctx n m = .failed (.fault f) m') :
    b.Fails ctx n m m' f ∨
      ∃ src m₁ m₂, Begins ctx b n m src m₁ ∧ ctx.eval src m₁ = .failed (.fault f) m₂ := by
  induction n generalizing m with
  | zero => cases h
  | succ n ih =>
    rw [Builtin.run] at h
    split at h
    · cases h
    · cases h
    · rename_i m₁ hb
      rcases ih h with hf | ⟨src, m₂, m₃, hb', he⟩
      · exact .inl (.again hb hf)
      · exact .inr ⟨src, m₂, m₃, .again hb hb', he⟩
    · rename_i e m₁ hb
      cases h
      rcases Program.run_failed hb with hf | ⟨src, m₂, m₃, hb', he⟩
      · exact .inl (.now hf)
      · exact .inr ⟨src, m₂, m₃, .now hb', he⟩
    · cases h

theorem Fails.sort {P : Kind → Prop} (hb : Program.FailsOnly P b) (h : b.Fails ctx n m m₁ f) :
    P f.kind := by
  induction h with
  | now h => exact h.sort hb
  | again _ _ ih => exact ih

theorem Fails.trace_eq (h : b.Fails ctx n m m₁ f) : f.trace = m₁.scope.trace := by
  induction h with
  | now h => exact h.trace_eq
  | again _ _ ih => exact ih

end Builtin

namespace Invocation

variable {registry : Registry} {fuel : Nat} {eval : Source → Machine → Outcome Unit} {src : Source}
  {c : Call} {m m' : Machine} {f : Fault}

theorem refer_failed (h : refer eval n m = .failed e m') :
    ∃ s m₁ m₂, m.Needs n s m₁ ∧ eval s m₁ = .failed e m₂ := by
  rw [refer] at h
  split at h
  · cases h
  · rename_i ha
    cases h
    exact Machine.argument_failed ha
  · cases h

theorem rebind_failed (h : rebind eval n m = .failed (.fault f) m') :
    (∃ v m₁, m.argument eval 1 = .done v m₁ ∧
      f = ⟨.badArgument, m₁.scope.trace, (m₁.scope.frame.raw 0).getD [], none⟩) ∨
    ∃ s m₁ m₂, m.Needs 1 s m₁ ∧ eval s m₁ = .failed (.fault f) m₂ := by
  rw [rebind] at h
  split at h
  · rename_i v m₁ ha
    split at h
    · cases h
    · cases h
      exact .inl ⟨v, m₁, ha, rfl⟩
  · rename_i ha
    cases h
    exact .inr (Machine.argument_failed ha)
  · cases h

theorem builtin_failed {b : Builtin} {ctx : Context}
    (h : builtin ctx fuel b m = .failed (.fault f) m') :
    (∃ m₁, b.Fails ctx fuel m m₁ f) ∨
    ∃ s m₁ m₂, Builtin.Begins ctx b fuel m s m₁ ∧ ctx.eval s m₁ = .failed (.fault f) m₂ := by
  rw [builtin] at h
  split at h
  · cases h
  · cases h
  · rename_i hr
    cases h
    exact (Builtin.run_failed hr).imp_left fun hf => ⟨_, hf⟩
  · cases h

theorem expand_failed {name : Bytes} (h : expand eval name m = .failed (.fault f) m') :
    (∃ p, m.state.dictionary.find m.state.storage.system name = .error p ∧
      f = ⟨.undefinedMacro, m.scope.trace, name, some p⟩) ∨
    ∃ e d m₂, m.state.dictionary.find m.state.storage.system name = .ok (e, d) ∧
      eval ⟨e.name, e.value⟩ { m with state := { m.state with dictionary := d } } =
        .failed (.fault f) m₂ := by
  rw [expand] at h
  split at h
  · rename_i e d hd
    cases he : eval ⟨e.name, e.value⟩ { m with state := { m.state with dictionary := d } } with
    | done a m₂ =>
      rw [he] at h
      cases h
    | failed e' m₂ =>
      rw [he] at h
      cases h
      exact .inr ⟨e, d, m₂, hd, he⟩
    | exhausted =>
      rw [he] at h
      cases h
  · rename_i p hd
    cases h
    exact .inl ⟨p, hd, rfl⟩

theorem carryOut_failed (h : carryOut registry fuel eval src c m = .failed (.fault f) m') :
    (∃ m₁, Faults registry fuel eval src c m m₁ f) ∨
    ∃ s m₁ m₂, Begins registry fuel eval src c m s m₁ ∧ eval s m₁ = .failed (.fault f) m₂ := by
  rw [carryOut] at h
  split at h
  · rename_i n hc
    split at h
    · rename_i hl
      obtain ⟨s, m₁, m₂, hn, he⟩ := refer_failed h
      exact .inr ⟨s, m₁, m₂, .refer hc hl hn, he⟩
    · rename_i hl
      rcases rebind_failed h with ⟨v, m₁, hv, rfl⟩ | ⟨s, m₁, m₂, hn, he⟩
      · exact .inl ⟨m₁, .rebind hc hl hv⟩
      · exact .inr ⟨s, m₁, m₂, .rebind hc hl hn, he⟩
  · rename_i hc
    rw [byName] at h
    split at h
    · rename_i name m₁ hn
      simp only at h
      split at h
      · rename_i b hb
        rcases builtin_failed h with ⟨m₂, hf⟩ | ⟨s, m₂, m₃, hbegins, he⟩
        · exact .inl ⟨m₂, .builtin hc hn hb hf⟩
        · exact .inr ⟨s, m₂, m₃, .builtin hc hn hb hbegins, he⟩
      · rename_i hb
        rcases expand_failed h with ⟨p, hd, rfl⟩ | ⟨e, d, m₂, hd, he⟩
        · exact .inl ⟨m₁, .body hc hn hb hd⟩
        · exact .inr ⟨_, _, m₂, .body hc hn hb hd, he⟩
    · rename_i ha
      cases h
      obtain ⟨s, m₁, m₂, hn, he⟩ := Machine.argument_failed ha
      exact .inr ⟨s, m₁, m₂, .name hc hn, he⟩
    · cases h

theorem Faults.not_isBracket (hr : registry.FailsOnly (·.isBracket = false))
    (h : Faults registry fuel eval src c m m₁ f) : f.kind.isBracket = false := by
  cases h with
  | rebind _ _ _ => rfl
  | builtin _ _ hb h => exact h.sort (hr _ (Registry.mem_of_lookup hb))
  | body _ _ _ _ => rfl

theorem Faults.trace_eq (h : Faults registry fuel eval src c m m₁ f) :
    f.trace = m₁.scope.trace := by
  cases h with
  | rebind _ _ _ => rfl
  | builtin _ _ _ h => exact h.trace_eq
  | body _ _ _ _ => rfl

end Invocation

def Defect.kind : Defect → Kind
  | .shortClose _ => .shortClose
  | .extraClose _ => .extraClose
  | .missingClose _ => .missingClose

def Defect.frame (src : Source) : Defect → Frame
  | .shortClose o | .missingClose o => o.frame src
  | .extraClose offset => { origin := some ⟨src, offset⟩ }

theorem Defect.failure_eq (d : Defect) (src : Source) (m : Machine) :
    d.failure src m = .fault ⟨d.kind, (m.push (d.frame src)).scope.trace, [], none⟩ := by
  cases d <;> rfl

theorem Defect.kind_failure {d : Defect} (h : d.failure src m = .fault f) : f.kind = d.kind := by
  rw [failure_eq] at h
  cases h
  rfl

structure Evaluation where
  fuel : Nat
  source : Source
  machine : Machine

namespace Evaluation

variable {registry : Registry}

def run (registry : Registry) (e : Evaluation) : Outcome Unit :=
  eval registry e.fuel e.source e.machine

/-- The evaluation gets to a defect of its own source, and fails for it. -/
inductive Raises (registry : Registry) : Evaluation → Defect → Failure → Prop
  | mk (hs : Segment.runAll (Invocation.carryOut registry n (eval registry n) src)
        src.bytes.layout.segments m = .done () m')
      (hd : src.bytes.layout.defect = some d) :
      Raises registry ⟨n + 1, src, m⟩ d (d.failure src m')

/-- The evaluation fails while it carries out one of its invocations. -/
inductive FailsIn (registry : Registry) : Evaluation → Call → Failure → Prop
  | mk (hs : src.bytes.layout.segments = before ++ .call c :: after)
      (hb : Segment.runAll (Invocation.carryOut registry n (eval registry n) src) before m =
        .done () m₁)
      (hc : Invocation.carryOut registry n (eval registry n) src c m₁ = .failed x m') :
      FailsIn registry ⟨n + 1, src, m⟩ c x

/-- The evaluation raises a fault in a machine: for a defect of its own source, or in the frame of
one of its invocations. -/
inductive Faults (registry : Registry) : Evaluation → Machine → Fault → Prop
  | defect (hs : Segment.runAll (Invocation.carryOut registry n (eval registry n) src)
        src.bytes.layout.segments m = .done () m')
      (hd : src.bytes.layout.defect = some d) :
      Faults registry ⟨n + 1, src, m⟩ (m'.push (d.frame src))
        ⟨d.kind, (m'.push (d.frame src)).scope.trace, [], none⟩
  | invocation (hs : src.bytes.layout.segments = before ++ .call c :: after)
      (hb : Segment.runAll (Invocation.carryOut registry n (eval registry n) src) before m =
        .done () m₁)
      (hi : Invocation.Faults registry n (eval registry n) src c m₁ m₂ f) :
      Faults registry ⟨n + 1, src, m⟩ m₂ f

inductive Begins (registry : Registry) : Evaluation → Evaluation → Prop
  | mk (hs : src.bytes.layout.segments = before ++ .call c :: after)
      (hb : Segment.runAll (Invocation.carryOut registry n (eval registry n) src) before m =
        .done () m₁)
      (hi : Invocation.Begins registry n (eval registry n) src c m₁ s m₂) :
      Begins registry ⟨n + 1, src, m⟩ ⟨n, s, m₂⟩

inductive Reaches (registry : Registry) : Evaluation → Evaluation → Prop
  | refl (e : Evaluation) : Reaches registry e e
  | head (h : Begins registry e e₁) (h' : Reaches registry e₁ e') : Reaches registry e e'

theorem run_failed {e : Evaluation} {m' : Machine} (h : e.run registry = .failed x m') :
    (∃ c, e.FailsIn registry c x) ∨ ∃ d, e.Raises registry d x := by
  obtain ⟨fuel, src, m⟩ := e
  cases fuel with
  | zero => cases h
  | succ n =>
    rcases Layout.run_failed h with hs | ⟨d, hs, hd, rfl⟩
    · obtain ⟨before, c, after, m₁, hsegments, hbefore, hc⟩ := Segment.runAll_failed hs
      exact .inl ⟨c, .mk hsegments hbefore hc⟩
    · exact .inr ⟨d, .mk hs hd⟩

theorem FailsIn.begins (hr : registry.FailsOnly (·.isBracket = false)) {f : Fault}
    (hk : f.kind.isBracket = true) {e : Evaluation} (h : e.FailsIn registry c (.fault f)) :
    ∃ e₁ m₁, e.Begins registry e₁ ∧ e₁.run registry = .failed (.fault f) m₁ ∧
      e₁.fuel < e.fuel := by
  cases h with
  | mk hs hb hc =>
    rcases Invocation.carryOut_failed hc with ⟨m₂, hf⟩ | ⟨s, m₂, m₃, hi, he⟩
    · rw [hf.not_isBracket hr] at hk
      cases hk
    · exact ⟨⟨_, s, m₂⟩, m₃, .mk hs hb hi, he, Nat.lt_succ_self _⟩

theorem exists_faults {f : Fault} (e : Evaluation) {m' : Machine}
    (h : e.run registry = .failed (.fault f) m') :
    ∃ e₁ m₁, e.Reaches registry e₁ ∧ e₁.Faults registry m₁ f := by
  -- an evaluation that is begun has less fuel, so the way down to the fault ends
  induction hn : e.fuel using Nat.strongRecOn generalizing e m' with
  | ind n ih =>
    subst hn
    rcases run_failed h with ⟨c, hc⟩ | ⟨d, hd⟩
    · cases hc with
      | mk hs hb hc =>
        rcases Invocation.carryOut_failed hc with ⟨m₁, hf⟩ | ⟨s, m₁, m₂, hi, he⟩
        · exact ⟨_, m₁, .refl _, .invocation hs hb hf⟩
        · obtain ⟨e₁, m₃, hreach, hf⟩ := ih _ (Nat.lt_succ_self _) ⟨_, s, m₁⟩ he rfl
          exact ⟨e₁, m₃, .head (.mk hs hb hi) hreach, hf⟩
    · generalize hx : Failure.fault f = x at hd
      cases hd with
      | mk hs hd =>
        rw [Defect.failure_eq] at hx
        cases hx
        exact ⟨_, _, .refl _, .defect hs hd⟩

theorem Faults.trace_eq {e : Evaluation} (h : e.Faults registry m₁ f) :
    f.trace = m₁.scope.trace := by
  cases h with
  | defect _ _ => rfl
  | invocation _ _ hi => exact hi.trace_eq

theorem exists_raises (hr : registry.FailsOnly (·.isBracket = false)) {f : Fault}
    (hk : f.kind.isBracket = true) (e : Evaluation) {m' : Machine}
    (h : e.run registry = .failed (.fault f) m') :
    ∃ e' d, e.Reaches registry e' ∧ e'.Raises registry d (.fault f) := by
  obtain ⟨e₁, m₁, hreach, hf⟩ := exists_faults e h
  cases hf with
  | @defect _ _ _ m₂ d hs hd =>
    refine ⟨_, d, hreach, ?_⟩
    rw [← Defect.failure_eq]
    exact .mk hs hd
  | invocation _ _ hi =>
    rw [hi.not_isBracket hr] at hk
    cases hk

theorem Raises.kind {e : Evaluation} (h : e.Raises registry d (.fault f)) : f.kind = d.kind := by
  generalize hx : Failure.fault f = x at h
  cases h
  exact Defect.kind_failure hx.symm

theorem Raises.of_missingClose {e : Evaluation} (h : e.Raises registry d (.fault f))
    (hf : f.kind = .missingClose) : ∃ o, d = .missingClose o := by
  have hd : d.kind = .missingClose := h.kind ▸ hf
  cases d with
  | missingClose o => exact ⟨o, rfl⟩
  | shortClose o => cases hd
  | extraClose k => cases hd

theorem Raises.defect {e : Evaluation} (h : e.Raises registry d x) :
    e.source.bytes.layout.defect = some d := by
  cases h with
  | mk _ hd => exact hd

theorem run_ne_done {e : Evaluation} {d : Defect} (h : e.source.bytes.layout.defect = some d)
    (m' : Machine) : e.run registry ≠ .done () m' := by
  obtain ⟨fuel, src, m⟩ := e
  cases fuel with
  | zero => exact nofun
  | succ n => exact Layout.run_ne_done h _ src m m'

end Evaluation

/-- Counting brackets tells whether a text can be evaluated. An incomplete text is never evaluated
to its end. The scan of a complete one never gets to the end of the text inside an invocation, so a
missing close that is met all the same was met in an invocation of the text, by the scan of another
text that was evaluated there, since no standard builtin raises such a fault by itself. -/
theorem isComplete_agrees_with_eval (registry : Registry) (e : Evaluation) :
    Registry.standard.FailsOnly (·.isBracket = false) ∧
    (e.source.bytes.isComplete = false → e.run registry ≠ .exhausted →
      ∃ x m', e.run registry = .failed x m') ∧
    (e.source.bytes.isComplete = true →
      (∀ o, e.source.bytes.layout.defect ≠ some (.missingClose o)) ∧
      ∀ f m', e.run registry = .failed (.fault f) m' → f.kind = .missingClose →
        (∃ c, e.FailsIn registry c (.fault f)) ∧
        (registry.FailsOnly (·.isBracket = false) →
          ∃ e₁ e' o, e.Begins registry e₁ ∧ e₁.Reaches registry e' ∧
            e'.Raises registry (.missingClose o) (.fault f))) := by
  refine ⟨Registry.standard_failsOnly fun _ => id, fun hincomplete hreturns => ?_,
    fun hcomplete => ?_⟩
  · obtain ⟨d, hd⟩ := Bytes.layout_defect_of_not_isComplete hincomplete
    cases hrun : e.run registry with
    | done a m' => exact absurd hrun (Evaluation.run_ne_done hd m')
    | failed x m' => exact ⟨x, m', rfl⟩
    | exhausted => exact absurd hrun hreturns
  · have hscan := Bytes.layout_defect_ne_missingClose hcomplete
    refine ⟨hscan, fun f m' hrun hkind => ?_⟩
    have hin : ∃ c, e.FailsIn registry c (.fault f) := by
      rcases Evaluation.run_failed hrun with hin | ⟨d, hraise⟩
      · exact hin
      · obtain ⟨o, rfl⟩ := hraise.of_missingClose hkind
        exact absurd hraise.defect (hscan o)
    refine ⟨hin, fun hregistry => ?_⟩
    have hbracket : f.kind.isBracket = true := by rw [hkind, Kind.isBracket]
    obtain ⟨c, hc⟩ := hin
    obtain ⟨e₁, m₁, hbegins, hrun₁, -⟩ := hc.begins hregistry hbracket
    obtain ⟨e', d, hreach, hraise⟩ := Evaluation.exists_raises hregistry hbracket e₁ hrun₁
    obtain ⟨o, rfl⟩ := hraise.of_missingClose hkind
    exact ⟨e₁, e', o, hbegins, hreach, hraise⟩

def Evaluation.unclosedBody : Evaluation where
  fuel := 3
  source := { bytes := utf8 "<~m~>" }
  machine :=
    { state := { dictionary := { table := (Table.empty 0).install (utf8 "m") (utf8 "<~x") } }
      scope := ⟨.empty, []⟩ }

theorem isComplete_agrees_with_eval_unclosedBody :
    ∃ f m', Evaluation.unclosedBody.source.bytes.isComplete = true ∧
      Evaluation.unclosedBody.run .standard = .failed (.fault f) m' ∧ f.kind = .missingClose ∧
      ∃ e₁ e' o, Evaluation.unclosedBody.Begins .standard e₁ ∧ e₁.Reaches .standard e' ∧
        e'.Raises .standard (.missingClose o) (.fault f) :=
  ⟨_, _, rfl, rfl, rfl,
    (((isComplete_agrees_with_eval .standard .unclosedBody).2.2 rfl).2 _ _ rfl rfl).2
      (isComplete_agrees_with_eval .standard .unclosedBody).1⟩

end TildeText
