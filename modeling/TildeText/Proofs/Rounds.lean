import TildeText.Proofs.Arguments

namespace TildeText

namespace Loop

/-- Rounds in which a body is evaluated after its condition, with the values that the body has. -/
inductive Rounds (registry : Registry) (condition body : Bytes) :
    Machine → List Bytes → Machine → Prop
  | none : Rounds registry condition body m [] m
  | round : m.Evaluates registry condition (.done v m₁) → v ≠ [] →
      m₁.Evaluates registry body (.done w m₂) → Rounds registry condition body m₂ ws m' →
      Rounds registry condition body m (w :: ws) m'

/-- How a loop ends in the round after those in which something was written. -/
inductive Ending (registry : Registry) (condition body : Bytes) (m : Machine) (written : Bytes) :
    Outcome Unit → Prop
  | empty : m.Evaluates registry condition (.done [] m') →
      Ending registry condition body m written (.done () (m'.write written))
  | condition : m.Evaluates registry condition (.failed e m') →
      Ending registry condition body m written (.failed e (m'.write written))
  | body : m.Evaluates registry condition (.done v m₁) → v ≠ [] →
      m₁.Evaluates registry body (.failed e m') →
      Ending registry condition body m written (.failed e (m'.write written))

def run (ev : Source → Machine → Outcome Unit) (condition body : Bytes) :
    Nat → Machine → Outcome Unit
  | 0, _ => .exhausted
  | n + 1, m =>
    (m.valueOf ev condition).andThen fun v m₁ =>
      if v.isEmpty then .done () m₁
      else (m₁.valueOf ev body).andThen fun w m₂ => run ev condition body n (m₂.write w)

variable {registry : Registry} {condition body : Bytes} {m m' : Machine} {ws : List Bytes}

theorem builtin_eq_run {ctx : Context} {f : Frame}
    (hcondition : f.slots[1]? = some { text := some condition }) (hbody : f.raw 2 = some body)
    (n : Nat) (m : Machine) :
    Invocation.builtin ctx n .loop (m.push f) = run ctx.eval condition body n m := by
  induction n generalizing m f with
  | zero => rfl
  | succ n ih =>
    rw [Invocation.builtin_succ, Builtin.loop, Program.run_seq, Program.run_arg hcondition, run]
    cases m.valueOf ctx.eval condition with
    | exhausted => rfl
    | failed e m₁ => rfl
    | done v m₁ =>
      simp only [Outcome.andThen]
      cases v with
      | nil => rfl
      | cons b v =>
        let g := ((f.remember 1 (b :: v)).forget 1).forget 2
        have hg : g.slots[2]? = some { text := some body } := by
          obtain ⟨s, hs, hs'⟩ := Option.bind_eq_some_iff.1 hbody
          simp [g, Frame.forget, Frame.remember, hs, hs']
        have hforget : Program.run ctx (do
            Program.forget 1
            Program.forget 2
            Program.writeArg 2
            return Verdict.again) (m₁.push (f.remember 1 (b :: v))) =
              Program.run ctx (do
                Program.writeArg 2
                return Verdict.again) (m₁.push g) := rfl
        simp only [List.isEmpty_cons, Bool.false_eq_true, if_false]
        rw [hforget, Program.run_seq, Program.writeArg, Program.run_seq, Program.run_arg hg]
        cases m₁.valueOf ctx.eval body with
        | exhausted => rfl
        | failed e m₂ => rfl
        | done w m₂ =>
          refine ih (f := g.remember 2 w) ?_ ?_ (m₂.write w)
          · simp [g, Frame.forget, Frame.remember, hcondition]
          · simp [Frame.raw, Frame.remember, hg]

theorem run_of_rounds (h : Rounds registry condition body m ws m') :
    ∃ n, ∀ k, n ≤ k → ∀ j s, run (eval registry k) condition body (ws.length + j) (m.write s) =
      run (eval registry k) condition body j (m'.write (s ++ ws.flatten)) := by
  induction h with
  | none => exact ⟨0, fun k _ j s => by simp⟩
  | round hcondition hv hbody _ ih =>
    obtain ⟨n₁, h₁⟩ := hcondition.eventually
    obtain ⟨n₂, h₂⟩ := hbody.eventually
    obtain ⟨n₃, h₃⟩ := ih
    refine ⟨max n₁ (max n₂ n₃), fun k hk j s => ?_⟩
    rw [List.length_cons, Nat.add_right_comm, run, Machine.valueOf_write, h₁ k (by omega),
      Outcome.mapMachine, Outcome.andThen, List.isEmpty_eq_false_iff.2 hv,
      if_neg Bool.false_ne_true, Machine.valueOf_write, h₂ k (by omega), Outcome.mapMachine,
      Outcome.andThen, Machine.write_write, h₃ k (by omega), List.flatten_cons, List.append_assoc]

theorem run_of_ending (h : Ending registry condition body m s o) :
    ∃ n, ∀ k, n ≤ k → ∀ j, run (eval registry k) condition body (j + 1) (m.write s) = o := by
  cases h with
  | empty hcondition =>
    obtain ⟨n, h⟩ := hcondition.eventually
    refine ⟨n, fun k hk j => ?_⟩
    rw [run, Machine.valueOf_write, h k hk]
    rfl
  | condition hcondition =>
    obtain ⟨n, h⟩ := hcondition.eventually
    refine ⟨n, fun k hk j => ?_⟩
    rw [run, Machine.valueOf_write, h k hk]
    rfl
  | body hcondition hv hbody =>
    obtain ⟨n₁, h₁⟩ := hcondition.eventually
    obtain ⟨n₂, h₂⟩ := hbody.eventually
    refine ⟨max n₁ n₂, fun k hk j => ?_⟩
    rw [run, Machine.valueOf_write, h₁ k (by omega), Outcome.mapMachine, Outcome.andThen,
      List.isEmpty_eq_false_iff.2 hv, if_neg Bool.false_ne_true, Machine.valueOf_write,
      h₂ k (by omega)]
    rfl

theorem rounds_of_run {s : Bytes}
    (h : run (eval registry k) condition body n (m.write s) = o) (ho : o ≠ .exhausted) :
    ∃ ws m', Rounds registry condition body m ws m' ∧
      Ending registry condition body m' (s ++ ws.flatten) o := by
  induction n generalizing m s with
  | zero => exact absurd h.symm ho
  | succ n ih =>
    rw [run, Machine.valueOf_write] at h
    cases hc : m.valueOf (eval registry k) condition with
    | exhausted =>
      rw [hc] at h
      exact absurd h.symm ho
    | failed e m₁ =>
      rw [hc] at h
      subst h
      exact ⟨[], m, .none, by simpa using .condition ⟨by simp, k, hc⟩⟩
    | done v m₁ =>
      have hcondition : m.Evaluates registry condition (.done v m₁) := ⟨by simp, k, hc⟩
      rw [hc, Outcome.mapMachine, Outcome.andThen] at h
      cases v with
      | nil =>
        obtain rfl : .done () (m₁.write s) = o := h
        exact ⟨[], m, .none, by simpa using .empty hcondition⟩
      | cons b v =>
        rw [List.isEmpty_cons, if_neg Bool.false_ne_true, Machine.valueOf_write] at h
        cases hb : m₁.valueOf (eval registry k) body with
        | exhausted =>
          rw [hb] at h
          exact absurd h.symm ho
        | failed e m₂ =>
          rw [hb] at h
          subst h
          exact ⟨[], m, .none, by simpa using .body hcondition (by simp) ⟨by simp, k, hb⟩⟩
        | done w m₂ =>
          rw [hb, Outcome.mapMachine, Outcome.andThen, Machine.write_write] at h
          obtain ⟨ws, m', hrounds, hending⟩ := ih h
          refine ⟨w :: ws, m', .round hcondition (by simp) ⟨by simp, k, hb⟩ hrounds, ?_⟩
          rwa [List.flatten_cons, ← List.append_assoc]

variable {c : Call} {rest : List Bytes}

theorem carryOut_eq_run (hloop : registry.lookup (utf8 "loop") = some Builtin.loop)
    (hargs : c.args = utf8 "loop" :: condition :: body :: rest) (k : Nat) (src : Source)
    (m : Machine) :
    Invocation.carryOut registry (k + 1) (eval registry (k + 1)) src c m =
      run (eval registry (k + 1)) condition body (k + 1) m := by
  have hunread := Frame.Unread.ofCall hargs src (utf8 "loop")
  have hbody : ((c.frame src).remember 0 (utf8 "loop")).raw 2 = some body := by
    simp [Call.frame, Frame.ofTexts, Frame.remember, Frame.raw, hargs]
  rw [Invocation.carryOut_builtin hargs (Bytes.isPlain_of_free (by decide)) rfl hloop]
  exact builtin_eq_run hunread.head hbody (k + 1) m

theorem reached_iff (hloop : registry.lookup (utf8 "loop") = some Builtin.loop)
    (hargs : c.args = utf8 "loop" :: condition :: body :: rest) (m : Machine) (o : Outcome Unit)
    (src : Source) :
    Outcome.Reached (fun k => Invocation.carryOut registry k (eval registry k) src c m) o ↔
      ∃ ws m', Rounds registry condition body m ws m' ∧
        Ending registry condition body m' ws.flatten o := by
  constructor
  · rintro ⟨ho, k, hk⟩
    cases k with
    | zero =>
      have hzero := Invocation.carryOut_zero hargs rfl registry src m
      exact absurd (hzero.symm.trans hk).symm ho
    | succ k =>
      have hrun : run (eval registry (k + 1)) condition body (k + 1) (m.write []) = o :=
        (carryOut_eq_run hloop hargs k src m).symm.trans hk
      obtain ⟨ws, m', hrounds, hending⟩ := rounds_of_run hrun ho
      exact ⟨ws, m', hrounds, hending⟩
  · rintro ⟨ws, m', hrounds, hending⟩
    obtain ⟨n₁, h₁⟩ := run_of_rounds hrounds
    obtain ⟨n₂, h₂⟩ := run_of_ending hending
    refine ⟨?_, ws.length + (n₁ + n₂) + 1, ?_⟩
    · cases hending <;> simp
    · have hrun := (h₁ (ws.length + (n₁ + n₂) + 1) (by omega) (n₁ + n₂ + 1) []).trans
        (h₂ (ws.length + (n₁ + n₂) + 1) (by omega) (n₁ + n₂))
      exact (carryOut_eq_run hloop hargs _ src m).trans hrun

end Loop

/-- A loop goes by rounds. Whatever the condition and the body do, an invocation that ends has gone
through some rounds, in each of which the condition was evaluated afresh to something and then the
body was evaluated afresh, all of it in the scope of the invocation; then the condition was empty,
or one of the two failed. What the loop leaves is what the last of these evaluations left, with the
values of the completed bodies added to the output in order, and a failure is the failure of that
evaluation. Conversely, where the evaluations go like this, the loop ends so. -/
theorem loop_reached_iff (registry : Registry)
    (hloop : registry.lookup (utf8 "loop") = some Builtin.loop) (c : Call)
    (hargs : c.args = utf8 "loop" :: condition :: body :: rest) (m : Machine) (o : Outcome Unit) :
    (∀ src, Outcome.Reached (fun k => Invocation.carryOut registry k (eval registry k) src c m) o ↔
      ∃ ws m', Loop.Rounds registry condition body m ws m' ∧
        Loop.Ending registry condition body m' ws.flatten o) ∧
    (c.WellFenced → ∀ label, Outcome.Reached (fun k => eval registry k ⟨label, c.render⟩ m) o ↔
      ∃ ws m', Loop.Rounds registry condition body m ws m' ∧
        Loop.Ending registry condition body m' ws.flatten o) := by
  refine ⟨Loop.reached_iff hloop hargs m o, fun hc label => ?_⟩
  rw [hc.reached_iff]
  exact Loop.reached_iff (c := c.atStart) hloop hargs m o _

def Machine.counting (n : Bytes) : Machine where
  state := { dictionary := { table := Table.empty 0 } }
  scope := ⟨.ofValues [utf8 "top", n], []⟩

def Bytes.countBelow (bound : Bytes) : Bytes := utf8 "<~lt?~<~1~>~" ++ bound ++ utf8 "~go~>"

def Bytes.countOn : Bytes := utf8 "<~1~<~add~<~1~>~1~>~><~1~>;<~eq?~<~1~>~3~<~stop~end~>~>"

def Call.ofCounting (bound : Bytes) : Call := ⟨0, 2, [utf8 "loop", .countBelow bound, .countOn]⟩

theorem loop_reached_iff_counting :
    Registry.standard.lookup (utf8 "loop") = some Builtin.loop ∧
    (Call.ofCounting (utf8 "2")).WellFenced ∧ (Call.ofCounting (utf8 "9")).WellFenced ∧
    Outcome.Reached (fun k => eval .standard k ⟨[], (Call.ofCounting (utf8 "2")).render⟩
      (.counting (utf8 "0"))) (.done () ((Machine.counting (utf8 "2")).write (utf8 "1;2;"))) ∧
    ∃ f : Fault, f.kind = .stop ∧ f.evidence = utf8 "end" ∧
      Outcome.Reached (fun k => eval .standard k ⟨[], (Call.ofCounting (utf8 "9")).render⟩
        (.counting (utf8 "0")))
        (.failed (.fault f) ((Machine.counting (utf8 "3")).write (utf8 "1;2;"))) := by
  have h₂ : (Call.ofCounting (utf8 "2")).WellFenced :=
    ⟨by decide, by decide, _, _, rfl, by decide, by decide, by decide⟩
  have h₉ : (Call.ofCounting (utf8 "9")).WellFenced :=
    ⟨by decide, by decide, _, _, rfl, by decide, by decide, by decide⟩
  have hrounds (bound : Bytes) (h : ∀ n ∈ [utf8 "0", utf8 "1"], (Machine.counting n).Evaluates
      .standard (.countBelow bound) (.done (utf8 "go") (.counting n))) :
      Loop.Rounds .standard (.countBelow bound) .countOn (.counting (utf8 "0"))
        [utf8 "1;", utf8 "2;"] (.counting (utf8 "2")) := by
    have hbody₀ : (Machine.counting (utf8 "0")).Evaluates .standard .countOn
        (.done (utf8 "1;") (.counting (utf8 "1"))) := ⟨by simp, 6, rfl⟩
    have hbody₁ : (Machine.counting (utf8 "1")).Evaluates .standard .countOn
        (.done (utf8 "2;") (.counting (utf8 "2"))) := ⟨by simp, 6, rfl⟩
    exact .round (h _ (by simp)) (by decide) hbody₀
      (.round (h _ (by simp)) (by decide) hbody₁ .none)
  have hrounds₂ := hrounds (utf8 "2") (List.forall_mem_cons.2
    ⟨⟨by simp, 6, rfl⟩, List.forall_mem_singleton.2 ⟨by simp, 6, rfl⟩⟩)
  have hrounds₉ := hrounds (utf8 "9") (List.forall_mem_cons.2
    ⟨⟨by simp, 6, rfl⟩, List.forall_mem_singleton.2 ⟨by simp, 6, rfl⟩⟩)
  have hgo : (Machine.counting (utf8 "2")).Evaluates .standard (.countBelow (utf8 "9"))
      (.done (utf8 "go") (.counting (utf8 "2"))) := ⟨by simp, 6, rfl⟩
  obtain ⟨f, hkind, hevidence, hfailed⟩ : ∃ f : Fault, f.kind = .stop ∧ f.evidence = utf8 "end" ∧
      (Machine.counting (utf8 "2")).Evaluates .standard .countOn
        (.failed (.fault f) (.counting (utf8 "3"))) :=
    ⟨⟨_, _, _, _⟩, rfl, rfl, by simp, 6, rfl⟩
  refine ⟨rfl, h₂, h₉, ?_, f, hkind, hevidence, ?_⟩
  · exact ((loop_reached_iff .standard rfl _ rfl _ _).2 h₂ []).2
      ⟨_, _, hrounds₂, .empty ⟨by simp, 6, rfl⟩⟩
  · exact ((loop_reached_iff .standard rfl _ rfl _ _).2 h₉ []).2
      ⟨_, _, hrounds₉, .body hgo (by decide) hfailed⟩

end TildeText
