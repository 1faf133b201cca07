import TildeText.Proofs.Anonymous
import TildeText.Proofs.WriteOnly

namespace TildeText

/-- An outcome that is come to with enough fuel. -/
def Outcome.Reached (run : Nat → Outcome α) (o : Outcome α) : Prop :=
  o ≠ .exhausted ∧ ∃ k, run k = o

theorem Outcome.Reached.unique {run : Nat → Outcome α} {o o' : Outcome α}
    (hrun : ∀ k k', k ≤ k' → (run k).UpTo (run k')) (h : Reached run o) (h' : Reached run o') :
    o = o' := by
  obtain ⟨ho, k, rfl⟩ := h
  obtain ⟨ho', k', rfl⟩ := h'
  rcases Nat.le_total k k' with hk | hk
  · exact (hrun k k' hk).eq ho
  · exact ((hrun k' k hk).eq ho').symm

namespace Machine

/-- The value of a text that is evaluated afresh, into an output of its own. -/
def valueOf (ev : Source → Machine → Outcome Unit) (m : Machine) (t : Bytes) : Outcome Bytes :=
  match ev { bytes := t } { m with out := {} } with
  | .done _ m₁ => .done m₁.out.toBytes { m₁ with out := m.out }
  | .failed e m₁ => .failed e { m₁ with out := m.out }
  | .exhausted => .exhausted

/-- What evaluating a text afresh comes to. -/
def Evaluates (registry : Registry) (m : Machine) (t : Bytes) (o : Outcome Bytes) : Prop :=
  Outcome.Reached (fun k => m.valueOf (eval registry k) t) o

section

variable {ev : Source → Machine → Outcome Unit} {m m₁ : Machine} {t v : Bytes} {o : Outcome Bytes}
  {registry : Registry}

theorem valueOf_write (ev : Source → Machine → Outcome Unit) (m : Machine) (s t : Bytes) :
    (m.write s).valueOf ev t = (m.valueOf ev t).mapMachine (·.write s) := by
  have haside : { m.write s with out := {} } = { m with out := {} } := rfl
  rw [valueOf, valueOf, haside]
  cases ev { bytes := t } { m with out := {} } <;> rfl

theorem valueOf_out (ev : Source → Machine → Outcome Unit) (m : Machine) (o : Output) (t : Bytes) :
    { m with out := o }.valueOf ev t = (m.valueOf ev t).mapMachine ({ · with out := o }) := by
  rw [valueOf, valueOf]
  cases ev { bytes := t } { m with out := {} } <;> rfl

theorem out_of_valueOf (h : m.valueOf ev t = .done v m₁) : m₁.out = m.out := by
  rw [valueOf] at h
  split at h <;> cases h
  rfl

theorem valueOf_mono (hk : k ≤ k') (h : m.valueOf (eval registry k) t ≠ .exhausted) :
    m.valueOf (eval registry k') t = m.valueOf (eval registry k) t := by
  have hne : eval registry k { bytes := t } { m with out := {} } ≠ .exhausted := by
    intro hx
    rw [valueOf, hx] at h
    exact h rfl
  rw [valueOf, valueOf, eval_mono hk hne]

theorem Evaluates.eventually (h : m.Evaluates registry t o) :
    ∃ n, ∀ k, n ≤ k → m.valueOf (eval registry k) t = o := by
  obtain ⟨ho, n, rfl⟩ := h
  exact ⟨n, fun k hk => valueOf_mono hk ho⟩

theorem Evaluates.out_eq (h : m.Evaluates registry t (.done v m₁)) : m₁.out = m.out := by
  obtain ⟨-, k, hk⟩ := h
  exact out_of_valueOf hk

end

end Machine

theorem Bytes.IsPlain.evaluates {t : Bytes} (h : t.IsPlain) (registry : Registry) (m : Machine) :
    m.Evaluates registry t (.done t m) := by
  have hout : (({} : Output).write t).toBytes = t := Output.toBytes_write _ _
  refine ⟨by simp, 1, ?_⟩
  simp only [Machine.valueOf, h.eval_eq, Machine.write, hout]

theorem Machine.argument_unread {f : Frame} (hf : f.slots[n]? = some { text := some t })
    (ev : Source → Machine → Outcome Unit) (m : Machine) :
    (m.push f).argument ev n =
      match m.valueOf ev t with
      | .done v m₁ => .done (some v) (m₁.push (f.remember n v))
      | .failed e m₁ => .failed e (m₁.push f)
      | .exhausted => .exhausted := by
  rw [argument_push hf, valueOf]
  cases ev { bytes := t } { m with out := {} } <;> rfl

namespace Frame

variable {f : Frame} {n : Nat} {t : Bytes} {ts : List Bytes}

def Unread (f : Frame) (n : Nat) (texts : List Bytes) : Prop :=
  f.slots.drop n = texts.map fun t => { text := some t }

namespace Unread

theorem head (h : f.Unread n (t :: ts)) : f.slots[n]? = some { text := some t } := by
  rw [← List.head?_drop, h]
  rfl

theorem tail (h : f.Unread n (t :: ts)) : f.Unread (n + 1) ts := by
  rw [Unread, ← List.tail_drop, h]
  rfl

theorem remember (h : f.Unread n (t :: ts)) (v : Bytes) : (f.remember n v).Unread (n + 1) ts := by
  have htail : f.slots.drop (n + 1) = ts.map fun t => { text := some t } := h.tail
  rw [Unread, ← htail]
  refine List.ext_getElem? fun i => ?_
  have hne : n ≠ n + 1 + i := by omega
  simp [Frame.remember, hne]

theorem size_sub (h : f.Unread n ts) : f.size - n = ts.length := by
  have hlen := congrArg List.length h
  rwa [List.length_drop, List.length_map] at hlen

theorem ofCall {c : Call} (hargs : c.args = name :: ts) (src : Source) (v : Bytes) :
    ((c.frame src).remember 0 v).Unread 1 ts := by
  simp [Unread, Call.frame, Frame.ofTexts, Frame.remember, hargs]

end Unread

end Frame

theorem Invocation.builtin_succ (ctx : Context) (n : Nat) (b : Builtin) (m : Machine) :
    builtin ctx (n + 1) b m =
      match Program.run ctx b m with
      | .done .finished m => .done () m.pop
      | .done (.matched d) m => .done () (m.pop.mapFrame (·.rebind 0 d))
      | .done .again m => builtin ctx n b m
      | .failed e m => .failed e m.pop
      | .exhausted => .exhausted := by
  rw [builtin, Builtin.run]
  cases Program.run ctx b m with
  | done v m => cases v <;> rfl
  | failed e m => rfl
  | exhausted => rfl

theorem Invocation.carryOut_zero {c : Call} (hargs : c.args = name :: rest)
    (hname : Bytes.allDigits name = false) (registry : Registry) (src : Source) (m : Machine) :
    carryOut registry 0 (eval registry 0) src c m = .exhausted := by
  have hslot : (m.push (c.frame src)).scope.frame.slots[0]? = some { text := some name } := by
    simp [Machine.push, Scope.push, Call.frame, Frame.ofTexts, hargs]
  rw [carryOut, Call.index?_of_not_allDigits hargs hname]
  simp only [byName, Machine.argument_exhausted hslot]

theorem Invocation.carryOut_upTo {registry : Registry} (hk : k ≤ k') (src : Source) (c : Call)
    (m : Machine) : (carryOut registry k (eval registry k) src c m).UpTo
      (carryOut registry k' (eval registry k') src c m) :=
  (coupling_upTo (fun src m => eval_upTo hk src m) hk).carryOut (w := ()) rfl rfl rfl

theorem Machine.Evaluates.not_allDigits {registry : Registry} {m m₁ : Machine}
    (h : m.Evaluates registry title (.done name m₁)) (hname : Bytes.allDigits name = false) :
    Bytes.allDigits title = false := by
  rw [Bool.eq_false_iff]
  intro hdigits
  obtain ⟨n, hn⟩ := h.eventually
  obtain ⟨n', hn'⟩ := ((Bytes.isPlain_of_allDigits hdigits).evaluates registry m).eventually
  have hboth := (hn (max n n') (by omega)).symm.trans (hn' (max n n') (by omega))
  cases hboth
  rw [hname] at hdigits
  cases hdigits

theorem Invocation.carryOut_titled {registry : Registry} {c : Call} {m m₁ : Machine} {b : Builtin}
    (hargs : c.args = title :: ts) (htitle : m.Evaluates registry title (.done name m₁))
    (hname : Bytes.allDigits name = false) (hb : registry.lookup name = some b) :
    ∃ n, ∀ k, n ≤ k → ∀ src, carryOut registry k (eval registry k) src c m =
      builtin (registry.context (eval registry k)) k b
        (m₁.push ((c.frame src).remember 0 name)) := by
  obtain ⟨n, hn⟩ := htitle.eventually
  refine ⟨n, fun k hk src => ?_⟩
  have hslot : (c.frame src).slots[0]? = some { text := some title } := by
    simp [Call.frame, Frame.ofTexts, hargs]
  have hvalue : (m.push (c.frame src)).argument (eval registry k) 0 =
      .done (some name) (m₁.push ((c.frame src).remember 0 name)) := by
    rw [Machine.argument_unread hslot, hn k hk]
  rw [carryOut, Call.index?_of_not_allDigits hargs (htitle.not_allDigits hname)]
  simp only [byName, hvalue, Option.getD_some, hb]

theorem Call.WellFenced.reached_iff {c : Call} (h : c.WellFenced) (registry : Registry)
    (label : Bytes) (m : Machine) (o : Outcome Unit) :
    Outcome.Reached (fun k => eval registry k ⟨label, c.render⟩ m) o ↔
      Outcome.Reached (fun k => Invocation.carryOut registry k (eval registry k)
        ⟨label, c.render⟩ c.atStart m) o := by
  constructor
  · rintro ⟨ho, k, hk⟩
    cases k with
    | zero => exact absurd hk.symm ho
    | succ k => exact ⟨ho, k, (h.eval_eq registry k label m).symm.trans hk⟩
  · rintro ⟨ho, k, hk⟩
    exact ⟨ho, k + 1, (h.eval_eq registry k label m).trans hk⟩

theorem Program.run_arg {f : Frame} (hf : f.slots[n]? = some { text := some t }) (ctx : Context)
    (m : Machine) :
    (Program.arg n).run ctx (m.push f) =
      match m.valueOf ctx.eval t with
      | .done v m₁ => .done v (m₁.push (f.remember n v))
      | .failed e m₁ => .failed e (m₁.push f)
      | .exhausted => .exhausted := by
  rw [Program.arg, Program.run_seq, Program.argument, Program.run_ask, Request.perform,
    Machine.argument_unread hf]
  cases m.valueOf ctx.eval t <;> rfl

theorem Program.run_argsFrom {f : Frame} (hf : f.Unread n ts) (ctx : Context) (m : Machine) :
    (Program.argsFrom n).run ctx (m.push f) = .done (List.range' n ts.length) (m.push f) := by
  rw [← hf.size_sub]
  rfl

end TildeText
