import TildeText.Builtin.Request
import TildeText.Proofs.Sequence
import TildeText.Proofs.WriteOnly

namespace TildeText

namespace Program

variable (ctx : Context) (n : Nat) (m : Machine)

theorem run_arg_eq :
    (arg n).run ctx m = (m.argument ctx.eval n).andThen fun v m₁ => .done (v.getD []) m₁ := by
  rw [arg, run_seq, argument, run_ask, Request.perform]
  cases m.argument ctx.eval n <;> rfl

theorem run_writeArg_eq :
    (writeArg n).run ctx m =
      (m.argument ctx.eval n).andThen fun v m₁ => .done () (m₁.write (v.getD [])) := by
  rw [writeArg, run_seq, run_arg_eq]
  cases m.argument ctx.eval n <;> rfl

theorem run_argsFrom_eq :
    (argsFrom n).run ctx m = .done (List.range' n (m.scope.frame.size - n)) m :=
  rfl

end Program

namespace Machine

/-- Arguments that are asked for one after the other, with what their values are. One that is not
there counts as empty. -/
inductive Asks (ev : Source → Machine → Outcome Unit) :
    Machine → List Nat → List Bytes → Machine → Prop
  | nil : Asks ev m [] [] m
  | cons : m.argument ev n = .done v m₁ → Asks ev m₁ ns vs m' →
      Asks ev m (n :: ns) (v.getD [] :: vs) m'

section

variable {ev : Source → Machine → Outcome Unit} {m m₁ m' : Machine} {n : Nat} {v : Option Bytes}
  {ns : List Nat} {vs : List Bytes}

theorem size_argument (h : m.argument ev n = .done v m₁) :
    m₁.scope.frame.size = m.scope.frame.size := by
  by_cases hraw : ∃ t, m.scope.frame.slots[n]? = some { text := some t }
  · obtain ⟨t, ht⟩ := hraw
    rw [argument_raw ht] at h
    cases hev : ev { bytes := t } m.aside with
    | done a m₂ =>
      rw [hev] at h
      cases h
      have hframe : (m.resume (m.scope.frame.remember n m₂.out.toBytes) m₂).scope.frame =
          m.scope.frame.remember n m₂.out.toBytes := by
        rw [resume, Scope.within]
        split <;> rfl
      rw [hframe, Frame.size, Frame.remember, List.length_modify, Frame.size]
    | failed e m₂ =>
      rw [hev] at h
      cases h
    | exhausted =>
      rw [hev] at h
      cases h
  · rw [argument_known fun t ht => hraw ⟨t, ht⟩] at h
    cases h
    rfl

theorem argument_write (ev : Source → Machine → Outcome Unit) (m : Machine) (n : Nat) (s : Bytes) :
    (m.write s).argument ev n = (m.argument ev n).mapMachine (·.write s) := by
  by_cases hraw : ∃ t, m.scope.frame.slots[n]? = some { text := some t }
  · obtain ⟨t, ht⟩ := hraw
    have haside : (m.write s).aside = m.aside := rfl
    rw [argument_raw (m := m.write s) ht, argument_raw ht, haside]
    cases ev { bytes := t } m.aside <;> rfl
  · have hknown : ∀ t, m.scope.frame.slots[n]? ≠ some { text := some t } :=
      fun t ht => hraw ⟨t, ht⟩
    rw [argument_known (m := m.write s) hknown, argument_known hknown]
    rfl

end

section

variable {ctx : Context} {m m' : Machine} {n : Nat} {v : Bytes} {ns : List Nat} {vs : List Bytes}

theorem Asks.run_arg (h : m.Asks ctx.eval (n :: ns) (v :: vs) m') :
    ∃ m₁, (Program.arg n).run ctx m = .done v m₁ ∧
      m₁.scope.frame.size = m.scope.frame.size ∧ m₁.Asks ctx.eval ns vs m' := by
  cases h with
  | cons hn hrest =>
    exact ⟨_, by rw [Program.run_arg_eq, hn, Outcome.andThen], size_argument hn, hrest⟩

theorem Asks.run_numberArg (h : m.Asks ctx.eval (n :: ns) (v :: vs) m')
    (hk : Bytes.number? v = some k) :
    ∃ m₁, (Program.numberArg n).run ctx m = .done k m₁ ∧
      m₁.scope.frame.size = m.scope.frame.size ∧ m₁.Asks ctx.eval ns vs m' := by
  obtain ⟨m₁, harg, hsize, hrest⟩ := h.run_arg
  refine ⟨m₁, ?_, hsize, hrest⟩
  rw [Program.numberArg, Program.run_seq, harg, Outcome.andThen]
  simp only [hk]
  rfl

theorem Asks.eq_of_nil (h : m.Asks ctx.eval [] vs m') : m' = m := by
  cases h
  rfl

end

end Machine

end TildeText
