import TildeText.Proofs.Asking
import TildeText.Proofs.Cases

namespace TildeText

inductive Outcome.Stops : Outcome α → Outcome β → Prop
  | failed : Stops (.failed e m) (.failed e m)
  | exhausted : Stops .exhausted .exhausted

namespace Outcome.Stops

variable {x : Outcome α} {y : Outcome β}

theorem andThen (h : x.Stops y) (f : α → Machine → Outcome γ) : (x.andThen f).Stops y := by
  cases h with
  | failed => exact .failed
  | exhausted => exact .exhausted

theorem andThen_eq (h : x.Stops y) (f : α → Machine → Outcome γ) (g : β → Machine → Outcome γ) :
    x.andThen f = y.andThen g := by
  cases h <;> rfl

end Outcome.Stops

def Outcome.written (o : Outcome (Option Bytes)) : Outcome Unit :=
  o.andThen fun v m => .done () (m.write (v.getD []))

namespace Comparison

def name : Comparison → Bytes
  | eq => utf8 "eq?"
  | ne => utf8 "ne?"
  | lt => utf8 "lt?"
  | le => utf8 "le?"
  | gt => utf8 "gt?"
  | ge => utf8 "ge?"

inductive Passes (ev : Source → Machine → Outcome Unit) (r : Comparison) (m : Machine) :
    Nat → Bytes → Machine → Prop
  | start : 4 ≤ m.scope.frame.size → m.argument ev 1 = .done v m₁ →
      Passes ev r m 0 (v.getD []) m₁
  | next : Passes ev r m i v m₁ → 2 * i + 3 < m.scope.frame.size →
      m₁.argument ev (2 * i + 2) = .done w m₂ → r.holds v (w.getD []) = false →
      Passes ev r m (i + 1) v m₂

/-- How a comparison goes. A case holds, and its result is written; or none does, and an argument
that is left over is written, or nothing if there is none. On the way the evaluation of the first
argument or of a case may stop it, and with too few arguments it fails at once. -/
inductive Course (ev : Source → Machine → Outcome Unit) (r : Comparison) (m : Machine) :
    Outcome Unit → Prop
  | holds : Passes ev r m i v m₁ → 2 * i + 3 < m.scope.frame.size →
      m₁.argument ev (2 * i + 2) = .done w m₂ → r.holds v (w.getD []) = true →
      Course ev r m (m₂.argument ev (2 * i + 3)).written
  | other : Passes ev r m i v m₁ → m.scope.frame.size = 2 * i + 3 →
      Course ev r m (m₁.argument ev (2 * i + 2)).written
  | nothing : Passes ev r m i v m₁ → m.scope.frame.size = 2 * i + 2 →
      Course ev r m (.done () m₁)
  | valueStops : 4 ≤ m.scope.frame.size → (m.argument ev 1).Stops o → Course ev r m o
  | caseStops : Passes ev r m i v m₁ → 2 * i + 3 < m.scope.frame.size →
      (m₁.argument ev (2 * i + 2)).Stops o → Course ev r m o
  | tooFew : m.scope.frame.size < 4 → Course ev r m (.failed (m.fault .missingParameter) m)

section Running

variable {r : Comparison} {ctx : Context} {m m₁ : Machine} {v : Bytes} {o : Outcome Unit}

def remaining (i size : Nat) : List Nat := List.range' (2 * i + 2) (size - (2 * i + 2))

theorem remaining_pair (h : 2 * i + 3 < size) :
    remaining i size = (2 * i + 2) :: (2 * i + 3) :: remaining (i + 1) size := by
  have hsize : size - (2 * i + 2) = size - (2 * (i + 1) + 2) + 1 + 1 := by omega
  rw [remaining, hsize, List.range'_succ, List.range'_succ]
  rfl

theorem remaining_one (h : size = 2 * i + 3) : remaining i size = [2 * i + 2] := by
  have hsize : size - (2 * i + 2) = 1 := by omega
  rw [remaining, hsize, List.range'_one]

theorem remaining_none (h : size = 2 * i + 2) : remaining i size = [] := by
  rw [remaining, h, Nat.sub_self, List.range'_zero]

theorem run_tryCases_pair (holds : Bytes → Bool) (case result : Nat) (rest : List Nat)
    (ctx : Context) (m : Machine) :
    Program.run ctx (Builtin.tryCases holds (case :: result :: rest)) m =
      (m.argument ctx.eval case).andThen fun w m₁ =>
        if holds (w.getD []) then (m₁.argument ctx.eval result).written
        else Program.run ctx (Builtin.tryCases holds rest) m₁ := by
  rw [Builtin.tryCases, Program.run_seq, Program.run_arg_eq]
  cases m.argument ctx.eval case with
  | done w m₁ =>
    simp only [Outcome.andThen]
    split
    · exact Program.run_writeArg_eq ctx result m₁
    · rfl
  | failed e m₁ => rfl
  | exhausted => rfl

theorem run_compare (h : 4 ≤ m.scope.frame.size) :
    Program.run ctx r.builtin m = (m.argument ctx.eval 1).andThen fun v m₁ =>
      (Program.run ctx (Builtin.tryCases (r.holds (v.getD []))
        (List.range' 2 (m₁.scope.frame.size - 2))) m₁).andThen fun _ m => .done .finished m := by
  have hcount : Program.argCount.run ctx m = .done m.scope.frame.size m := rfl
  rw [builtin_eq, Builtin.compare, Program.run_seq, hcount, Outcome.andThen,
    if_neg (Nat.not_lt.2 h), Program.run_seq, Program.run_arg_eq]
  cases m.argument ctx.eval 1 with
  | done v m₁ =>
    simp only [Outcome.andThen]
    rw [Program.run_seq, Program.run_argsFrom_eq, Outcome.andThen, Program.run_seq]
    rfl
  | failed e m₁ => rfl
  | exhausted => rfl

theorem Passes.le_size (h : r.Passes ctx.eval m i v m₁) : 2 * i + 2 ≤ m.scope.frame.size := by
  cases h <;> omega

theorem Passes.run_eq (h : r.Passes ctx.eval m i v m₁) :
    Program.run ctx r.builtin m = (Program.run ctx (Builtin.tryCases (r.holds v)
      (remaining i m.scope.frame.size)) m₁).andThen fun _ m => .done .finished m := by
  induction h with
  | start hsize hv =>
    rw [run_compare hsize, hv, Outcome.andThen, Machine.size_argument hv]
    rfl
  | next _ hlt hw hfalse ih =>
    rw [ih, remaining_pair hlt, run_tryCases_pair, hw, Outcome.andThen, hfalse]
    rfl

theorem Course.run_eq (h : r.Course ctx.eval m o) :
    Program.run ctx r.builtin m = o.andThen fun _ m => .done .finished m := by
  cases h with
  | holds hp hlt hw htrue =>
    rw [hp.run_eq, remaining_pair hlt, run_tryCases_pair, hw, Outcome.andThen, htrue]
    rfl
  | other hp hsize =>
    rw [hp.run_eq, remaining_one hsize, Builtin.tryCases, Program.run_writeArg_eq]
    rfl
  | nothing hp hsize =>
    rw [hp.run_eq, remaining_none hsize]
    rfl
  | valueStops hsize hstop =>
    rw [run_compare hsize]
    exact hstop.andThen_eq _ _
  | caseStops hp hlt hstop =>
    rw [hp.run_eq, remaining_pair hlt, run_tryCases_pair]
    exact (hstop.andThen _).andThen_eq _ _
  | tooFew hlt =>
    have hcount : Program.argCount.run ctx m = .done m.scope.frame.size m := rfl
    rw [builtin_eq, Builtin.compare, Program.run_seq, hcount, Outcome.andThen, if_pos hlt]
    rfl

theorem Passes.exists_course (h : r.Passes ctx.eval m i v m₁) : ∃ o, r.Course ctx.eval m o := by
  -- the number of arguments that have not been asked for goes down with each case
  induction hleft : m.scope.frame.size - 2 * i using Nat.strongRecOn generalizing i m₁ with
  | ind left ih =>
    have hle := h.le_size
    by_cases hnone : m.scope.frame.size = 2 * i + 2
    · exact ⟨_, .nothing h hnone⟩
    by_cases hone : m.scope.frame.size = 2 * i + 3
    · exact ⟨_, .other h hone⟩
    have hlt : 2 * i + 3 < m.scope.frame.size := by omega
    cases hw : m₁.argument ctx.eval (2 * i + 2) with
    | done w m₂ =>
      cases hholds : r.holds v (w.getD []) with
      | true => exact ⟨_, .holds h hlt hw hholds⟩
      | false => exact ih _ (by omega) (h.next hlt hw hholds) rfl
    | failed e m₂ => exact ⟨.failed e m₂, .caseStops h hlt (by rw [hw]; exact .failed)⟩
    | exhausted => exact ⟨.exhausted, .caseStops h hlt (by rw [hw]; exact .exhausted)⟩

theorem exists_course (r : Comparison) (ctx : Context) (m : Machine) :
    ∃ o, r.Course ctx.eval m o := by
  by_cases hsize : m.scope.frame.size < 4
  · exact ⟨_, .tooFew hsize⟩
  have hsize := Nat.le_of_not_lt hsize
  cases hv : m.argument ctx.eval 1 with
  | done v m₁ => exact (Passes.start hsize hv).exists_course
  | failed e m₁ => exact ⟨.failed e m₁, .valueStops hsize (by rw [hv]; exact .failed)⟩
  | exhausted => exact ⟨.exhausted, .valueStops hsize (by rw [hv]; exact .exhausted)⟩

end Running

end Comparison

/-- Comparisons are lazy. In any frame and for each of the six, one compares its first argument with
the cases after it, in order, up to the first that holds, and writes the result after that case; if
none holds, it writes the argument that is left over, or nothing. It evaluates these arguments and
no others, so that the state, the frames and the failure that it ends with are those of these
evaluations. With less than three arguments it fails and evaluates nothing. -/
theorem comparison_lazy (r : Comparison) (ctx : Context) (k : Nat) (m : Machine) :
    Registry.standard.lookup r.name = some r.builtin ∧ (∃ o, r.Course ctx.eval m o) ∧
    ∀ o, r.Course ctx.eval m o → Invocation.builtin ctx (k + 1) r.builtin m = o.pop := by
  refine ⟨by cases r <;> rfl, r.exists_course ctx m, fun o ho => ?_⟩
  rw [Invocation.builtin_succ, ho.run_eq]
  cases o <;> rfl

def Frame.choosing : Frame := .ofTexts [utf8 "eq?", utf8 "b", utf8 "a", utf8 "<~stop~x~>",
  utf8 "<~1~c~>b", utf8 "<~1~>", utf8 "<~stop~y~>"]

def Machine.choosing : Machine where
  state := { dictionary := { table := Table.empty 0 } }
  scope := ⟨.choosing, [.ofValues [utf8 "top", utf8 "d"]]⟩

theorem comparison_lazy_secondCase :
    ∃ m, Comparison.eq.Course (eval .standard 3) .choosing (.done () m) ∧
      m.out.toBytes = utf8 "c" ∧
      Invocation.builtin (Registry.standard.context (eval .standard 3)) 1 .eq .choosing =
        .done () m.pop ∧
      Comparison.eq.Course (eval .standard 3) { Machine.choosing with scope := ⟨.empty, []⟩ }
        (.failed (Machine.fault { Machine.choosing with scope := ⟨.empty, []⟩ } .missingParameter)
          { Machine.choosing with scope := ⟨.empty, []⟩ }) := by
  let ev := eval .standard 3
  let m₁ : Machine := Machine.choosing.mapFrame (·.remember 1 (utf8 "b"))
  let m₂ : Machine := m₁.mapFrame (·.remember 2 (utf8 "a"))
  let m₃ : Machine := { m₂ with
    scope := ⟨m₂.scope.frame.remember 4 (utf8 "b"), [.ofValues [utf8 "top", utf8 "c"]]⟩ }
  have hvalue : Machine.choosing.argument ev 1 = .done (some (utf8 "b")) m₁ := rfl
  have hcase : m₁.argument ev 2 = .done (some (utf8 "a")) m₂ := rfl
  have hcase' : m₂.argument ev 4 = .done (some (utf8 "b")) m₃ := rfl
  have hresult : (m₃.argument ev 5).written =
      .done () ((m₃.mapFrame (·.remember 5 (utf8 "c"))).write (utf8 "c")) := rfl
  have hcourse : Comparison.eq.Course ev .choosing (m₃.argument ev 5).written :=
    .holds (.next (.start (by decide) hvalue) (by decide) hcase rfl) (by decide) hcase' rfl
  rw [hresult] at hcourse
  obtain ⟨-, -, hrun⟩ := comparison_lazy .eq (Registry.standard.context ev) 0 .choosing
  exact ⟨_, hcourse, rfl, hrun _ hcourse, .tooFew (by decide)⟩

end TildeText
