import TildeText.Builtin.Standard
import TildeText.Proofs.Arguments
import TildeText.Proofs.Ordering

namespace TildeText

def Machine.pick (ev : Source → Machine → Outcome Unit) (holds : Bytes → Bool) :
    List Bytes → Machine → Outcome Bytes
  | [], m => .done [] m
  | [other], m => m.valueOf ev other
  | case :: result :: rest, m =>
    (m.valueOf ev case).andThen fun v m₁ =>
      if holds v then m₁.valueOf ev result else pick ev holds rest m₁

section Running

variable {f : Frame} {t : Bytes} {ts : List Bytes}

theorem Program.run_writeArg (hf : f.slots[n]? = some { text := some t }) (ctx : Context)
    (m : Machine) :
    ∃ f', (Program.writeArg n).run ctx (m.push f) =
      ((m.valueOf ctx.eval t).andThen fun v m₁ => .done () (m₁.write v)).mapMachine
        (·.push f') := by
  rw [Program.writeArg, Program.run_seq, Program.run_arg hf]
  cases m.valueOf ctx.eval t with
  | done v m₁ => exact ⟨f.remember n v, rfl⟩
  | failed e m₁ => exact ⟨f, rfl⟩
  | exhausted => exact ⟨f, rfl⟩

theorem Builtin.run_tryCases (holds : Bytes → Bool) (hf : f.Unread i ts) (ctx : Context)
    (m : Machine) :
    ∃ f', Program.run ctx (tryCases holds (List.range' i ts.length)) (m.push f) =
      ((m.pick ctx.eval holds ts).andThen fun v m₁ => .done () (m₁.write v)).mapMachine
        (·.push f') := by
  fun_induction Machine.pick ctx.eval holds ts m generalizing i f with
  | case1 m => exact ⟨f, rfl⟩
  | case2 other m => exact Program.run_writeArg hf.head ctx m
  | case3 case result rest m ih =>
    rw [List.length_cons, List.length_cons, List.range'_succ, List.range'_succ, tryCases,
      Program.run_seq, Program.run_arg hf.head]
    cases m.valueOf ctx.eval case with
    | exhausted => exact ⟨f, rfl⟩
    | failed e m₁ => exact ⟨f, rfl⟩
    | done v m₁ =>
      have hresult := hf.remember v
      simp only [Outcome.andThen]
      split
      · exact Program.run_writeArg hresult.head ctx m₁
      · exact ih m₁ hresult.tail

def Machine.compare (ev : Source → Machine → Outcome Unit) (holds : Bytes → Bytes → Bool)
    (m : Machine) (t : Bytes) (ts : List Bytes) : Outcome Unit :=
  (m.valueOf ev t).andThen fun v m₁ =>
    (m₁.pick ev (holds v) ts).andThen fun w m₂ => .done () (m₂.write w)

theorem Invocation.builtin_compare (holds : Bytes → Bytes → Bool) (hf : f.Unread 1 (t :: ts))
    (hlen : 2 ≤ ts.length) (ctx : Context) (k : Nat) (m : Machine) :
    builtin ctx (k + 1) (Builtin.compare holds) (m.push f) = m.compare ctx.eval holds t ts := by
  have hsize := hf.size_sub
  rw [List.length_cons] at hsize
  have hcount : Program.argCount.run ctx (m.push f) = .done f.size (m.push f) := rfl
  rw [builtin_succ, Builtin.compare, Program.run_seq, hcount, Outcome.andThen,
    if_neg (by omega), Program.run_seq, Program.run_arg hf.head, Machine.compare]
  cases m.valueOf ctx.eval t with
  | exhausted => rfl
  | failed e m₁ => rfl
  | done v m₁ =>
    have hrest := hf.remember v
    obtain ⟨f', hf'⟩ := Builtin.run_tryCases (holds v) hrest ctx m₁
    simp only [Outcome.andThen]
    rw [Program.run_seq, Program.run_argsFrom hrest, Outcome.andThen, Program.run_seq, hf']
    cases m₁.pick ctx.eval (holds v) ts <;> rfl

end Running

inductive Comparison
  | eq
  | ne
  | lt
  | le
  | gt
  | ge

namespace Comparison

def holds : Comparison → Bytes → Bytes → Bool
  | eq, a, b => a == b
  | ne, a, b => a != b
  | lt, a, b => Bytes.less a b
  | le, a, b => !Bytes.less b a
  | gt, a, b => Bytes.less b a
  | ge, a, b => !Bytes.less a b

def builtin : Comparison → Builtin
  | eq => .eq
  | ne => .ne
  | lt => .lt
  | le => .le
  | gt => .gt
  | ge => .ge

theorem builtin_eq (r : Comparison) : r.builtin = Builtin.compare r.holds := by
  cases r <;> rfl

/-- Whether a comparison holds of two values decides which of two texts is evaluated by an
invocation that has these values to compare. -/
def Decides (r : Comparison) (a b : Bytes) : Prop :=
  ∀ (ctx : Context) (f : Frame) (m m₁ m₂ : Machine) (x y yes no : Bytes) (k : Nat),
    f.Unread 1 [x, y, yes, no] → m.valueOf ctx.eval x = .done a m₁ →
    m₁.valueOf ctx.eval y = .done b m₂ →
    Invocation.builtin ctx (k + 1) r.builtin (m.push f) =
      (m₂.valueOf ctx.eval (if r.holds a b then yes else no)).andThen fun v m =>
        .done () (m.write v)

theorem decides (r : Comparison) (a b : Bytes) : r.Decides a b := by
  intro ctx f m m₁ m₂ x y yes no k hf hx hy
  rw [builtin_eq, Invocation.builtin_compare r.holds hf (by simp), Machine.compare, hx,
    Outcome.andThen, Machine.pick, hy, Outcome.andThen]
  split <;> rfl

theorem holds_trans {ts : List Bytes} (h : Bytes.Concordant ts) (ha : a ∈ ts) (hb : b ∈ ts)
    (hc : c ∈ ts) {r : Comparison} (hr : r ∈ [lt, le, gt, ge]) (hab : r.holds a b = true)
    (hbc : r.holds b c = true) : r.holds a c = true := by
  simp only [List.mem_cons, List.not_mem_nil, or_false] at hr
  rcases hr with rfl | rfl | rfl | rfl
  · exact h.less_trans ha hb hc hab hbc
  · rw [holds, Bool.not_eq_true'] at hab hbc ⊢
    exact h.not_less_trans ha hb hc hab hbc
  · exact h.less_trans hc hb ha hbc hab
  · rw [holds, Bool.not_eq_true'] at hab hbc ⊢
    exact h.not_less_trans hc hb ha hbc hab

end Comparison

section

open Bytes

/-- No value is less than itself, and of two values not each is less than the other. Among three
values being less is transitive, and so is each of the four comparisons by order that builtins make,
unless one of the three is not all digits and the dictionary has it between two numbers that are not
in that order themselves. Wherever values stand so, being less is not transitive. -/
theorem comparisons_consistent (a b c : Bytes) :
    less a a = false ∧
    (less a b = true → less b a = false) ∧
    (Concordant [a, b, c] →
      (less a b = true → less b c = true → less a c = true) ∧
      ∀ r ∈ [Comparison.lt, .le, .gt, .ge],
        r.holds a b = true → r.holds b c = true → r.holds a c = true) ∧
    (Discord a b c → less a b = true ∧ less b c = true ∧ less a c = false) ∧
    ∀ r : Comparison, r.Decides a b := by
  refine ⟨less_irrefl a, less_asymm, fun h => ?_, Discord.not_trans, fun r => r.decides a b⟩
  have ha : a ∈ [a, b, c] := by simp
  have hb : b ∈ [a, b, c] := by simp
  have hc : c ∈ [a, b, c] := by simp
  exact ⟨h.less_trans ha hb hc, fun r hr => Comparison.holds_trans h ha hb hc hr⟩

theorem comparisons_consistent_mixed :
    Concordant [utf8 "10", utf8 "1a", utf8 "20"] ∧
    less (utf8 "10") (utf8 "1a") = true ∧ less (utf8 "1a") (utf8 "20") = true ∧
    less (utf8 "10") (utf8 "20") = true ∧ Comparison.le.holds (utf8 "10") (utf8 "20") = true ∧
    Discord (utf8 "10") (utf8 "1a") (utf8 "9") ∧ less (utf8 "10") (utf8 "9") = false := by
  have hconcordant : Concordant [utf8 "10", utf8 "1a", utf8 "20"] := by decide
  have hdiscord : Discord (utf8 "10") (utf8 "1a") (utf8 "9") := by decide
  obtain ⟨-, -, htrans, -⟩ := comparisons_consistent (utf8 "10") (utf8 "1a") (utf8 "20")
  obtain ⟨-, -, -, hbreak, -⟩ := comparisons_consistent (utf8 "10") (utf8 "1a") (utf8 "9")
  exact ⟨hconcordant, rfl, rfl, (htrans hconcordant).1 rfl rfl,
    (htrans hconcordant).2 .le (by simp) rfl rfl, hdiscord, (hbreak hdiscord).2.2⟩

theorem less_intransitive :
    less (utf8 "9") (utf8 "10") = true ∧ less (utf8 "10") (utf8 "1a") = true ∧
    less (utf8 "9") (utf8 "1a") = false := by
  decide

end

end TildeText
