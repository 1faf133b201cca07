import TildeText.Builtin.Standard
import TildeText.Proofs.Arguments
import TildeText.Proofs.Numerals

namespace TildeText

inductive Arithmetic
  | add
  | mult
  | sub
  | div
  | mod

def Bytes.numeral (r : Option Int64) : Bytes := r.elim [] fun n => Bytes.decimal n.toInt

namespace Arithmetic

def name : Arithmetic → Bytes
  | add => utf8 "add"
  | mult => utf8 "mult"
  | sub => utf8 "sub"
  | div => utf8 "div"
  | mod => utf8 "mod"

def builtin : Arithmetic → Builtin
  | add => .add
  | mult => .mult
  | sub => .sub
  | div => .div
  | mod => .mod

def start : Arithmetic → Option Int64
  | add => some 0
  | mult => some 1
  | _ => none

def op : Arithmetic → Int64 → Int64 → Option Int64
  | add, a, b => some (a + b)
  | mult, a, b => some (a * b)
  | sub, a, b => some (a - b)
  | div, a, b => Builtin.divide? a b
  | mod, a, b => Builtin.remainder? a b

def next (a : Arithmetic) (acc : Option Int64) (k : Int64) : Option Int64 :=
  acc.elim (some k) fun n => a.op n k

def total (ev : Source → Machine → Outcome Unit) (a : Arithmetic) :
    Option Int64 → List Bytes → Machine → Outcome (Option Int64)
  | acc, [], m => .done acc m
  | acc, t :: ts, m =>
    (m.valueOf ev t).andThen fun v m₁ =>
      match (Bytes.number? v).bind (a.next acc) with
      | some n => total ev a (some n) ts m₁
      | none => .done none m₁

variable {a : Arithmetic} {ev : Source → Machine → Outcome Unit} {ctx : Context} {m m₁ : Machine}
  {f : Frame} {registry : Registry} {c : Call} {ts : List Bytes} {r : Option Int64} {v : Bytes}

theorem run_reduce (a : Arithmetic) (n : Int64) (hf : f.Unread i ts) (ctx : Context) (m : Machine) :
    ∃ f', Program.run ctx (Builtin.reduce a.op n (List.range' i ts.length)) (m.push f) =
      (a.total ctx.eval (some n) ts m).mapMachine (·.push f') := by
  induction ts generalizing i n m f with
  | nil => exact ⟨f, rfl⟩
  | cons t ts ih =>
    rw [List.length_cons, List.range'_succ, Builtin.reduce, Program.run_seq,
      Program.run_arg hf.head, total]
    cases m.valueOf ctx.eval t with
    | exhausted => exact ⟨f, rfl⟩
    | failed e m₁ => exact ⟨f, rfl⟩
    | done v m₁ =>
      simp only [Outcome.andThen]
      cases Bytes.number? v with
      | none => exact ⟨f.remember i v, rfl⟩
      | some k =>
        have hnext : (some k).bind (a.next (some n)) = a.op n k := rfl
        rw [hnext]
        simp only
        cases a.op n k with
        | none => exact ⟨f.remember i v, rfl⟩
        | some n' => exact ih n' (hf.remember v) m₁

theorem run_writeNumber (r : Option Int64) (ctx : Context) (m : Machine) (f : Frame) :
    Program.run ctx (do Builtin.writeNumber r; return Verdict.finished) (m.push f) =
      .done .finished ((m.write (Bytes.numeral r)).push f) := by
  cases r <;> rfl

def tell (ev : Source → Machine → Outcome Unit) (a : Arithmetic) (ts : List Bytes) (m : Machine) :
    Outcome Bytes :=
  (a.total ev a.start ts m).andThen fun r m₁ => .done (Bytes.numeral r) m₁

theorem run_reduceAll (a : Arithmetic) (hstart : a.start = some n) (hf : f.Unread 1 ts)
    (ctx : Context) (m : Machine) :
    ∃ f', Program.run ctx (Builtin.reduceAll a.op n) (m.push f) =
      ((a.tell ctx.eval ts m).andThen fun v m₁ => .done .finished (m₁.write v)).mapMachine
        (·.push f') := by
  obtain ⟨f', hf'⟩ := a.run_reduce n hf ctx m
  refine ⟨f', ?_⟩
  rw [Builtin.reduceAll, Program.run_seq, Program.run_argsFrom hf, Outcome.andThen,
    Program.run_seq, hf', tell, hstart]
  cases a.total ctx.eval (some n) ts m with
  | done r m₁ => exact run_writeNumber r ctx m₁ f'
  | failed e m₁ => rfl
  | exhausted => rfl

theorem run_reduceFirst (a : Arithmetic) (hstart : a.start = none) (hf : f.Unread 1 ts)
    (ctx : Context) (m : Machine) :
    ∃ f', Program.run ctx (Builtin.reduceFirst a.op) (m.push f) =
      ((a.tell ctx.eval ts m).andThen fun v m₁ => .done .finished (m₁.write v)).mapMachine
        (·.push f') := by
  rw [Builtin.reduceFirst, Program.run_seq, Program.run_argsFrom hf, Outcome.andThen, tell, hstart]
  cases ts with
  | nil => exact ⟨f, rfl⟩
  | cons t ts =>
    rw [List.length_cons, List.range'_succ, total]
    simp only
    rw [Program.run_seq, Program.run_arg hf.head]
    cases m.valueOf ctx.eval t with
    | exhausted => exact ⟨f, rfl⟩
    | failed e m₁ => exact ⟨f, rfl⟩
    | done v m₁ =>
      simp only [Outcome.andThen]
      cases Bytes.number? v with
      | none => exact ⟨f.remember 1 v, rfl⟩
      | some k =>
        have hnext : (some k).bind (a.next none) = some k := rfl
        obtain ⟨f', hf'⟩ := a.run_reduce k (hf.remember v) ctx m₁
        refine ⟨f', ?_⟩
        rw [hnext]
        simp only
        rw [Program.run_seq, hf']
        cases a.total ctx.eval (some k) ts m₁ with
        | done r m₂ => exact run_writeNumber r ctx m₂ f'
        | failed e m₂ => rfl
        | exhausted => rfl

theorem run_builtin (a : Arithmetic) (hf : f.Unread 1 ts) (ctx : Context) (m : Machine) :
    ∃ f', Program.run ctx a.builtin (m.push f) =
      ((a.tell ctx.eval ts m).andThen fun v m₁ => .done .finished (m₁.write v)).mapMachine
        (·.push f') := by
  cases a with
  | add => exact run_reduceAll add rfl hf ctx m
  | mult => exact run_reduceAll mult rfl hf ctx m
  | sub => exact run_reduceFirst sub rfl hf ctx m
  | div => exact run_reduceFirst div rfl hf ctx m
  | mod => exact run_reduceFirst mod rfl hf ctx m

theorem name_isPlain (a : Arithmetic) : a.name.IsPlain := by
  cases a <;> exact Bytes.isPlain_of_free (by decide)

theorem name_allDigits (a : Arithmetic) : a.name.allDigits = false := by
  cases a <;> rfl

theorem carryOut_eq (ha : registry.lookup a.name = some a.builtin) (hargs : c.args = a.name :: ts)
    (k : Nat) (src : Source) (m : Machine) :
    Invocation.carryOut registry (k + 1) (eval registry (k + 1)) src c m =
      (a.tell (eval registry (k + 1)) ts m).andThen fun v m₁ => .done () (m₁.write v) := by
  obtain ⟨f', hf'⟩ := a.run_builtin (Frame.Unread.ofCall hargs src a.name)
    (registry.context (eval registry (k + 1))) m
  rw [Invocation.carryOut_builtin hargs a.name_isPlain a.name_allDigits ha, Invocation.builtin_succ,
    hf']
  change _ = (a.tell (registry.context (eval registry (k + 1))).eval ts m).andThen _
  cases a.tell (registry.context (eval registry (k + 1))).eval ts m <;> rfl

theorem total_out (a : Arithmetic) (ev : Source → Machine → Outcome Unit) (acc : Option Int64)
    (ts : List Bytes) (m : Machine) (o : Output) :
    a.total ev acc ts { m with out := o } =
      (a.total ev acc ts m).mapMachine ({ · with out := o }) := by
  induction ts generalizing acc m with
  | nil => rfl
  | cons t ts ih =>
    rw [total, total, Machine.valueOf_out]
    cases m.valueOf ev t with
    | exhausted => rfl
    | failed e m₁ => rfl
    | done v m₁ =>
      simp only [Outcome.mapMachine, Outcome.andThen]
      cases (Bytes.number? v).bind (a.next acc) with
      | none => rfl
      | some n => exact ih (some n) m₁

theorem tell_out (a : Arithmetic) (ev : Source → Machine → Outcome Unit) (ts : List Bytes)
    (m : Machine) (o : Output) :
    a.tell ev ts { m with out := o } = (a.tell ev ts m).mapMachine ({ · with out := o }) := by
  rw [tell, tell, total_out]
  cases a.total ev a.start ts m <;> rfl

theorem valueOf_render (ha : registry.lookup a.name = some a.builtin)
    (hargs : c.args = a.name :: ts) (hc : c.WellFenced) (k : Nat) (m : Machine) :
    m.valueOf (eval registry (k + 2)) c.render = a.tell (eval registry (k + 1)) ts m := by
  have hself := tell_out a (eval registry (k + 1)) ts m m.out
  have hcarry := carryOut_eq (c := c.atStart) ha hargs k ⟨[], c.render⟩ { m with out := {} }
  rw [Machine.valueOf, hc.eval_eq, hcarry, tell_out]
  cases h : a.tell (eval registry (k + 1)) ts m with
  | exhausted => rfl
  | failed e m₁ =>
    rw [h] at hself
    exact hself.symm
  | done v m₁ =>
    rw [h] at hself
    have hout : (({} : Output).write v).toBytes = v := Output.toBytes_write _ _
    simp only [Outcome.mapMachine, Outcome.andThen, Machine.write, hout]
    exact hself.symm

theorem total_mono (hk : k ≤ k') (h : a.total (eval registry k) acc ts m ≠ .exhausted) :
    a.total (eval registry k') acc ts m = a.total (eval registry k) acc ts m := by
  induction ts generalizing acc m with
  | nil => rfl
  | cons t ts ih =>
    rw [total] at h
    have hne : m.valueOf (eval registry k) t ≠ .exhausted := by
      intro hx
      rw [hx] at h
      exact h rfl
    rw [total, total, Machine.valueOf_mono hk hne]
    cases hv : m.valueOf (eval registry k) t with
    | exhausted => exact absurd hv hne
    | failed e m₁ => rfl
    | done v m₁ =>
      rw [hv] at h
      simp only [Outcome.andThen] at h ⊢
      cases hn : (Bytes.number? v).bind (a.next acc) with
      | none => rfl
      | some n =>
        rw [hn] at h
        exact ih h

/-- The total that some texts come to, with enough fuel. -/
def Totals (registry : Registry) (a : Arithmetic) (ts : List Bytes) (m : Machine)
    (r : Option Int64) (m' : Machine) : Prop :=
  Outcome.Reached (fun k => a.total (eval registry k) a.start ts m) (.done r m')

theorem evaluates_iff (ha : registry.lookup a.name = some a.builtin)
    (hargs : c.args = a.name :: ts) (hc : c.WellFenced) :
    m.Evaluates registry c.render (.done v m₁) ↔
      ∃ r, a.Totals registry ts m r m₁ ∧ v = Bytes.numeral r := by
  constructor
  · intro h
    obtain ⟨k, hk⟩ := h.eventually
    have htell := (valueOf_render ha hargs hc k m).symm.trans (hk (k + 2) (by omega))
    rw [tell] at htell
    cases ht : a.total (eval registry (k + 1)) a.start ts m with
    | exhausted =>
      rw [ht] at htell
      cases htell
    | failed e m₂ =>
      rw [ht] at htell
      cases htell
    | done r m₂ =>
      rw [ht] at htell
      cases htell
      exact ⟨r, ⟨by simp, k + 1, ht⟩, rfl⟩
  · rintro ⟨r, ⟨hr, k, hk⟩, rfl⟩
    simp only at hk
    have hnext : a.total (eval registry (k + 1)) a.start ts m = .done r m₁ :=
      (total_mono (Nat.le_succ k) (by rwa [hk])).trans hk
    refine ⟨by simp, k + 2, ?_⟩
    simp only [valueOf_render ha hargs hc, tell, hnext]
    rfl

end Arithmetic

/-- How the value of an argument is read by the builtins that take numbers: those on texts and
characters ask for a number, arithmetic takes an operand or its first operand, and one asks whether
there is a number. Each of them goes on with the number, or without one, in another machine. -/
structure Machine.ReadsNumber (ctx : Context) (m : Machine) (i : Nat) (v : Bytes)
    (x : Option Int64) (m' : Machine) : Prop where
  asked : Program.run ctx (Program.numberArg i) m =
    x.elim (.failed (m'.fault .notANumber v) m') fun n => .done n m'
  operand (op : Int64 → Int64 → Option Int64) (acc : Int64) (rest : List Nat) :
    Program.run ctx (Builtin.reduce op acc (i :: rest)) m =
      Program.run ctx ((x.bind (op acc)).elim (return none) (Builtin.reduce op · rest)) m'
  first (op : Int64 → Int64 → Option Int64) : i = 1 →
    Program.run ctx (Builtin.reduceFirst op) m =
      Program.run ctx (x.elim (return .finished) fun n => do
        Builtin.writeNumber (← Builtin.reduce op n (List.range' 2 (m.scope.frame.size - 2)))
        return .finished) m'
  tested : i = 1 → Program.run ctx Builtin.isNumber m =
    Program.run ctx (do
      Program.writeArg (if x.isSome then 2 else 3)
      return .finished) m'

theorem Machine.readsNumber {ctx : Context} {m m' : Machine} {v : Bytes}
    (hi : i < m.scope.frame.size) (h : (Program.arg i).run ctx m = .done v m') :
    m.ReadsNumber ctx i v (Bytes.number? v) m' where
  asked := by
    rw [Program.numberArg, Program.run_seq, h, Outcome.andThen]
    cases Bytes.number? v <;> rfl
  operand op acc rest := by
    rw [Builtin.reduce, Program.run_seq, h, Outcome.andThen]
    cases Bytes.number? v with
    | none => rfl
    | some k =>
      simp only [Option.bind_some]
      cases op acc k <;> rfl
  first op h₁ := by
    subst h₁
    have hargs : List.range' 1 (m.scope.frame.size - 1) =
        1 :: List.range' 2 (m.scope.frame.size - 2) := by
      have hsize : m.scope.frame.size - 1 = m.scope.frame.size - 2 + 1 := by omega
      rw [hsize, List.range'_succ]
    have hrun : (Program.argsFrom 1).run ctx m =
        .done (1 :: List.range' 2 (m.scope.frame.size - 2)) m := by
      rw [← hargs]
      rfl
    rw [Builtin.reduceFirst, Program.run_seq, hrun, Outcome.andThen]
    simp only
    rw [Program.run_seq, h, Outcome.andThen]
    cases Bytes.number? v <;> rfl
  tested h₁ := by
    subst h₁
    rw [Builtin.isNumber, Program.run_seq, h, Outcome.andThen]

theorem Bytes.number?_decimal_eq (n : Int64) :
    Bytes.number? (Bytes.decimal n.toInt) = if n = Int64.minValue then none else some n := by
  split
  · rename_i hn
    subst hn
    rfl
  · rename_i hn
    exact Bytes.number?_decimal hn

theorem Bytes.number?_numeral (r : Option Int64) :
    Bytes.number? (Bytes.numeral r) = if r = some Int64.minValue then none else r := by
  cases r with
  | none => rfl
  | some n => simpa [Bytes.numeral, Option.some_inj] using Bytes.number?_decimal_eq n

theorem Buffer.bytes_appendDecimal (n : Int64) :
    (Buffer.empty.appendDecimal n).bytes = Bytes.decimal n.toInt := by
  rw [Buffer.appendDecimal, Buffer.append]
  split
  · rename_i h
    exact (List.isEmpty_iff.1 h).symm
  · rfl

/-- Numbers are read back as they were written, but for the least word, whose numeral is not read as
a number. So what an invocation of arithmetic writes is nothing, or the numeral of the total of its
arguments; and used as an argument it is read as that number by every builtin that takes numbers,
except that the least word is refused. -/
theorem arithmetic_reads_back (registry : Registry) (a : Arithmetic)
    (ha : registry.lookup a.name = some a.builtin) (c : Call) (hargs : c.args = a.name :: ts)
    (hc : c.WellFenced) :
    (∀ n : Int64, Bytes.number? (Buffer.empty.appendDecimal n).bytes =
      if n = Int64.minValue then none else some n) ∧
    ∀ m v m₁, m.Evaluates registry c.render (.done v m₁) →
      ∃ r, a.Totals registry ts m r m₁ ∧ v = Bytes.numeral r ∧
        ∃ K, ∀ k, K ≤ k → ∀ (f : Frame) (i : Nat), f.slots[i]? = some { text := some c.render } →
          (m.push f).ReadsNumber (registry.context (eval registry k)) i v
            (if r = some Int64.minValue then none else r) (m₁.push (f.remember i v)) := by
  refine ⟨fun n => ?_, fun m v m₁ h => ?_⟩
  · rw [Buffer.bytes_appendDecimal, Bytes.number?_decimal_eq]
  · obtain ⟨r, htotal, rfl⟩ := (Arithmetic.evaluates_iff ha hargs hc).1 h
    obtain ⟨K, hK⟩ := h.eventually
    refine ⟨r, htotal, rfl, K, fun k hk f i hf => ?_⟩
    have harg : (Program.arg i).run (registry.context (eval registry k)) (m.push f) =
        .done (Bytes.numeral r) (m₁.push (f.remember i (Bytes.numeral r))) := by
      have hvalue : m.valueOf (registry.context (eval registry k)).eval c.render =
          .done (Bytes.numeral r) m₁ := hK k hk
      rw [Program.run_arg hf, hvalue]
    have hi : i < (m.push f).scope.frame.size := (List.getElem?_eq_some_iff.1 hf).1
    rw [← Bytes.number?_numeral]
    exact Machine.readsNumber hi harg

def Machine.bare : Machine where
  state := { dictionary := { table := Table.empty 0 } }
  scope := ⟨.ofValues [utf8 "top"], []⟩

def Call.difference : Call := ⟨0, 2, [utf8 "sub", utf8 "7", utf8 "9"]⟩

def Frame.differing : Frame := .ofTexts [utf8 "rep", utf8 "ab", Call.difference.render]

theorem arithmetic_reads_back_difference :
    Machine.bare.Evaluates .standard Call.difference.render (.done (utf8 "-2") .bare) ∧
    (∃ r, Arithmetic.sub.Totals .standard [utf8 "7", utf8 "9"] .bare r .bare ∧
      utf8 "-2" = Bytes.numeral r) ∧
    ∃ K, ∀ k, K ≤ k → Program.run (Registry.standard.context (eval .standard k))
      (Program.numberArg 2) (Machine.bare.push .differing) =
        .done (-2) (Machine.bare.push (Frame.differing.remember 2 (utf8 "-2"))) := by
  have hc : Call.difference.WellFenced :=
    ⟨by decide, by decide, _, _, rfl, by decide, by decide, by decide⟩
  have hvalue : Machine.bare.Evaluates .standard Call.difference.render
      (.done (utf8 "-2") .bare) := ⟨by simp, 4, rfl⟩
  obtain ⟨r, htotal, hr, K, hK⟩ :=
    (arithmetic_reads_back .standard .sub rfl Call.difference rfl hc).2 _ _ _ hvalue
  refine ⟨hvalue, ⟨r, htotal, hr⟩, K, fun k hk => ?_⟩
  have hnumber : (if r = some Int64.minValue then none else r) = some (-2) := by
    rw [← Bytes.number?_numeral, ← hr]
    rfl
  have hasked := (hK k hk .differing 2 rfl).asked
  rw [hnumber] at hasked
  exact hasked

theorem arithmetic_minValue_refused :
    Bytes.number? (Buffer.empty.appendDecimal Int64.minValue).bytes = none ∧
    ∃ m, eval .standard 6 ⟨[], utf8 "<~sub~-9223372036854775807~1~>" ++
        utf8 "<~add~<~sub~-9223372036854775807~1~>~0~>"⟩ .bare = .done () m ∧
      m.out.toBytes = utf8 "-9223372036854775808" :=
  ⟨rfl, _, rfl, rfl⟩

end TildeText
