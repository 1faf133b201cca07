import TildeText.Proofs.Numerals
import TildeText.Proofs.Tracking

namespace TildeText

def Machine.drawn (m : Machine) : Machine :=
  { m with
    state.serial := m.state.serial + 1
    out := m.out.write (Bytes.decimal (m.state.serial + 1).toInt) }

namespace Execution

def isGensym (e : Execution) : Bool := e.name == utf8 "gensym"

def written (e : Execution) : Bytes :=
  match e.outcome with
  | .done _ m => m.out.toBytes.drop e.before.out.toBytes.length
  | _ => []

inductive Draws : Int64 → List Execution → Int64 → Prop
  | nil : Draws s [] s
  | draw : e.isGensym = true → e.before.state.serial = s →
      e.outcome = .done .finished e.before.drawn → Draws (s + 1) l s' → Draws s (e :: l) s'
  | other : e.isGensym = false → Draws s l s' → Draws s (e :: l) s'

namespace Draws

variable {s s' s'' : Int64} {l l' : List Execution}

theorem append (h : Draws s l s') (h' : Draws s' l' s'') : Draws s (l ++ l') s'' := by
  induction h with
  | nil => exact h'
  | draw hname hbefore houtcome _ ih => exact .draw hname hbefore houtcome (ih h')
  | other hname _ ih => exact .other hname (ih h')

theorem next_add (s : Int64) (k : Nat) : s + 1 + Int64.ofNat k = s + Int64.ofNat (k + 1) := by
  rw [Int64.add_assoc, Int64.ofNat_add, Int64.add_comm (Int64.ofNat k)]
  rfl

theorem last (h : Draws s l s') : s' = s + Int64.ofNat (l.filter isGensym).length := by
  induction h with
  | nil => exact (Int64.add_zero _).symm
  | draw hname _ _ _ ih => rw [List.filter_cons_of_pos hname, List.length_cons, ih, next_add]
  | other hname _ ih => rw [List.filter_cons_of_neg (by rw [hname]; exact Bool.false_ne_true), ih]

theorem getElem? (h : Draws s l s') {k : Nat} {e : Execution}
    (he : (l.filter isGensym)[k]? = some e) :
    e.before.state.serial = s + Int64.ofNat k ∧ e.outcome = .done .finished e.before.drawn := by
  induction h generalizing k with
  | nil => cases he
  | draw hname hbefore houtcome _ ih =>
    rw [List.filter_cons_of_pos hname] at he
    cases k with
    | zero =>
      cases he
      exact ⟨hbefore.trans (Int64.add_zero _).symm, houtcome⟩
    | succ k =>
      rw [← next_add]
      exact ih he
  | other hname _ ih =>
    rw [List.filter_cons_of_neg (by rw [hname]; exact Bool.false_ne_true)] at he
    exact ih he

end Draws

end Execution

def Counted (m : Machine) (l : List Execution) (x : Outcome α) : Prop :=
  ∃ s, Execution.Draws m.state.serial l s ∧ x.Holds (·.state.serial = s)

def Request.takesNumber : Request → Bool
  | .serial => true
  | _ => false

theorem Request.takesNumber_of_isCommon {r : Request} (h : r.isCommon = true) :
    r.takesNumber = false := by
  cases r with
  | serial => cases h
  | _ => rfl

def Registry.Counting (registry : Registry) : Prop :=
  ∀ name b, registry.lookup name = some b →
    (name = utf8 "gensym" ∧ b = Builtin.gensym) ∨
    (name ≠ utf8 "gensym" ∧ Program.AsksOnly (·.takesNumber = false) b)

theorem Request.holds_serial (ctx : Context) (m : Machine) {r : Request}
    (hr : r.takesNumber = false) (he : r.evaluates = false) :
    (r.perform ctx m).Holds (·.state.serial = m.state.serial) := by
  cases r with
  | argument n => cases he
  | evalHere src => cases he
  | evalUnder label src => cases he
  | serial => cases hr
  | print s => exact Machine.report_holds (fun _ => rfl) _
  | dump => exact Machine.report_holds (fun _ => rfl) _
  | _ => rfl

theorem Counted.tracking :
    Tracking Counted (·.takesNumber = false) (fun _ => True) (utf8 "gensym") where
  done _ _ _ h := ⟨_, .nil, h⟩
  failed _ _ := ⟨_, .nil, rfl⟩
  fault _ := trivial
  exhausted _ := ⟨_, .nil, trivial⟩
  request hr he ctx m := ⟨_, .nil, Request.holds_serial ctx m hr he⟩
  andThen {α β m l x f g} h hfg := by
    obtain ⟨s, hl, hx⟩ := h
    cases x with
    | done a m₁ =>
      obtain ⟨s', hf, hg⟩ := hfg a m₁
      have hm₁ : m₁.state.serial = s := hx
      rw [hm₁] at hf
      exact ⟨s', hl.append hf, hg⟩
    | failed e m₁ => exact ⟨s, (List.append_nil l).symm ▸ hl, hx⟩
    | exhausted => exact ⟨s, (List.append_nil l).symm ▸ hl, trivial⟩
  congr {α β m m' l x y} h hm hxy := by
    obtain ⟨s, hl, hx⟩ := h
    rw [hm] at hl
    refine ⟨s, hl, ?_⟩
    cases x <;> cases y <;> first | exact hxy.elim | skip
    · exact hxy.symm.trans hx
    · exact hxy.2.symm.trans hx
    · trivial
  other hname _ _ _ h := by
    obtain ⟨s, hl, hx⟩ := h
    exact ⟨s, .other (beq_false_of_ne hname) hl, hx⟩

theorem Builtin.gensym_counted {inner : Source → Machine → List Execution} (ctx : Context) (n : Nat)
    (m : Machine) :
    Counted m (Builtin.log inner ctx (utf8 "gensym") gensym n m) (gensym.run ctx n m) := by
  cases n with
  | zero => exact ⟨_, .nil, trivial⟩
  | succ n => exact ⟨_, .draw (beq_self_eq_true _) rfl rfl .nil, rfl⟩

theorem Registry.Counting.run_counted {ev : Source → Machine → Outcome Unit}
    {inner : Source → Machine → List Execution}
    (hev : ∀ src m, Counted m (inner src m) (ev src m)) {registry : Registry}
    (hr : registry.Counting) {name : Bytes} {b : Builtin} (hb : registry.lookup name = some b)
    (n : Nat) (m : Machine) :
    Counted m (Builtin.log inner (registry.context ev) name b n m)
      (b.run (registry.context ev) n m) := by
  rcases hr name b hb with ⟨rfl, rfl⟩ | ⟨hname, hasks⟩
  · exact Builtin.gensym_counted _ n m
  · exact Counted.tracking.builtin hev _ hname hasks n m

theorem eval_counted {registry : Registry} (hr : registry.Counting) (n : Nat) (src : Source)
    (m : Machine) : Counted m (evalLog registry n src m) (eval registry n src m) :=
  Counted.tracking.eval (fun _ hev _ _ hb => hr.run_counted hev hb) n src m

open Builtin in
theorem Registry.standard_counting : standard.Counting := by
  intro name b hb
  have hQ (r : Request) : r.isCommon = true → r.takesNumber = false :=
    Request.takesNumber_of_isCommon
  by_cases hname : name = utf8 "gensym"
  · subst hname
    exact .inl ⟨rfl, Option.some.inj hb.symm⟩
  · refine .inr ⟨hname, ?_⟩
    rcases standard_cases (P := fun _ => True) (fun _ _ => trivial) _ (mem_of_lookup hb) with
      hs | hordinary
    · simp only [special, List.mem_cons, List.not_mem_nil, or_false, Prod.mk.injEq] at hs
      rcases hs with ⟨-, rfl⟩ | ⟨-, rfl⟩ | ⟨-, rfl⟩ | ⟨-, rfl⟩ | ⟨hn, -⟩ | ⟨-, rfl⟩ | ⟨-, rfl⟩ |
        ⟨-, rfl⟩ | ⟨-, rfl⟩
      · exact append_within hQ (fun _ => rfl) (fun _ => rfl) (fun _ _ => rfl) trivial
      · exact define_within hQ (fun _ _ => rfl) trivial
      · exact evalText_within rfl fun _ => rfl
      · exact takeAt_within hQ (fun _ => rfl) (fun _ => rfl) (fun _ _ => rfl) trivial trivial _ _
          (before_within fun _ => rfl) _
      · exact absurd hn hname
      · exact includeFile_within trivial rfl (fun _ => rfl) fun _ => rfl
      · exact takeAt_within hQ (fun _ => rfl) (fun _ => rfl) (fun _ _ => rfl) trivial trivial _ _
          (behind_within (fun _ => rfl) fun _ _ _ => trivial) _
      · exact loop_within hQ
      · exact set_within hQ (fun _ _ => rfl) trivial
    · exact hordinary.within.imp hQ (fun _ => id) fun _ => False.elim

/-- The counter is moved by as many as there are runs in a log that take a number. -/
def Outcome.MovedBy (m : Machine) (l : List Execution) (x : Outcome α) : Prop :=
  x.Holds fun m' =>
    m'.state.serial = m.state.serial + Int64.ofNat (l.filter Execution.isGensym).length

theorem Counted.movedBy {m : Machine} {l : List Execution} {x : Outcome α} (h : Counted m l x) :
    x.MovedBy m l := by
  obtain ⟨s, hl, hx⟩ := h
  rw [hl.last] at hx
  exact hx

namespace Processor

variable {p p' : Processor}

theorem Task.counted (hr : p.registry.Counting) (t : Task) :
    ∃ s, Execution.Draws p.state.serial (t.log p) s ∧ (t.perform p).Holds (·.state.serial = s) := by
  cases t with
  | eval f src out => exact eval_counted hr fuel src ⟨p.state, ⟨f, []⟩, out⟩
  | expand s args =>
    exact eval_counted hr fuel ⟨utf8 "[expand]", s⟩
      ⟨p.state, ⟨Frame.ofValues (utf8 "tilton" :: args), []⟩, {}⟩

theorem log_draws (hr : p.registry.Counting) (tasks : List Task) :
    ∃ s, Execution.Draws p.state.serial (p.log tasks) s := by
  induction tasks generalizing p with
  | nil => exact ⟨_, .nil⟩
  | cons t rest ih =>
    obtain ⟨s, hdraws, hend⟩ := t.counted hr
    have later (m : Machine) (hm : m.state.serial = s) :
        ∃ s', Execution.Draws p.state.serial (t.log p ++ (p.setState m.state).log rest) s' := by
      obtain ⟨s', hrest⟩ := ih (p := p.setState m.state) hr
      exact ⟨s', hdraws.append (hm ▸ hrest)⟩
    rw [log]
    cases houtcome : t.perform p with
    | done a m =>
      rw [houtcome] at hend
      exact later m hend
    | failed e m =>
      rw [houtcome] at hend
      exact later m hend
    | exhausted => exact ⟨s, (List.append_nil _).symm ▸ hdraws⟩

theorem serial_add {part : Part} (h : p.add part = .ok p') :
    p'.state.serial = p.state.serial := by
  cases part with
  | diagnostics d =>
    cases h
    rfl
  | files f =>
    cases f <;> cases h
    rfl
  | dictionary d =>
    cases d <;> cases h
    rfl
  | builtin name b =>
    rw [add.eq_def] at h
    simp only at h
    split at h
    · cases h
    · cases b <;> cases h
      rfl

theorem serial_foldlM {parts : List Part} (h : parts.foldlM add p = .ok p') :
    p'.state.serial = p.state.serial := by
  induction parts generalizing p with
  | nil =>
    cases h
    rfl
  | cons part parts ih =>
    rw [List.foldlM_cons] at h
    cases hadd : p.add part with
    | error e =>
      rw [hadd] at h
      cases h
    | ok p₁ =>
      rw [hadd] at h
      exact (ih h).trans (serial_add hadd)

theorem serial_ofParts {system : FileSystem} {parts : List Part}
    (h : ofParts system parts = .ok p) :
    p.state.serial = 1000 := by
  rw [ofParts] at h
  cases hfold : parts.foldlM add { state := { storage := { system } } } with
  | error e =>
    rw [hfold] at h
    cases h
  | ok p₁ =>
    rw [hfold] at h
    cases h
    exact serial_foldlM hfold

end Processor

theorem Bytes.decimal_injective {i j : Nat} (h : decimal i = decimal j) : i = j := by
  have hdecimal (n : Nat) : decimal n = decimalNat n := if_neg (Int.not_lt.2 (Int.natCast_nonneg n))
  rw [hdecimal, hdecimal] at h
  rw [← (decimalNat_spec i).2, ← (decimalNat_spec j).2, h]

theorem Machine.toBytes_drawn (m : Machine) :
    m.drawn.out.toBytes = m.out.toBytes ++ Bytes.decimal (m.state.serial + 1).toInt :=
  Output.toBytes_write _ _

theorem Execution.written_drawn {e : Execution} {k : Nat}
    (hbefore : e.before.state.serial = 1000 + Int64.ofNat k)
    (houtcome : e.outcome = .done .finished e.before.drawn)
    (hk : 1000 + (k + 1) ≤ 9223372036854775807) :
    e.written = Bytes.decimal (1000 + (k + 1) : Nat) := by
  have hserial : e.before.state.serial + 1 = Int64.ofNat (1000 + (k + 1)) := by
    rw [hbefore, Int64.add_assoc, Int64.ofNat_add, Int64.ofNat_add]
    rfl
  have hint : (e.before.state.serial + 1).toInt = (1000 + (k + 1) : Nat) := by
    rw [hserial]
    exact Int64.toInt_ofNat_of_lt (by omega)
  rw [written, houtcome]
  simp only [Machine.toBytes_drawn, hint, List.drop_left]

namespace Processor

/-- Numbers are never given twice. Whatever a new processor with the standard builtins is called
upon to do, however each time ends, the runs of `gensym` write 1001, 1002 and so on in order, and do
nothing else; so no two of them write the same. The counter is moved by them alone: by evaluation,
by the evaluation of an argument and by every builtin it is moved by as many as there are runs of
`gensym` on the way. -/
theorem gensym_distinct {system : FileSystem} {parts : List Part} {p : Processor}
    (hp : ofParts system parts = .ok p) (hr : p.registry = .standard) (tasks : List Task) :
    (∀ k e, ((p.log tasks).filter Execution.isGensym)[k]? = some e →
      e.outcome = .done .finished e.before.drawn ∧
      (1000 + (k + 1) ≤ 9223372036854775807 →
        e.written = Bytes.decimal (1000 + (k + 1) : Nat))) ∧
    (∀ i j e e', ((p.log tasks).filter Execution.isGensym)[i]? = some e →
      ((p.log tasks).filter Execution.isGensym)[j]? = some e' → i ≠ j →
      1000 + (i + 1) ≤ 9223372036854775807 → 1000 + (j + 1) ≤ 9223372036854775807 →
      e.written ≠ e'.written) ∧
    (∀ n src m, (TildeText.eval .standard n src m).MovedBy m (evalLog .standard n src m)) ∧
    (∀ n i (m : Machine), (m.argument (TildeText.eval .standard n) i).MovedBy m
      (m.argumentLog (evalLog .standard n) i)) ∧
    ∀ name b, Registry.standard.lookup name = some b → ∀ n fuel m,
      (b.run (Registry.standard.context (TildeText.eval .standard n)) fuel m).MovedBy m
        (Builtin.log (evalLog .standard n) (Registry.standard.context (TildeText.eval .standard n))
          name b fuel m) := by
  have hcounting := Registry.standard_counting
  obtain ⟨s, hdraws⟩ := log_draws (hr ▸ hcounting) tasks
  rw [serial_ofParts hp] at hdraws
  have numbered {k : Nat} {e : Execution}
      (he : ((p.log tasks).filter Execution.isGensym)[k]? = some e)
      (hk : 1000 + (k + 1) ≤ 9223372036854775807) :
      e.written = Bytes.decimal (1000 + (k + 1) : Nat) :=
    Execution.written_drawn (hdraws.getElem? he).1 (hdraws.getElem? he).2 hk
  refine ⟨fun k e he => ⟨(hdraws.getElem? he).2, numbered he⟩,
    fun i j e e' hi hj hij hfi hfj heq => ?_,
    fun n src m => (eval_counted hcounting n src m).movedBy,
    fun n i m => (Counted.tracking.argument (eval_counted hcounting n) m i).movedBy,
    fun name b hb n fuel m => (hcounting.run_counted (eval_counted hcounting n) hb fuel m).movedBy⟩
  rw [numbered hi hfi, numbered hj hfj] at heq
  have hsame := Bytes.decimal_injective heq
  omega

def numbering : List Task :=
  [.expand (utf8 "<~gensym~><~none~><~gensym~>") [],
    .eval (.ofValues [utf8 "top"])
      ⟨utf8 "s", utf8 "<~set~v~<~gensym~>~><~loop~<~gensym~><~stop~>~>"⟩ {}]

theorem gensym_distinct_afterFailure :
    ∃ p e, ofParts .empty [.dictionary (some { table := .empty 0 })] = .ok p ∧
      p.registry = .standard ∧
      ((p.log numbering).filter Execution.isGensym)[2]? = some e ∧ e.written = utf8 "1003" := by
  obtain ⟨p, hp, hr, hlog⟩ : ∃ p, ofParts .empty [.dictionary (some { table := .empty 0 })] = .ok p ∧
      p.registry = .standard ∧
      (((p.log numbering).filter Execution.isGensym)[2]?).isSome = true :=
    ⟨_, rfl, rfl, by decide +kernel⟩
  obtain ⟨e, he⟩ := Option.isSome_iff_exists.1 hlog
  have hwritten := ((gensym_distinct hp hr numbering).1 2 e he).2 (by decide)
  exact ⟨p, e, hp, hr, he, hwritten.trans (by decide)⟩

end Processor

end TildeText
