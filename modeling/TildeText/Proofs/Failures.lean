import TildeText.Processor
import TildeText.Proofs.Anonymous
import TildeText.Proofs.Composition
import TildeText.Proofs.Faults
import TildeText.Proofs.Hosts

namespace TildeText

structure Call.Prints (c : Call) : Prop where
  fenced : c.WellFenced
  name : ∃ texts, c.args = utf8 "print" :: texts

def Call.record (c : Call) : Bytes := Bytes.join (utf8 "~") c.args ++ utf8 "\n"

theorem Call.listing_frame (c : Call) (src : Source) (v : Bytes) :
    ((c.frame src).remember 0 v).listing = c.record := by
  rw [Frame.listing, Frame.remember, Call.frame, Frame.ofTexts, record]
  cases c.args with
  | nil => rfl
  | cons a args => simp [Function.comp_def]

theorem Machine.pop_report_push (m : Machine) (f : Frame) (records : List Bytes) :
    ((m.push f).report records).pop = m.report records := by
  have hwriter : (m.push f).state.diagnostics = m.state.diagnostics := rfl
  rw [Machine.report, Machine.report, hwriter]
  split <;> rfl

theorem Machine.report_refused {m : Machine}
    (h : m.state.diagnostics.refusal m.state.diagnostics.asked record = some p) :
    ∃ m', m.report [record] = .failed (.problem p) m' := by
  rw [Machine.report, Writer.write, Writer.offer, h]
  exact ⟨_, rfl⟩

theorem Machine.report_taken {m : Machine}
    (h : m.state.diagnostics.refusal m.state.diagnostics.asked record = none) :
    ∃ m', m.report [record] = .done () m' ∧
      m'.state.diagnostics.refusal = m.state.diagnostics.refusal ∧
      m'.state.diagnostics.asked = record :: m.state.diagnostics.asked := by
  rw [Machine.report, Writer.write, Writer.offer, h]
  exact ⟨_, rfl, rfl, rfl⟩

theorem Builtin.run_printArgs (ctx : Context) (m : Machine) :
    Program.run ctx printArgs m =
      (m.report [m.scope.frame.listing]).andThen fun _ m => .done .finished m := by
  have hask : printArgs = .ask .listing fun s => .ask (.print s) fun _ => .done .finished := rfl
  rw [hask, Program.run_ask, Request.perform, Outcome.andThen]
  exact Program.run_ask _ _ _ _

theorem Invocation.builtin_printArgs (ctx : Context) (k : Nat) (m : Machine) :
    builtin ctx (k + 1) Builtin.printArgs m = (m.report [m.scope.frame.listing]).pop := by
  rw [builtin, Builtin.run, Builtin.run_printArgs]
  cases m.report [m.scope.frame.listing] <;> rfl

theorem Call.Prints.eval_eq {c : Call} (h : c.Prints) (k : Nat) (label : Bytes) (m : Machine) :
    eval .standard (k + 2) ⟨label, c.render⟩ m = m.report [c.record] := by
  obtain ⟨texts, hargs⟩ := h.name
  let f := (c.atStart.frame ⟨label, c.render⟩).remember 0 (utf8 "print")
  have hrecord : (m.push f).scope.frame.listing = c.record := c.atStart.listing_frame _ _
  calc eval .standard (k + 2) ⟨label, c.render⟩ m
    _ = Invocation.builtin (Registry.standard.context (eval .standard (k + 1))) (k + 1)
          Builtin.printArgs (m.push f) := by
      rw [h.fenced.eval_eq, Invocation.carryOut_builtin (c := c.atStart) hargs
        (Bytes.isPlain_of_free (by decide)) rfl rfl]
    _ = m.report [c.record] := by
      rw [Invocation.builtin_printArgs, hrecord, Machine.pop_report_push]

theorem eval_prints_refused (calls : List Call) (hcalls : ∀ c ∈ calls, c.Prints) (m : Machine)
    (h : (Writer.offer m.state.diagnostics.refusal m.state.diagnostics.asked
      (calls.map Call.record)).2 = .error p) (k : Nat) (label : Bytes) :
    ∃ m', eval .standard (k + 2) ⟨label, calls.flatMap Call.render⟩ m =
      .failed (.problem p) m' := by
  -- a record that is taken leaves the writer as `offer` has it for the records after it
  induction calls generalizing m label with
  | nil => cases h
  | cons c calls ih =>
    have hc := hcalls c List.mem_cons_self
    have hcomplete := hc.fenced.isComplete_render
    rw [List.map_cons, Writer.offer] at h
    rw [List.flatMap_cons]
    cases hrefusal : m.state.diagnostics.refusal m.state.diagnostics.asked c.record with
    | some q =>
      obtain ⟨m', hm'⟩ := Machine.report_refused hrefusal
      rw [hrefusal] at h
      cases h
      rw [← hc.eval_eq k label m] at hm'
      rw [eval_append_of_not_done .standard (k + 2) label m (c.not_fuse_render _) hcomplete
        (by simp [hm'])]
      exact ⟨m', hm'⟩
    | none =>
      obtain ⟨m₁, hm₁, hsame, hasked⟩ := Machine.report_taken hrefusal
      rw [hrefusal] at h
      simp only [← hsame, ← hasked] at h
      rw [← hc.eval_eq k label m] at hm₁
      obtain ⟨m', hm'⟩ := ih (fun c hc => hcalls c (List.mem_cons_of_mem _ hc)) m₁ h label
      refine ⟨m', Outcome.eq_problem_of_untraced ?_⟩
      rw [eval_append_of_done .standard (k + 2) label m (c.not_fuse_render _) hcomplete hm₁ label,
        hm']
      rfl

namespace Processor

/-- Where a processor has the standard builtins only, an evaluation that fails does so with a fault
of one of the kinds, with a refusal by the writer for diagnostics, or with a crash. A refusal does
occur where the writer refuses one of the records that some invocations print: an evaluation of
these invocations fails with the problem that the writer has, and with nothing else. -/
theorem failure_expected (p : Processor) (hp : p.registry = .standard) :
    (∀ f src out e m, p.eval f src out = .failed e m →
      e.Expected p.state.diagnostics.refusal) ∧
    (∀ s args e m, p.expand s args = .failed e m → e.Expected p.state.diagnostics.refusal) ∧
    ∀ (calls : List Call) problem, (∀ c ∈ calls, c.Prints) →
      (Writer.offer p.state.diagnostics.refusal p.state.diagnostics.asked
        (calls.map Call.record)).2 = .error problem →
      ∀ f out, ∃ m, p.eval f { bytes := calls.flatMap Call.render } out =
        .failed (.problem problem) m := by
  have heval : ∀ f src out e m, p.eval f src out = .failed e m →
      e.Expected p.state.diagnostics.refusal := by
    intro f src out e m h
    have hown := Registry.standard_within (P := fun _ => True)
      (E := Failure.Expected p.state.diagnostics.refusal) (fun _ _ => trivial)
      fun _ _ _ => trivial
    have hrun := (Machine.Hosted.invariant (fun _ => id) hown).endsIn fuel src (w := ())
      (m := { state := p.state, scope := ⟨f, []⟩, out }) ⟨rfl, rfl⟩
    rw [← hp, ← Processor.eval, h] at hrun
    exact hrun.1
  refine ⟨heval, fun s args => heval _ _ _, fun calls problem hcalls hrefused f out => ?_⟩
  rw [Processor.eval, hp]
  exact eval_prints_refused calls hcalls _ hrefused (fuel - 2) _

theorem failure_expected_undefined :
    ∃ e m, ({} : Processor).registry = .standard ∧
      ({} : Processor).expand (utf8 "<~a~>") = .failed e m ∧
      e.Expected ({} : Processor).state.diagnostics.refusal := by
  have hrun : ∃ e m, ({} : Processor).expand (utf8 "<~a~>") = .failed e m := ⟨_, _, rfl⟩
  obtain ⟨e, m, h⟩ := hrun
  exact ⟨e, m, rfl, h, (failure_expected {} rfl).2.1 _ _ e m h⟩

theorem failure_of_fullWriter :
    ∃ m, Processor.expand
      { state := { diagnostics := { refusal := fun _ _ => some (.host (utf8 "full")) } } }
      (utf8 "<~print~a~>") = .failed (.problem (.host (utf8 "full"))) m :=
  ⟨_, rfl⟩

end Processor

end TildeText
