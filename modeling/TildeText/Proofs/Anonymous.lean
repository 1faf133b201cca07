import Mathlib.Tactic.IntervalCases
import TildeText.Proofs.Indirection
import TildeText.Proofs.Isolation

namespace TildeText

def Given.ofText : Option Bytes → Given
  | some t => .text t
  | none => .value []

namespace Frame

theorem given_ofTexts (texts : List Bytes) (origin : Option Origin) (n : Nat) :
    (ofTexts texts origin).given n = .ofText texts[n]? := by
  rw [given, ofTexts, List.getElem?_map]
  cases texts[n]? <;> rfl

theorem given_remember_ne (f : Frame) (v : Bytes) (h : i ≠ n) :
    (f.remember n v).given i = f.given i := by
  rw [given, remember, given]
  simp [Ne.symm h]

theorem under_forwards {f : Frame} {args : Nat → Given} (label : Bytes)
    (hf : ∀ n, 0 < n → f.given (n + 1) = args n) (hargs : ∀ n, 7 < n → args n = .value []) :
    (under label).Forwards f args := by
  intro n hn
  rcases Nat.lt_or_ge 7 n with hlt | hle
  · refine .inl ⟨?_, [], hargs n hlt⟩
    rw [hargs n hlt, under, given_ofTexts, List.getElem?_eq_none hlt]
    rfl
  · have hrefers : ∃ t, t.Refers (n + 1) ∧ (under label).given n = .text t := by
      interval_cases n
      all_goals exact ⟨_, Bytes.refers_of_layout rfl rfl (by decide), rfl⟩
    obtain ⟨t, ht, hg⟩ := hrefers
    exact .inr ⟨t, ht, hg, hf n hn⟩

end Frame

namespace Invocation

variable {registry : Registry} {c : Call} {name : Bytes} {rest : List Bytes} {b : Builtin}

theorem carryOut_builtin (hargs : c.args = name :: rest) (hplain : name.IsPlain)
    (hname : name.allDigits = false) (hb : registry.lookup name = some b) (k : Nat) (src : Source)
    (m : Machine) :
    carryOut registry (k + 1) (eval registry (k + 1)) src c m =
      builtin (registry.context (eval registry (k + 1))) (k + 1) b
        (m.push ((c.frame src).remember 0 name)) := by
  have hslot : (m.push (c.frame src)).scope.frame.slots[0]? = some { text := some name } := by
    simp [Machine.push, Scope.push, Call.frame, Frame.ofTexts, hargs]
  rw [carryOut, Call.index?_of_not_allDigits hargs hname]
  simp only [byName, Machine.argument_plain hplain hslot, Option.getD_some, hb]
  rfl

theorem builtin_evalUnder {ctx : Context} {m m₁ : Machine}
    (h : Program.run ctx b m =
      ((ctx.eval src (m₁.push (.under label))).pop).andThen fun _ m => .done .finished m)
    (k : Nat) : builtin ctx (k + 1) b m = (ctx.eval src (m₁.push (.under label))).pop.pop := by
  rw [builtin, Builtin.run, h]
  cases ctx.eval src (m₁.push (.under label)) <;> rfl

end Invocation

namespace Builtin

variable {ctx : Context} {m : Machine}

theorem run_includeFile (harg : m.argument ctx.eval 1 = .done (some name) m₁)
    (hread : m₁.state.storage.read name = (.ok content, st)) :
    Program.run ctx includeFile m =
      ((ctx.eval ⟨name, content⟩ ((m₁.setStorage st).push (.under (utf8 "include")))).pop).andThen
        fun _ m => .done .finished m := by
  have hname : (Program.arg 1).run ctx m = .done name m₁ := by
    rw [Program.arg, Program.run_seq, Program.argument, Program.run_ask, Request.perform, harg]
    rfl
  have hload : (Program.load name).run ctx m₁ = .done (.ok content) (m₁.setStorage st) := by
    rw [Program.load, Program.run_ask, Request.perform, hread]
    rfl
  rw [includeFile, Program.run_seq, hname, Outcome.andThen, Program.run_seq, hload]
  exact Program.run_ask _ _ _ _

end Builtin

def Way.leave : Way → Machine → Machine
  | .direct, m => m.pop
  | .through, m => m.pop.pop

def Way.leaving : Way → Outcome Unit → Outcome Unit
  | .direct, x => x.pop
  | .through, x => x.pop.pop

section

variable {base s s' : Scope} {args : Nat → Given} {way way' : Way} {m m' : Machine}

theorem Way.leave_eq (h : base.Gives args way m.scope) :
    way.leave m = { m with scope := base } := by
  obtain ⟨state, scope, out⟩ := m
  cases h <;> rfl

theorem Way.untraced_leaving (way : Way) (x : Outcome Unit) :
    (way.leaving x).untraced = way.leaving x.untraced := by
  cases way <;> cases x <;> rfl

theorem Machine.Parallel.leave_eq (h : m.Parallel way way' 0 m') : way.leave m = way'.leave m' := by
  obtain ⟨hstate, hout, hscope⟩ := h
  generalize hs : m.scope = s, hs' : m'.scope = s' at hscope
  cases hscope with
  | body hg hg' => rw [Way.leave_eq (hs ▸ hg), Way.leave_eq (hs' ▸ hg'), hstate, hout]

theorem Machine.Parallel.leaving_eq {x y : Outcome Unit}
    (h : x.Related (Parallel way way' 0) (fun e e' => e.untraced = e'.untraced) y) :
    way.leaving x.untraced = way'.leaving y.untraced := by
  cases h with
  | @done m m' _ h =>
    have hdone (way : Way) (m : Machine) : way.leaving (.done () m) = .done () (way.leave m) := by
      cases way <;> rfl
    change way.leaving (.done () m) = way'.leaving (.done () m')
    rw [hdone, hdone, h.leave_eq]
  | @failed e e' m m' he h =>
    have hfailed (way : Way) (e : Failure) (m : Machine) :
        way.leaving (.failed e m) = .failed e (way.leave m) := by
      cases way <;> rfl
    rw [Outcome.untraced, Outcome.untraced, hfailed, hfailed, he, h.leave_eq]
  | exhausted => cases way <;> cases way' <;> rfl

theorem eval_leaving (hg : base.Gives args way s) (hg' : base.Gives args way' s') {body : Bytes}
    (hbody : body.ZeroFree) {registry : Registry} {k : Nat} {label : Bytes} {state : State}
    {out : Output} (h : eval registry k ⟨label, body⟩ ⟨state, s, out⟩ ≠ .exhausted)
    (label' : Bytes) :
    (way'.leaving (eval registry (k + 1) ⟨label', body⟩ ⟨state, s', out⟩)).untraced =
      (way.leaving (eval registry k ⟨label, body⟩ ⟨state, s, out⟩)).untraced := by
  have hrun := Machine.Parallel.keeps way way' registry k 0 ⟨label, body⟩ ⟨state, s, out⟩
    ⟨state, s', out⟩ (fun _ => hbody) ⟨rfl, rfl, .body hg hg'⟩
  have hrelated := hrun.resolve_left fun hx => h hx.2
  rw [Way.untraced_leaving, Way.untraced_leaving,
    eval_named_untraced registry (k + 1) ⟨state, s', out⟩ label' label body]
  exact (Machine.Parallel.leaving_eq hrelated).symm

end

/-- What evaluating a text comes to, with enough fuel, up to where a fault is met. -/
def Source.ComesTo (registry : Registry) (src : Source) (m : Machine) (o : Outcome Unit) : Prop :=
  o ≠ .exhausted ∧ ∃ n, (eval registry n src m).untraced = o

theorem Outcome.untraced_ne_exhausted {x : Outcome α} (h : x.untraced ≠ .exhausted) :
    x ≠ .exhausted := by
  rintro rfl
  exact h rfl

variable {registry : Registry} {src src' : Source} {m m' start : Machine} {o : Outcome Unit}

theorem Source.ComesTo.exists_add (h : src.ComesTo registry m o) (k : Nat) :
    ∃ n, (eval registry (n + k) src m).untraced = o := by
  obtain ⟨ho, n, rfl⟩ := h
  refine ⟨n, ?_⟩
  rw [eval_mono (Nat.le_add_right n k) (Outcome.untraced_ne_exhausted ho)]

def Source.Expands (registry : Registry) (src : Source) (m start : Machine) (args : Nat → Given)
    (body : Bytes) : Prop :=
  ∃ way label s, start.scope.Gives args way s ∧ ∀ k, eval registry (k + 2) src m =
    way.leaving (eval registry (k + 1) ⟨label, body⟩ { start with scope := s })

theorem Source.Expands.comesTo (h : src.Expands registry m start args body)
    (h' : src'.Expands registry m' start args body) (hbody : body.ZeroFree)
    (ho : src.ComesTo registry m o) : src'.ComesTo registry m' o := by
  obtain ⟨way, label, s, hg, hs⟩ := h
  obtain ⟨way', label', s', hg', hs'⟩ := h'
  obtain ⟨k, hk⟩ := ho.exists_add 2
  have hne : eval registry (k + 1) ⟨label, body⟩ { start with scope := s } ≠ .exhausted := by
    intro hx
    rw [hs, hx] at hk
    refine ho.1 (hk.symm.trans ?_)
    cases way <;> rfl
  refine ⟨ho.1, k + 3, ?_⟩
  rw [hs' (k + 1), eval_leaving hg hg' hbody hne label', ← hs, hk]

def Given.ofTexts (texts : List Bytes) (n : Nat) : Given := .ofText texts[n - 1]?

namespace Call.WellFenced

variable {c : Call} {m : Machine} {name body file : Bytes} {texts : List Bytes}

theorem expands_macro (h : c.WellFenced) (hargs : c.args = name :: texts) (hplain : name.IsPlain)
    (hname : name.allDigits = false) (hbuiltin : registry.lookup name = none)
    (hentry : m.table.find? name = some e) (label : Bytes) :
    Source.Expands registry ⟨label, c.render⟩ m m (.ofTexts texts) e.value := by
  let f := (c.atStart.frame ⟨label, c.render⟩).remember 0 name
  refine ⟨.direct, e.name, m.scope.push f, .direct fun n hn => ?_, fun k => ?_⟩
  · obtain ⟨n, rfl⟩ := Nat.exists_eq_succ_of_ne_zero (Nat.pos_iff_ne_zero.1 hn)
    rw [Frame.given_remember_ne _ _ (Nat.succ_ne_zero n), Call.frame, Frame.given_ofTexts]
    simp [Call.atStart, hargs, Given.ofTexts]
  · rw [h.eval_eq]
    exact Invocation.carryOut_macro (c := c.atStart) hargs (hplain.eval_eq _ _ _ _) hname hbuiltin
      hentry _

theorem gives_under {f : Frame} (hf : ∀ n, 0 < n → f.given (n + 1) = Given.ofTexts texts n)
    (hlen : texts.length ≤ 7) (base : Scope) (label : Bytes) :
    base.Gives (.ofTexts texts) .through ((base.push f).push (.under label)) := by
  refine .through (Frame.under_forwards label hf fun n hn => ?_)
  rw [Given.ofTexts, List.getElem?_eq_none (by omega)]
  rfl

theorem expands_evalText (h : c.WellFenced) (hargs : c.args = utf8 "eval" :: body :: texts)
    (hlen : texts.length ≤ 7) (m : Machine) (label : Bytes) :
    Source.Expands .standard ⟨label, c.render⟩ m m (.ofTexts texts) body := by
  let f := (c.atStart.frame ⟨label, c.render⟩).remember 0 (utf8 "eval")
  refine ⟨.through, [], _, gives_under (f := f) (fun n hn => ?_) hlen m.scope (utf8 "eval"),
    fun k => ?_⟩
  · obtain ⟨n, rfl⟩ := Nat.exists_eq_succ_of_ne_zero (Nat.pos_iff_ne_zero.1 hn)
    rw [Frame.given_remember_ne _ _ (Nat.succ_ne_zero _), Call.frame, Frame.given_ofTexts]
    simp [Call.atStart, hargs, Given.ofTexts]
  · have hraw : (m.push f).scope.frame.raw 1 = some body := by
      simp [f, Machine.push, Scope.push, Frame.raw, Frame.remember, Call.frame, Call.atStart,
        Frame.ofTexts, hargs]
    rw [h.eval_eq, Invocation.carryOut_builtin (c := c.atStart) hargs
      (Bytes.isPlain_of_free (by decide)) rfl rfl]
    have hrun := Builtin.run_evalText (Registry.standard.context (eval .standard (k + 1)))
      (m.push f)
    rw [hraw] at hrun
    exact Invocation.builtin_evalUnder hrun k

theorem expands_includeFile (h : c.WellFenced)
    (hargs : c.args = utf8 "include" :: file :: texts) (hfile : file.IsPlain)
    (hread : m.state.storage.read file = (.ok body, st)) (hlen : texts.length ≤ 7)
    (label : Bytes) :
    Source.Expands .standard ⟨label, c.render⟩ m (m.setStorage st) (.ofTexts texts) body := by
  let f := (c.atStart.frame ⟨label, c.render⟩).remember 0 (utf8 "include")
  refine ⟨.through, file, _, gives_under (f := f.remember 1 file) (fun n hn => ?_) hlen m.scope
    (utf8 "include"), fun k => ?_⟩
  · obtain ⟨n, rfl⟩ := Nat.exists_eq_succ_of_ne_zero (Nat.pos_iff_ne_zero.1 hn)
    rw [Frame.given_remember_ne _ _ (by omega), Frame.given_remember_ne _ _ (Nat.succ_ne_zero _),
      Call.frame, Frame.given_ofTexts]
    simp [Call.atStart, hargs, Given.ofTexts]
  · have hslot : (m.push f).scope.frame.slots[1]? = some { text := some file } := by
      simp [f, Machine.push, Scope.push, Frame.remember, Call.frame, Call.atStart, Frame.ofTexts,
        hargs]
    rw [h.eval_eq, Invocation.carryOut_builtin (c := c.atStart) hargs
      (Bytes.isPlain_of_free (by decide)) rfl rfl]
    have hname := Machine.argument_plain hfile hslot .standard k
    have hcontent : ((m.push f).mapFrame (·.remember 1 file)).state.storage.read file =
        (.ok body, st) := hread
    exact Invocation.builtin_evalUnder (Builtin.run_includeFile hname hcontent) k

end Call.WellFenced

/-- The builtins that evaluate a text are anonymous invocations of a macro. A macro whose body has
no digit zero in it, and that is invoked with at most seven arguments, comes to the same as `include`
does with these arguments and a file that the body is in, once that is read, and as `eval` does with
these arguments and the body itself, where it can be written as an argument: either none of them
ever ends, or all leave the same state and scope with the same added to the output, and fail in the
same way or not at all. -/
theorem eval_anonymous (m : Machine) (hplain : name.IsPlain) (hname : name.allDigits = false)
    (hbuiltin : Registry.standard.lookup name = none) (hentry : m.table.find? name = some e)
    (hbody : 0x30 ∉ e.value) (hlen : texts.length ≤ 7) (c : Call) (hc : c.WellFenced)
    (hargs : c.args = name :: texts) (label : Bytes) :
    (∀ c' : Call, c'.WellFenced → ∀ file, c'.args = utf8 "include" :: file :: texts →
      file.IsPlain → ∀ st, m.state.storage.read file = (.ok e.value, st) → ∀ label' o,
        Source.ComesTo .standard ⟨label', c'.render⟩ m o ↔
          Source.ComesTo .standard ⟨label, c.render⟩ (m.setStorage st) o) ∧
    (∀ c' : Call, c'.WellFenced → c'.args = utf8 "eval" :: e.value :: texts → ∀ label' o,
      Source.ComesTo .standard ⟨label', c'.render⟩ m o ↔
        Source.ComesTo .standard ⟨label, c.render⟩ m o) := by
  have hmacro (m : Machine) (hentry : m.table.find? name = some e) :=
    hc.expands_macro hargs hplain hname hbuiltin hentry label
  refine ⟨fun c' hc' file hargs' hfile st hread label' o => ?_, fun c' hc' hargs' label' o => ?_⟩
  · have hmacro := hmacro (m.setStorage st) hentry
    have hinclude := hc'.expands_includeFile hargs' hfile hread hlen label'
    exact ⟨hinclude.comesTo hmacro hbody, hmacro.comesTo hinclude hbody⟩
  · have hmacro := hmacro m hentry
    have heval := hc'.expands_evalText hargs' hlen m label'
    exact ⟨heval.comesTo hmacro hbody, hmacro.comesTo heval hbody⟩

def Bytes.sharedBody : Bytes := utf8 "<~1~>-<~1~><~2~x~>-<~2~>-<~3~>"

def Machine.sharing : Machine where
  state.dictionary.table := (Table.empty 0).install (utf8 "m") .sharedBody
  state.storage.files := some
    { onRead := fun past name =>
        (if name = utf8 "f" then .ok .sharedBody else .error (.host []), past)
      onWrite := fun past _ _ => (.error (.host []), past) }
  scope := ⟨.ofValues [utf8 "top", utf8 "a"], []⟩

def Call.ofSharing (names : List Bytes) : Call :=
  ⟨0, 2, names ++ [utf8 "<~gensym~><~1~b~>", utf8 "<~1~>"]⟩

theorem eval_anonymous_sharing :
    (Call.ofSharing [utf8 "m"]).WellFenced ∧
    (Call.ofSharing [utf8 "include", utf8 "f"]).WellFenced ∧
    (Call.ofSharing [utf8 "eval", .sharedBody]).WellFenced ∧
    Registry.standard.lookup (utf8 "m") = none ∧
    (∃ e, Machine.sharing.table.find? (utf8 "m") = some e ∧ e.value = .sharedBody ∧
      Machine.sharing.state.storage.read (utf8 "f") =
        (.ok e.value, Machine.sharing.state.storage)) ∧
    ∃ m, m.out.toBytes = utf8 "1001-1001-x-" ∧
      m.scope = ⟨.ofValues [utf8 "top", utf8 "b"], []⟩ ∧
      Source.ComesTo .standard ⟨[], (Call.ofSharing [utf8 "m"]).render⟩ .sharing (.done () m) ∧
      Source.ComesTo .standard ⟨[], (Call.ofSharing [utf8 "include", utf8 "f"]).render⟩ .sharing
        (.done () m) ∧
      Source.ComesTo .standard ⟨[], (Call.ofSharing [utf8 "eval", .sharedBody]).render⟩ .sharing
        (.done () m) := by
  have hm : (Call.ofSharing [utf8 "m"]).WellFenced :=
    ⟨by decide, by decide, _, _, rfl, by decide, by decide, by decide⟩
  have hi : (Call.ofSharing [utf8 "include", utf8 "f"]).WellFenced :=
    ⟨by decide, by decide, _, _, rfl, by decide, by decide, by decide⟩
  have he : (Call.ofSharing [utf8 "eval", .sharedBody]).WellFenced :=
    ⟨by decide, by decide, _, _, rfl, by decide, by decide, by decide⟩
  obtain ⟨e, hentry, hvalue⟩ : ∃ e, Machine.sharing.table.find? (utf8 "m") = some e ∧
      e.value = .sharedBody := ⟨_, rfl, rfl⟩
  have hread : Machine.sharing.state.storage.read (utf8 "f") =
      (.ok e.value, Machine.sharing.state.storage) := by
    rw [hvalue]
    rfl
  obtain ⟨hinclude, heval⟩ := eval_anonymous .sharing (Bytes.isPlain_of_free (by decide)) rfl rfl
    hentry (by rw [hvalue]; decide) (by decide) _ hm rfl []
  obtain ⟨m, hrun, hout, hscope⟩ : ∃ m,
      (eval .standard 8 ⟨[], (Call.ofSharing [utf8 "m"]).render⟩ .sharing).untraced = .done () m ∧
      m.out.toBytes = utf8 "1001-1001-x-" ∧
      m.scope = ⟨.ofValues [utf8 "top", utf8 "b"], []⟩ := ⟨_, rfl, rfl, rfl⟩
  have hcomes : Source.ComesTo .standard ⟨[], (Call.ofSharing [utf8 "m"]).render⟩ .sharing
      (.done () m) := ⟨by simp, 8, hrun⟩
  refine ⟨hm, hi, he, rfl, ⟨e, hentry, hvalue, hread⟩, m, hout, hscope, hcomes, ?_, ?_⟩
  · exact (hinclude _ hi (utf8 "f") rfl (Bytes.isPlain_of_free (by decide)) _ hread [] _).2 hcomes
  · exact (heval _ he (by rw [hvalue]; rfl) [] _).2 hcomes

end TildeText
