import TildeText.Proofs.Executions
import TildeText.Proofs.Simulation

/-!
Statements about logs. A statement that relates what is logged to how an evaluation comes out is
proved for the runs of builtins, and goes through from there to the evaluation of any text.
-/

namespace TildeText

def Outcome.SameEnd : Outcome α → Outcome β → Prop
  | .done _ m, .done _ m' => m.state.serial = m'.state.serial
  | .failed e m, .failed e' m' => e = e' ∧ m.state.serial = m'.state.serial
  | .exhausted, .exhausted => True
  | _, _ => False

theorem Outcome.SameEnd.refl (x : Outcome α) : x.SameEnd x := by
  cases x with
  | done a m => exact rfl
  | failed e m => exact ⟨rfl, rfl⟩
  | exhausted => trivial

theorem Outcome.sameEnd_pop (x : Outcome α) : x.SameEnd x.pop := by
  cases x with
  | done a m => exact rfl
  | failed e m => exact ⟨rfl, rfl⟩
  | exhausted => trivial

theorem Outcome.sameEnd_recalled (x : Outcome Unit) (m : Machine) (n : Nat) :
    x.SameEnd (x.recalled m n) := by
  cases x with
  | done a m₁ => exact rfl
  | failed e m₁ => exact ⟨rfl, rfl⟩
  | exhausted => trivial

/-- A statement about the machine that something starts on, what it logs and how it comes out, which
can be put together where one thing is done after another. Requests of the sort `Q`, failures of the
sort `E` and runs under any other name than one do not matter to it. -/
structure Tracking (T : {α : Type} → Machine → List Execution → Outcome α → Prop)
    (Q : Request → Prop) (E : Failure → Prop) (special : Bytes) : Prop where
  done {α : Type} (a : α) {m m₁ : Machine} (h : m₁.state.serial = m.state.serial) :
    T m [] (.done a m₁)
  failed {α : Type} {e : Failure} (he : E e) (m : Machine) : T m [] (.failed e m : Outcome α)
  fault (f : Fault) : E (.fault f)
  exhausted {α : Type} (m : Machine) : T m [] (.exhausted : Outcome α)
  request {r : Request} (hr : Q r) (he : r.evaluates = false) (ctx : Context) (m : Machine) :
    T m [] (r.perform ctx m)
  andThen {α β : Type} {m : Machine} {l : List Execution} {x : Outcome α}
    {f : α → Machine → List Execution} {g : α → Machine → Outcome β} (h : T m l x)
    (hfg : ∀ a m₁, T m₁ (f a m₁) (g a m₁)) : T m (l ++ x.thenLog f) (x.andThen g)
  congr {α β : Type} {m m' : Machine} {l : List Execution} {x : Outcome α} {y : Outcome β}
    (h : T m l x) (hm : m.state.serial = m'.state.serial) (hxy : x.SameEnd y) : T m' l y
  other {name : Bytes} (hname : name ≠ special) {m : Machine} {l : List Execution}
    {x : Outcome Verdict} (h : T m l x) : T m (⟨name, m, x⟩ :: l) x

namespace Tracking

variable {T : {α : Type} → Machine → List Execution → Outcome α → Prop} {Q : Request → Prop}
  {E : Failure → Prop} {special : Bytes}

section Inside

variable (H : Tracking T Q E special) {ev : Source → Machine → Outcome Unit}
  {inner : Source → Machine → List Execution} (hev : ∀ src m, T m (inner src m) (ev src m))

include H

theorem thenQuiet {m : Machine} {l : List Execution} {x : Outcome α} (h : T m l x)
    {g : α → Machine → Outcome β} (hg : ∀ a m₁, T m₁ [] (g a m₁)) : T m l (x.andThen g) := by
  have hlog : x.thenLog (fun _ _ => []) = [] := by cases x <;> rfl
  have hboth := H.andThen h hg
  rwa [hlog, List.append_nil] at hboth

theorem pop {m m' : Machine} {l : List Execution} {x : Outcome α} (h : T m l x)
    (hm : m.state.serial = m'.state.serial) : T m' l x.pop :=
  H.congr h hm x.sameEnd_pop

theorem rounds {ctx : Context} {name : Bytes} {b : Builtin}
    (hround : ∀ m, T m (⟨name, m, Program.run ctx b m⟩ :: Program.log inner ctx b m)
      (Program.run ctx b m)) (n : Nat) (m : Machine) :
    T m (Builtin.log inner ctx name b n m) (b.run ctx n m) := by
  induction n generalizing m with
  | zero => exact H.exhausted m
  | succ n ih =>
    rw [Builtin.log, Builtin.run_succ]
    refine H.andThen (hround m) fun v m₁ => ?_
    cases v with
    | finished => exact H.done _ rfl
    | matched d => exact H.done _ rfl
    | again => exact ih m₁

include hev

theorem argument (m : Machine) (n : Nat) : T m (m.argumentLog inner n) (m.argument ev n) := by
  rw [Machine.argumentLog]
  split
  · rename_i t hs
    rw [Machine.argument_raw hs]
    exact H.congr (hev _ m.aside) rfl (Outcome.sameEnd_recalled _ m n)
  · rename_i hs
    rw [Machine.argument_known hs]
    exact H.done _ rfl

theorem perform (isBuiltin : Bytes → Bool) (m : Machine) {r : Request} (hr : Q r) :
    T m (r.log inner m) (r.perform ⟨isBuiltin, ev⟩ m) := by
  cases r with
  | argument n => exact H.argument hev m n
  | evalHere src => exact hev src m
  | evalUnder label src =>
    exact H.pop (hev src (m.push (.under label))) rfl
  | _ => exact H.request hr rfl _ m

theorem program (isBuiltin : Bytes → Bool) {p : Program α} (hp : p.Within Q (fun _ => True) E)
    (m : Machine) : T m (p.log inner ⟨isBuiltin, ev⟩ m) (p.run ⟨isBuiltin, ev⟩ m) := by
  induction p generalizing m with
  | done a => exact H.done a rfl
  | fail kind evidence cause => exact H.failed (H.fault _) m
  | abort p => exact H.failed hp m
  | crash start size short => exact H.failed hp m
  | ask r next ih =>
    rw [Program.log, Program.run_ask]
    exact H.andThen (H.perform hev isBuiltin m hp.1) fun a m₁ => ih a (hp.2 a) m₁

theorem builtin (isBuiltin : Bytes → Bool) {name : Bytes} (hname : name ≠ special) {b : Builtin}
    (hb : Program.Within Q (fun _ => True) b E) (n : Nat) (m : Machine) :
    T m (Builtin.log inner ⟨isBuiltin, ev⟩ name b n m) (b.run ⟨isBuiltin, ev⟩ n m) :=
  H.rounds (fun m => H.other hname (H.program hev isBuiltin hb m)) n m

theorem body (name : Bytes) (m : Machine) :
    T m (Invocation.bodyLog inner name m) (Invocation.body ev name m) := by
  rw [Invocation.bodyLog, Invocation.body]
  cases m.state.dictionary.find m.state.storage.system name with
  | error e => exact H.failed (H.fault _) m
  | ok found => exact H.congr (hev _ (m.setDictionary found.2)) rfl (.refl _)

variable {registry : Registry} (fuel : Nat)
  (hbuiltin : ∀ name b, registry.lookup name = some b → ∀ m,
    T m (Builtin.log inner (registry.context ev) name b fuel m)
      (b.run (registry.context ev) fuel m))

include hbuiltin

theorem byName (m : Machine) :
    T m (Invocation.byNameLog inner registry fuel ev m) (Invocation.byName registry fuel ev m) := by
  have hframe : T m (Invocation.byNameLog inner registry fuel ev m)
      (Invocation.inFrame registry fuel ev m) := by
    refine H.andThen (H.argument hev m 0) fun name m₁ => ?_
    cases hb : registry.lookup (name.getD []) with
    | none => exact H.thenQuiet (H.body hev (name.getD []) m₁) fun _ _ => H.done _ rfl
    | some b => exact hbuiltin _ b hb m₁
  rw [Invocation.byName_eq]
  refine H.thenQuiet (H.pop hframe rfl) fun d m₁ => ?_
  cases d <;> exact H.done _ rfl

theorem carryOut (src : Source) (c : Call) (m : Machine) :
    T m (Invocation.carryOutLog inner registry fuel ev src c m)
      (Invocation.carryOut registry fuel ev src c m) := by
  rw [Invocation.carryOutLog, Invocation.carryOut]
  cases c.index? with
  | none => exact H.congr (H.byName hev fuel hbuiltin (m.push (c.frame src))) rfl (.refl _)
  | some n =>
    simp only
    split
    · rw [Invocation.refer_eq]
      exact H.thenQuiet (H.argument hev m n) fun _ _ => H.done _ rfl
    · rw [Invocation.rebind_eq]
      have hvalue : T (m.push (c.frame src)) ((m.push (c.frame src)).argumentLog inner 1)
          (Invocation.newValue ev n (m.push (c.frame src))) := by
        refine H.thenQuiet (H.argument hev _ 1) fun v m₁ => ?_
        split
        · exact H.done _ rfl
        · exact H.failed (H.fault _) m₁
      have hpopped : T m ((m.push (c.frame src)).argumentLog inner 1)
          (Invocation.newValue ev n (m.push (c.frame src))).pop := H.pop hvalue rfl
      exact H.thenQuiet hpopped fun _ _ => H.done _ rfl

omit hev hbuiltin in
theorem runAll {carryOut : Call → Machine → Outcome Unit}
    {log : Call → Machine → List Execution} (h : ∀ c m, T m (log c m) (carryOut c m))
    (segments : List Segment) (m : Machine) :
    T m (Segment.logAll carryOut log segments m) (Segment.runAll carryOut segments m) := by
  induction segments generalizing m with
  | nil => exact H.done _ rfl
  | cons segment rest ih =>
    cases segment with
    | literal t => exact H.congr (ih (m.write t.spell)) rfl (.refl _)
    | call c =>
      rw [Segment.logAll, Segment.runAll_call]
      exact H.andThen (h c m) fun _ m₁ => ih m₁

end Inside

theorem eval (H : Tracking T Q E special) {registry : Registry}
    (hbuiltin : ∀ k, (∀ src m, T m (evalLog registry k src m) (TildeText.eval registry k src m)) →
      ∀ name b, registry.lookup name = some b → ∀ n m,
        T m (Builtin.log (evalLog registry k) (registry.context (TildeText.eval registry k)) name b
          n m) (b.run (registry.context (TildeText.eval registry k)) n m))
    (n : Nat) (src : Source) (m : Machine) :
    T m (evalLog registry n src m) (TildeText.eval registry n src m) := by
  induction n generalizing src m with
  | zero => exact H.exhausted m
  | succ n ih =>
    rw [evalLog, TildeText.eval, Layout.run_eq]
    refine H.thenQuiet (H.runAll (H.carryOut ih n (fun name b hb => hbuiltin n ih name b hb n) src)
      _ m) fun _ m₁ => ?_
    cases src.bytes.layout.defect with
    | none => exact H.done _ rfl
    | some d => cases d <;> exact H.failed (H.fault _) m₁

end Tracking

end TildeText
