import TildeText.Proofs.Coupling

/-!
Two evaluations of the same texts by the same builtins. A relation of machines that holds on through
what machines are put to holds on through evaluation: what has to be shown for a relation is one
field of `Simulation` for each thing that evaluation does to a machine, and nothing about programs.
A relation of a machine to itself is a property that evaluation keeps up.
-/

namespace TildeText

def Outcome.Holds (P : Machine → Prop) : Outcome α → Prop
  | .done _ m => P m
  | .failed _ m => P m
  | .exhausted => True

theorem Machine.report_cases (m : Machine) (records : List Bytes) :
    ∃ w, m.report records = .done () (m.setDiagnostics w) ∨
      ∃ p, m.report records = .failed (.problem p) (m.setDiagnostics w) := by
  rw [report]
  split
  · exact ⟨_, .inl rfl⟩
  · exact ⟨_, .inr ⟨_, rfl⟩⟩

theorem Machine.report_holds {P : Machine → Prop} {m : Machine}
    (h : ∀ w, P (m.setDiagnostics w)) (records : List Bytes) : (m.report records).Holds P := by
  obtain ⟨w, hw | ⟨p, hw⟩⟩ := m.report_cases records
  · rw [hw]
    exact h w
  · rw [hw]
    exact h w

def Request.evaluates : Request → Bool
  | .argument _ | .evalHere _ | .evalUnder _ _ => true
  | _ => false

def Slot.Texts (P : Bytes → Prop) (slots : List Slot) : Prop :=
  ∀ s ∈ slots, ∀ t, s.text = some t → P t

namespace Slot.Texts

variable {P : Bytes → Prop} {slots : List Slot}

theorem of_getElem? (h : Slot.Texts P slots) {n : Nat} {s : Slot} (hs : slots[n]? = some s)
    (ht : s.text = some t) : P t :=
  h s (List.mem_of_getElem? hs) t ht

theorem ofTexts {texts : List Bytes} (h : ∀ t ∈ texts, P t) (origin : Option Origin) :
    Slot.Texts P (Frame.ofTexts texts origin).slots := by
  intro s hs t ht
  obtain ⟨t', ht', rfl⟩ := List.mem_map.1 hs
  cases ht
  exact h t ht'

theorem raw {f : Frame} (h : Slot.Texts P f.slots) (ht : f.raw n = some t) : P t := by
  obtain ⟨s, hs, ht⟩ := Option.bind_eq_some_iff.1 ht
  exact h.of_getElem? hs ht

theorem modify (h : Slot.Texts P slots) (n : Nat) {g : Slot → Slot}
    (hg : ∀ s, (g s).text = s.text) : Slot.Texts P (slots.modify n g) := by
  intro s hs t ht
  obtain ⟨i, hi⟩ := List.mem_iff_getElem?.1 hs
  rw [List.getElem?_modify] at hi
  obtain ⟨s₀, hs₀, rfl⟩ := Option.map_eq_some_iff.1 hi
  refine h.of_getElem? hs₀ ?_
  split at ht
  · rwa [hg] at ht
  · exact ht

theorem rebind (h : Slot.Texts P slots) (k n : Nat) (value : Option Bytes) :
    Slot.Texts P ((slots ++ List.replicate k ({} : Slot)).set n { value }) := by
  intro s hs t ht
  rcases List.mem_or_eq_of_mem_set hs with hs | rfl
  · rcases List.mem_append.1 hs with hs | hs
    · exact h s hs t ht
    · rw [List.eq_of_mem_replicate hs] at ht
      cases ht
  · cases ht

theorem assign {f : Frame} (h : Slot.Texts P f.slots) (n : Int) (v : Bytes) :
    Slot.Texts P (f.assign n v).slots := by
  rw [Frame.assign]
  split
  · exact h.rebind _ _ _
  · exact h

end Slot.Texts

def Machine.alone (m : Machine) : Machine where
  state := m.state
  scope := ⟨{ slots := m.scope.frame.slots }, []⟩

def Machine.adopt (m m₁ : Machine) : Machine where
  state := m₁.state
  scope := { m.scope with frame := { m.scope.frame with slots := m₁.scope.frame.slots } }
  out := m.out.write m₁.out.toBytes

def Outcome.adopt (m : Machine) : Outcome α → Outcome α
  | .done a m₁ => .done a (m.adopt m₁)
  | .failed e m₁ => .failed e (m.adopt m₁)
  | .exhausted => .exhausted

theorem Request.perform_alone (r : Request) (hr : r.evaluates = false) (ctx : Context)
    (m : Machine) : r.perform ctx m = (r.perform ctx m.alone).adopt m := by
  cases r with
  | argument n => cases hr
  | evalHere src => cases hr
  | evalUnder label src => cases hr
  | assign n v =>
    simp only [perform, Machine.mapFrame, Frame.assign]
    split <;> rfl
  | write s =>
    have hs : m.out.write (({} : Output).write s).toBytes = m.out.write s := by
      rw [Output.toBytes_write]
      rfl
    simp only [perform, Outcome.adopt, Machine.adopt, Machine.write, Machine.alone, hs]
  | print s =>
    simp only [perform, Machine.report, Machine.alone]
    split <;> rfl
  | dump =>
    simp only [perform, Machine.report, Machine.table, Machine.alone]
    split <;> rfl
  | _ => rfl

theorem Request.perform_texts {r : Request} (hr : r.evaluates = false) (ctx : Context)
    {m : Machine} (h : Slot.Texts P m.scope.frame.slots) :
    (r.perform ctx m).Holds fun m₁ => Slot.Texts P m₁.scope.frame.slots := by
  cases r with
  | argument n => cases hr
  | evalHere src => cases hr
  | evalUnder label src => cases hr
  | assign n v => exact h.assign n v
  | forget n => exact h.modify n fun _ => rfl
  | print s => exact Machine.report_holds (fun _ => h) _
  | dump => exact Machine.report_holds (fun _ => h) _
  | _ => exact h

theorem Request.perform_related {r : Request} (hr : r.evaluates = false) (ctx : Context)
    {R : Machine → Machine → Prop} {F : Failure → Failure → Prop} (hF : ∀ e, F e e)
    {m m' : Machine} (hstate : m.state = m'.state)
    (hslots : m.scope.frame.slots = m'.scope.frame.slots)
    (hR : ∀ m₁, (∀ P, Slot.Texts P m.scope.frame.slots → Slot.Texts P m₁.scope.frame.slots) →
      R (m.adopt m₁) (m'.adopt m₁)) :
    (r.perform ctx m).Related R F (r.perform ctx m') := by
  have halone : m.alone = m'.alone := by rw [Machine.alone, Machine.alone, hstate, hslots]
  have htexts := fun P (h : Slot.Texts P m.alone.scope.frame.slots) =>
    r.perform_texts hr ctx h
  rw [r.perform_alone hr ctx m, r.perform_alone hr ctx m', ← halone]
  generalize r.perform ctx m.alone = x at htexts ⊢
  cases x with
  | done a m₁ => exact .done (hR m₁ htexts)
  | failed e m₁ => exact .failed (hF e) (hR m₁ htexts)
  | exhausted => exact .exhausted

inductive Machine.Found (R : Machine → Machine → Prop) (m m' : Machine) :
    Except Problem (Entry × Dictionary) → Except Problem (Entry × Dictionary) → Prop
  | ok (hn : e.name = e'.name) (hv : e.value = e'.value)
      (h : R (m.setDictionary d) (m'.setDictionary d')) : Found R m m' (.ok (e, d)) (.ok (e', d'))
  | error : Found R m m' (.error p) (.error p)

def Keeps (R : World → Machine → Machine → Prop) (F : Failure → Failure → Prop)
    (ev : Source → Machine → Outcome Unit) : Prop :=
  ∀ src w m m', R w m m' → (ev src m).Related (R w) F (ev src m')

/-- A relation of machines, in each world, that evaluation keeps up, as far as the builtins make
requests of one sort only. Failures and the frames that are put into the machines are related as
well. -/
structure Simulation (Q : Request → Prop) (R : World → Machine → Machine → Prop)
    (F : Failure → Failure → Prop) (G : Frame → Frame → Prop) : Prop where
  calls : ∀ (src : Source) c, .call c ∈ src.bytes.layout.segments → G (c.frame src) (c.frame src)
  defects : ∀ src : Source, Defect.Alike G src src src.bytes.layout.defect src.bytes.layout.defect
  under : Q (.evalUnder label src) → G (.under label) (.under label)
  slots : R w m m' → m.scope.frame.slots = m'.scope.frame.slots
  fault : R w m m' → ∀ kind evidence cause,
    F (m.fault kind evidence cause) (m'.fault kind evidence cause)
  own : ∀ e, F e e
  write : R w m m' → ∀ s, R w (m.write s) (m'.write s)
  perform : R w m m' → ∀ ctx (r : Request), Q r → r.evaluates = false →
    (r.perform ctx m).Related (R w) F (r.perform ctx m')
  argument : Keeps R F (eval registry k) → R w m m' → ∀ n,
    (m.argument (eval registry k) n).Related (R w) F (m'.argument (eval registry k) n)
  push : R w m m' → G f f' → ∃ w', R w' (m.push f) (m'.push f') ∧
    ∀ m₁ m₁', R w' m₁ m₁' → R w m₁.pop m₁'.pop
  rebind : R w m m' → ∀ n v, R w (m.mapFrame (·.rebind n v)) (m'.mapFrame (·.rebind n v))
  find : R w m m' → ∀ name, Machine.Found (R w) m m'
    (m.state.dictionary.find m.state.storage.system name)
    (m'.state.dictionary.find m'.state.storage.system name)

theorem Keeps.argument {R : World → Machine → Machine → Prop} {F : Failure → Failure → Prop}
    {ev : Source → Machine → Outcome Unit} (he : Keeps R F ev) {w w' : World} {m m' : Machine}
    (h : R w m m') (hslots : m.scope.frame.slots = m'.scope.frame.slots)
    (haside : R w' m.aside m'.aside)
    (hback : ∀ m₁ m₁', R w' m₁ m₁' → m₁.out = m₁'.out ∧
      R w (m.resume m.scope.frame m₁) (m'.resume m'.scope.frame m₁') ∧
      ∀ n v, R w (m.resume (m.scope.frame.remember n v) m₁)
        (m'.resume (m'.scope.frame.remember n v) m₁')) (n : Nat) :
    (m.argument ev n).Related (R w) F (m'.argument ev n) := by
  refine Outcome.Follows.related <| Machine.argument_follows h hslots
    (fun t _ => .inr (he { bytes := t } w' _ _ haside)) fun m₁ m₁' h₁ => ?_
  obtain ⟨hout, hresume, hremember⟩ := hback m₁ m₁' h₁
  exact ⟨hout, hresume, hremember n⟩

def Registry.Keeps (registry : Registry) (R : World → Machine → Machine → Prop)
    (F : Failure → Failure → Prop) (ev : Source → Machine → Outcome Unit) : Prop :=
  ∀ entry ∈ registry, ∀ w m m', R w m m' →
    (Program.run (registry.context ev) entry.2 m).Related (R w) F
      (Program.run (registry.context ev) entry.2 m')

namespace Simulation

variable {Q : Request → Prop} {R : World → Machine → Machine → Prop}
  {F : Failure → Failure → Prop} {G : Frame → Frame → Prop} {w : World} {m m' : Machine}
  {registry : Registry} {k : Nat}

theorem evalUnder (S : Simulation Q R F G) (he : Keeps R F ev) (h : R w m m') (hf : G f f')
    (src : Source) : (ev src (m.push f)).pop.Related (R w) F (ev src (m'.push f')).pop := by
  obtain ⟨w', hpush, hpop⟩ := S.push h hf
  exact (he src w' _ _ hpush).pop hpop

theorem request (S : Simulation Q R F G) (he : Keeps R F (eval registry k)) (h : R w m m')
    (r : Request) (hr : Q r) :
    (r.perform (registry.context (eval registry k)) m).Related (R w) F
      (r.perform (registry.context (eval registry k)) m') := by
  cases r with
  | argument n => exact S.argument he h n
  | evalHere src => exact he src w m m' h
  | evalUnder label src => exact S.evalUnder he h (S.under hr) src
  | _ => exact S.perform h _ _ hr rfl

theorem program (S : Simulation Q R F G) (he : Keeps R F (eval registry k)) (p : Program α)
    (hp : p.AsksOnly Q) (h : R w m m') :
    (p.run (registry.context (eval registry k)) m).Related (R w) F
      (p.run (registry.context (eval registry k)) m') :=
  Outcome.Follows.related <| p.run_follows (fun _ _ => S.fault) (fun e _ => S.own e)
    (fun r hr _ _ h => .inr (S.request he h r hr)) hp h

theorem body (S : Simulation Q R F G) (he : Keeps R F ev) (h : R w m m') (name : Bytes) :
    (Invocation.body ev name m).Related (R w) F (Invocation.body ev name m') := by
  have hd := S.find h name
  rw [Invocation.body, Invocation.body]
  generalize m.state.dictionary.find m.state.storage.system name = x,
    m'.state.dictionary.find m'.state.storage.system name = y at hd ⊢
  cases hd with
  | ok hn hv h₁ =>
    simp only [hn, hv]
    exact he _ w _ _ h₁
  | error => exact .failed (S.fault h _ _ _) h

theorem expansion (S : Simulation Q R F G) (he : Keeps R F ev) (name : Bytes)
    {R' : Machine → Machine → Prop} (h : R w m m')
    (hpop : ∀ m₁ m₁', R w m₁ m₁' → R' m₁.pop m₁'.pop) :
    (Invocation.expand ev name m).Related R' F (Invocation.expand ev name m') := by
  rw [Invocation.expand_eq, Invocation.expand_eq]
  exact (S.body he h name).pop hpop

theorem coupling (S : Simulation Q R F G) (fuel : Nat) (he : Keeps R F (eval registry k))
    (hb : registry.Keeps R F (eval registry k)) :
    Coupling False registry fuel fuel (eval registry k) (eval registry k) (fun _ => True) R F
      (fun _ => G) where
  write := S.write
  fault := S.fault
  rebind := S.rebind
  push {w m m' f f'} h hf := by
    obtain ⟨w', hpush, hpop⟩ := S.push h hf
    exact ⟨w', trivial, hpush, hpop⟩
  raw {w m m'} _ h := by rw [Frame.raw, Frame.raw, S.slots h]
  argument _ h n := .inr (S.argument he h n)
  refer {w m m'} h {src src' c c'} _ n _ := by
    have ha : (m.argument (eval registry k) n).Follows False (R w) F
        (m'.argument (eval registry k) n) := .inr (S.argument he h n)
    rw [Invocation.refer_eq, Invocation.refer_eq]
    exact ha.andThen fun v _ _ h₁ => .done (S.write h₁ _)
  builtin _ h entry hentry :=
    Builtin.run_follows (fun m m' h => .inr (hb entry hentry _ m m' h)) (.inl rfl) h
  body _ h name := .inr (S.body he h name)

theorem keeps_builtins (S : Simulation Q R F G) (hr : registry.AsksOnly Q)
    (he : Keeps R F (eval registry k)) : registry.Keeps R F (eval registry k) :=
  fun entry hentry _ _ _ h => S.program he entry.2 (hr entry hentry) h

theorem segments (S : Simulation Q R F G) (hr : registry.AsksOnly Q) (fuel : Nat)
    (he : Keeps R F (eval registry k)) {src src' : Source} {xs ys : List Segment}
    (hxs : Segment.Alike G src src' xs ys) (h : R w m m') :
    (Segment.runAll (Invocation.carryOut registry fuel (eval registry k) src) xs m).Related (R w) F
      (Segment.runAll (Invocation.carryOut registry fuel (eval registry k) src') ys m') :=
  ((S.coupling fuel he (S.keeps_builtins hr he)).segments hxs h).related

theorem layout (S : Simulation Q R F G) (hr : registry.AsksOnly Q) (fuel : Nat)
    (he : Keeps R F (eval registry k)) {src src' : Source} {l l' : Layout}
    (hs : Segment.Alike G src src' l.segments l'.segments)
    (hd : Defect.Alike G src src' l.defect l'.defect) (h : R w m m') :
    (l.run (Invocation.carryOut registry fuel (eval registry k) src) src m).Related (R w) F
      (l'.run (Invocation.carryOut registry fuel (eval registry k) src') src' m') :=
  ((S.coupling fuel he (S.keeps_builtins hr he)).layout hs hd h).related

theorem keeps_eval_of (S : Simulation Q R F G)
    (hb : ∀ k, Keeps R F (eval registry k) → registry.Keeps R F (eval registry k)) (n : Nat) :
    Keeps R F (eval registry n) := by
  induction n with
  | zero => exact fun _ _ _ _ _ => .exhausted
  | succ n ih =>
    intro src w m m' h
    have C := S.coupling n ih (hb n ih)
    exact (C.layout (.of_frames (S.calls src)) (S.defects src) h).related

theorem keeps_eval (S : Simulation Q R F G) (hr : registry.AsksOnly Q) (n : Nat) :
    Keeps R F (eval registry n) :=
  S.keeps_eval_of (fun _ he => S.keeps_builtins hr he) n

end Simulation

end TildeText
