import TildeText.Eval

namespace TildeText

namespace Machine

def aside (m : Machine) : Machine := { m with scope := m.scope.around, out := {} }

def resume (m : Machine) (f : Frame) (m₁ : Machine) : Machine :=
  { m₁ with scope := m.scope.within f m₁.scope, out := m.out }

def setDictionary (m : Machine) (d : Dictionary) : Machine :=
  { m with state := { m.state with dictionary := d } }

def handOver (m : Machine) : Option (Option Bytes) → Machine
  | none => m
  | some d => m.mapFrame (·.rebind 0 d)

end Machine

theorem Program.run_seq (ctx : Context) (p : Program α) (f : α → Program β) (m : Machine) :
    (p >>= f).run ctx m = (p.run ctx m).andThen fun a m => (f a).run ctx m :=
  p.run_bind ctx f m

theorem Builtin.run_succ (ctx : Context) (b : Builtin) (n : Nat) (m : Machine) :
    b.run ctx (n + 1) m = (Program.run ctx b m).andThen fun v m =>
      match v with
      | .finished => .done none m
      | .matched d => .done (some d) m
      | .again => b.run ctx n m := by
  rw [run]
  cases Program.run ctx b m with
  | done v m => cases v <;> rfl
  | failed e m => rfl
  | exhausted => rfl

def Outcome.recalled (m : Machine) (n : Nat) : Outcome Unit → Outcome (Option Bytes)
  | .done _ m₁ =>
    .done (some m₁.out.toBytes) (m.resume (m.scope.frame.remember n m₁.out.toBytes) m₁)
  | .failed e m₁ => .failed e (m.resume m.scope.frame m₁)
  | .exhausted => .exhausted

section Argument

variable {m : Machine} {n : Nat}

theorem Machine.argument_known (h : ∀ t, m.scope.frame.slots[n]? ≠ some { text := some t })
    (ev : Source → Machine → Outcome Unit) :
    m.argument ev n = .done (m.scope.frame.slots[n]?.bind Slot.value) m := by
  rw [argument]
  split
  · rename_i hs
    rw [hs, Option.bind_none]
  · rename_i hs
    rw [hs, Option.bind_some]
  · rename_i hs
    rw [hs, Option.bind_some]
  · rename_i t hs
    exact absurd hs (h t)

theorem Machine.argument_raw {t : Bytes} (h : m.scope.frame.slots[n]? = some { text := some t })
    (ev : Source → Machine → Outcome Unit) :
    m.argument ev n = (ev { bytes := t } m.aside).recalled m n := by
  rw [argument, h]
  rfl

end Argument

namespace Invocation

variable (registry : Registry) (fuel : Nat) (ev : Source → Machine → Outcome Unit) (n : Nat)
  (name : Bytes) (m : Machine)

def body : Outcome Unit :=
  match m.state.dictionary.find m.state.storage.system name with
  | .ok (e, d) => ev ⟨e.name, e.value⟩ (m.setDictionary d)
  | .error e => .failed (m.fault .undefinedMacro name (some e)) m

def inFrame : Outcome (Option (Option Bytes)) :=
  (m.argument ev 0).andThen fun name m =>
    match registry.lookup (name.getD []) with
    | some b => b.run (registry.context ev) fuel m
    | none => (body ev (name.getD []) m).andThen fun _ m => .done none m

def newValue : Outcome (Option Bytes) :=
  (m.argument ev 1).andThen fun v m =>
    if n ≤ argumentLimit then .done v m
    else .failed (m.fault .badArgument ((m.scope.frame.raw 0).getD [])) m

theorem refer_eq :
    refer ev n m = (m.argument ev n).andThen fun v m => .done () (m.write (v.getD [])) := by
  rw [refer]
  cases m.argument ev n <;> rfl

theorem rebind_eq :
    rebind ev n m =
      (newValue ev n m).pop.andThen fun v m => .done () (m.mapFrame (·.rebind n v)) := by
  rw [rebind, newValue]
  cases m.argument ev 1 with
  | done v m =>
    simp only [Outcome.andThen]
    split <;> rfl
  | failed e m => rfl
  | exhausted => rfl

theorem builtin_eq (ctx : Context) (b : Builtin) :
    builtin ctx fuel b m = (b.run ctx fuel m).pop.andThen fun d m => .done () (m.handOver d) := by
  rw [builtin]
  cases b.run ctx fuel m with
  | done d m => cases d <;> rfl
  | failed e m => rfl
  | exhausted => rfl

theorem expand_eq : expand ev name m = (body ev name m).pop := by
  rw [expand, body]
  cases m.state.dictionary.find m.state.storage.system name <;> rfl

theorem byName_eq :
    byName registry fuel ev m =
      (inFrame registry fuel ev m).pop.andThen fun d m => .done () (m.handOver d) := by
  rw [byName, inFrame]
  cases m.argument ev 0 with
  | done name m =>
    simp only [Outcome.andThen]
    cases registry.lookup (name.getD []) with
    | some b => exact builtin_eq fuel m _ b
    | none =>
      simp only [expand_eq]
      cases body ev (name.getD []) m <;> rfl
  | failed e m => rfl
  | exhausted => rfl

end Invocation

theorem Segment.runAll_call (carryOut : Call → Machine → Outcome Unit) (c : Call)
    (rest : List Segment) (m : Machine) :
    runAll carryOut (.call c :: rest) m =
      (carryOut c m).andThen fun _ m => runAll carryOut rest m := by
  rw [runAll]
  cases carryOut c m <;> rfl

theorem Layout.run_eq (l : Layout) (carryOut : Call → Machine → Outcome Unit) (src : Source)
    (m : Machine) :
    l.run carryOut src m = (Segment.runAll carryOut l.segments m).andThen fun _ m =>
      match l.defect with
      | none => .done () m
      | some d => .failed (d.failure src m) m := by
  rw [run]
  cases Segment.runAll carryOut l.segments m <;> rfl

end TildeText
