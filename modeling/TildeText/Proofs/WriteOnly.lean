import TildeText.Proofs.Simulation

namespace TildeText

structure Machine.Appended (before : Output × Output) (m m' : Machine) : Prop where
  state : m.state = m'.state
  scope : m.scope = m'.scope
  out : ∃ s, m.out = before.1.write s ∧ m'.out = before.2.write s

namespace Machine.Appended

variable {w : Output × Output} {m m' m₁ m₁' : Machine}

theorem start (state : State) (scope : Scope) (o o' : Output) :
    Appended (o, o') ⟨state, scope, o⟩ ⟨state, scope, o'⟩ :=
  ⟨rfl, rfl, [], rfl, rfl⟩

theorem slots_eq (h : m.Appended w m') : m.scope.frame.slots = m'.scope.frame.slots := by
  rw [h.scope]

theorem setState (h : m.Appended w m') (s : State) :
    Appended w { m with state := s } { m' with state := s } :=
  ⟨rfl, h.scope, h.out⟩

theorem mapScope (h : m.Appended w m') (f : Scope → Scope) :
    Appended w { m with scope := f m.scope } { m' with scope := f m'.scope } :=
  ⟨h.state, congrArg f h.scope, h.out⟩

theorem write (h : m.Appended w m') (t : Bytes) : Appended w (m.write t) (m'.write t) := by
  obtain ⟨s, hl, hr⟩ := h.out
  refine ⟨h.state, h.scope, s ++ t, ?_, ?_⟩
  · rw [Machine.write, hl, Output.write_write]
  · rw [Machine.write, hr, Output.write_write]

theorem adopt (h : m.Appended w m') (m₁ : Machine) :
    Appended w (m.adopt m₁) (m'.adopt m₁) := by
  have hscope := (h.setState m₁.state).mapScope fun s =>
    { s with frame := { s.frame with slots := m₁.scope.frame.slots } }
  exact hscope.write m₁.out.toBytes

theorem aside (h : m.Appended w m') : Appended ({}, {}) m.aside m'.aside :=
  ⟨h.state, congrArg Scope.around h.scope, [], rfl, rfl⟩

theorem resume (h : m.Appended w m') (h₁ : m₁.Appended ({}, {}) m₁') (f : Frame) :
    Appended w (m.resume f m₁) (m'.resume f m₁') := by
  refine ⟨h₁.state, ?_, h.out⟩
  rw [Machine.resume, Machine.resume, h.scope, h₁.scope]

theorem simulation : Simulation (fun _ => True) Appended Eq Eq where
  calls _ _ _ := rfl
  defects _ := .refl (fun _ => rfl) _ _
  under _ := rfl
  slots h := h.slots_eq
  fault h _ _ _ := by rw [Machine.fault, Machine.fault, h.scope]
  own _ := rfl
  write h s := h.write s
  perform h ctx r _ hr :=
    r.perform_related hr ctx (fun _ => rfl) h.state h.slots_eq fun m₁ _ => h.adopt m₁
  argument {registry k w m m'} he h n := by
    refine he.argument h h.slots_eq h.aside (fun m₁ m₁' h₁ => ?_) n
    obtain ⟨s, hl, hr⟩ := h₁.out
    rw [← h.scope]
    exact ⟨hl.trans hr.symm, h.resume h₁ _, fun n v => h.resume h₁ _⟩
  push {w m m' f f'} h hf := by
    subst hf
    exact ⟨w, h.mapScope (·.push f), fun _ _ h₁ => h₁.mapScope Scope.around⟩
  rebind h n v := h.mapScope fun s => { s with frame := s.frame.rebind n v }
  find {w m m'} h name := by
    rw [← h.state]
    cases m.state.dictionary.find m.state.storage.system name with
    | error p => exact .error
    | ok found =>
      obtain ⟨e, d⟩ := found
      refine .ok rfl rfl ?_
      have hs := h.setState { m.state with dictionary := d }
      simpa [Machine.setDictionary, h.state] using hs

end Machine.Appended

/-- What stands in the output beforehand stays there and has no influence: two evaluations that
differ in this alone end alike, failures included, and both add the same text. -/
theorem eval_output_writeOnly (registry : Registry) (n : Nat) (src : Source) (state : State)
    (scope : Scope) (o o' : Output) :
    (eval registry n src ⟨state, scope, o⟩).Related
      (fun m m' => m.state = m'.state ∧ m.scope = m'.scope ∧
        ∃ s, m.out.toBytes = o.toBytes ++ s ∧ m'.out.toBytes = o'.toBytes ++ s)
      Eq (eval registry n src ⟨state, scope, o'⟩) := by
  have h := Machine.Appended.simulation.keeps_eval registry.asksOnly n src (o, o') _ _
    (.start state scope o o')
  refine h.imp fun m m' hm => ⟨hm.state, hm.scope, ?_⟩
  obtain ⟨s, hl, hr⟩ := hm.out
  exact ⟨s, by rw [hl, Output.toBytes_write], by rw [hr, Output.toBytes_write]⟩

def Outcome.mapMachine (f : Machine → Machine) : Outcome α → Outcome α
  | .done a m => .done a (f m)
  | .failed e m => .failed e (f m)
  | .exhausted => .exhausted

theorem Outcome.Related.eq_mapMachine {f : Machine → Machine} {x y : Outcome α}
    (h : x.Related (fun m m' => m' = f m) Eq y) : y = x.mapMachine f := by
  cases h with
  | done h => rw [h, mapMachine]
  | failed he h => rw [h, he, mapMachine]
  | exhausted => rfl

def Machine.onto (o : Output) (m : Machine) : Machine := { m with out := o.write m.out.toBytes }

theorem Machine.Appended.eq_onto {m m' : Machine} (h : m.Appended ({}, o) m') : m' = m.onto o := by
  obtain ⟨s, hl, hr⟩ := h.out
  rw [onto, hl, Output.toBytes_write, h.state, h.scope]
  exact congrArg (fun out => (⟨_, _, out⟩ : Machine)) hr

theorem eval_onto (registry : Registry) (n : Nat) (src : Source) (state : State) (scope : Scope)
    (o : Output) :
    eval registry n src ⟨state, scope, o⟩ =
      (eval registry n src ⟨state, scope, {}⟩).mapMachine (.onto o) := by
  have h := Machine.Appended.simulation.keeps_eval registry.asksOnly n src ({}, o) _ _
    (.start state scope {} o)
  exact (h.imp fun m m' => Machine.Appended.eq_onto).eq_mapMachine

end TildeText
