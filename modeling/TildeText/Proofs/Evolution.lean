import Mathlib.Data.List.Forall2
import Mathlib.Logic.Relation
import TildeText.Proofs.Invariant
import TildeText.Proofs.Placement

namespace TildeText

inductive Frame.Step : Frame → Frame → Prop
  | fill (h : f.slots[n]? = some { text := some t }) (v : Bytes) : Step f (f.remember n v)
  | rebind (n : Nat) (v : Option Bytes) : Step f (f.rebind n v)

def Frame.Evolves : Frame → Frame → Prop := Relation.ReflTransGen Frame.Step

inductive Slot.Evolves (s : Slot) : Slot → Prop
  | same : Evolves s s
  | filled (h : s.value = none) (v : Bytes) : Evolves s { s with value := some v }
  | rebound (value : Option Bytes) : Evolves s { value }

namespace Slot.Evolves

variable {s s' s'' : Slot}

theorem trans (h : s.Evolves s') (h' : s'.Evolves s'') : s.Evolves s'' := by
  cases h with
  | same => exact h'
  | filled hn v =>
    cases h' with
    | same => exact .filled hn v
    | filled hn' _ => cases hn'
    | rebound value => exact .rebound value
  | rebound value =>
    cases h' with
    | same => exact .rebound value
    | filled _ v => exact .rebound (some v)
    | rebound value' => exact .rebound value'

theorem of_text (h : s.Evolves s') (ht : s'.text = some t) :
    s.text = some t ∧ ∀ v, s.value = some v → s'.value = some v := by
  cases h with
  | same => exact ⟨ht, fun _ => id⟩
  | filled hn v => exact ⟨ht, by simp [hn]⟩
  | rebound value => cases ht

end Slot.Evolves

namespace Frame

variable {f f' : Frame} {s : Slot} {i : Nat}

theorem Step.slot (h : f.Step f') (hs : f.slots[i]? = some s) :
    ∃ s', f'.slots[i]? = some s' ∧ s.Evolves s' := by
  cases h with
  | @fill n _ t ht v =>
    by_cases hi : n = i
    · subst hi
      cases hs.symm.trans ht
      exact ⟨_, by simp [remember, hs], .filled rfl v⟩
    · exact ⟨s, by simp [remember, hs, hi], .same⟩
  | rebind n v =>
    have hlt : i < f.slots.length := (List.getElem?_eq_some_iff.1 hs).1
    by_cases hi : n = i
    · subst hi
      exact ⟨_, by simp [Frame.rebind, List.getElem?_append_left, hlt], .rebound v⟩
    · exact ⟨s, by simp [Frame.rebind, hi, List.getElem?_append_left hlt, hs], .same⟩

theorem Evolves.slot (h : f.Evolves f') (hs : f.slots[i]? = some s) :
    ∃ s', f'.slots[i]? = some s' ∧ s.Evolves s' := by
  induction h with
  | refl => exact ⟨s, hs, .same⟩
  | tail _ hstep ih =>
    obtain ⟨s₁, hs₁, h₁⟩ := ih
    obtain ⟨s₂, hs₂, h₂⟩ := hstep.slot hs₁
    exact ⟨s₂, hs₂, h₁.trans h₂⟩

theorem Evolves.size_le (h : f.Evolves f') : f.size ≤ f'.size := by
  refine Nat.le_of_not_lt fun hlt => ?_
  obtain ⟨s', hs', -⟩ := Evolves.slot h (List.getElem?_eq_getElem hlt)
  exact absurd (List.getElem?_eq_some_iff.1 hs').1 (Nat.lt_irrefl _)

end Frame

structure Earlier where
  depth : Nat
  frames : List Frame

def Earlier.around : Earlier → Earlier
  | ⟨d + 1, fs⟩ => ⟨d, fs⟩
  | ⟨0, _ :: f :: fs⟩ => ⟨0, f :: fs⟩
  | ⟨0, _⟩ => ⟨0, [Frame.empty]⟩

structure Machine.Since (w : Earlier) (m : Machine) : Prop where
  ne_nil : w.frames ≠ []
  evolves : List.Forall₂ Frame.Evolves w.frames (m.frames.drop w.depth)

namespace Machine.Since

variable {w : Earlier} {m m₁ : Machine} {d : Nat} {fs : List Frame}

theorem now (m : Machine) : m.Since ⟨0, m.frames⟩ :=
  ⟨by simp [frames], List.forall₂_same.2 fun _ _ => .refl⟩

theorem outer_ne_nil (h : m.Since ⟨d + 1, fs⟩) : m.scope.outer ≠ [] := by
  intro ho
  have he := h.evolves
  simp only [frames, ho, List.drop_succ_cons, List.drop_nil, List.forall₂_nil_right_iff] at he
  exact h.ne_nil he

theorem push (h : m.Since w) (f : Frame) : (m.push f).Since { w with depth := w.depth + 1 } :=
  ⟨h.ne_nil, h.evolves⟩

theorem pop (h : m.Since ⟨d + 1, fs⟩) : m.pop.Since ⟨d, fs⟩ := by
  refine ⟨h.ne_nil, ?_⟩
  rw [frames_pop h.outer_ne_nil]
  exact h.evolves

theorem mapFrame (h : m.Since w) {g : Frame → Frame}
    (hg : w.depth = 0 → m.scope.frame.Step (g m.scope.frame)) : (m.mapFrame g).Since w := by
  obtain ⟨d, fs⟩ := w
  refine ⟨h.ne_nil, ?_⟩
  have he := h.evolves
  cases d with
  | succ d => exact he
  | zero =>
    simp only [frames, List.drop_zero, List.forall₂_cons_right_iff] at he ⊢
    obtain ⟨f, rest, hf, hrest, rfl⟩ := he
    exact ⟨f, rest, hf.tail (hg rfl), hrest, rfl⟩

theorem aside (h : m.Since w) : m.aside.Since w.around := by
  obtain ⟨d, fs⟩ := w
  cases d with
  | succ d => exact ⟨h.ne_nil, h.pop.evolves⟩
  | zero =>
    have he := h.evolves
    simp only [frames, List.drop_zero, List.forall₂_cons_right_iff] at he
    obtain ⟨f, rest, -, hrest, rfl⟩ := he
    cases rest with
    | nil =>
      have ho : m.scope.outer = [] := List.forall₂_nil_left_iff.1 hrest
      simp only [Machine.aside, Scope.around, ho]
      exact now { m with scope := { frame := Frame.empty }, out := {} }
    | cons g rest =>
      obtain ⟨g', rest', hg, hrest, ho⟩ := List.forall₂_cons_left_iff.1 hrest
      simp only [Machine.aside, Scope.around, ho]
      exact ⟨List.cons_ne_nil _ _, .cons hg hrest⟩

theorem resume (h : m.Since w) (h₁ : m₁.Since w.around) {f : Frame}
    (hf : w.depth = 0 → m.scope.frame.Evolves f) : (m.resume f m₁).Since w := by
  obtain ⟨d, fs⟩ := w
  refine ⟨h.ne_nil, ?_⟩
  cases d with
  | succ d =>
    obtain ⟨g, rest, ho⟩ := List.exists_cons_of_ne_nil h.outer_ne_nil
    simp only [frames, Machine.resume, Scope.within, ho]
    exact h₁.evolves
  | zero =>
    have he := h.evolves
    simp only [frames, List.drop_zero, List.forall₂_cons_right_iff] at he
    obtain ⟨f₀, rest, hf₀, hrest, rfl⟩ := he
    cases rest with
    | nil =>
      have ho : m.scope.outer = [] := List.forall₂_nil_left_iff.1 hrest
      simp only [frames, Machine.resume, Scope.within, ho]
      exact .cons (hf₀.trans (hf rfl)) .nil
    | cons g rest =>
      obtain ⟨g', rest', hg, hrest, ho⟩ := List.forall₂_cons_left_iff.1 hrest
      simp only [frames, Machine.resume, Scope.within, ho]
      exact .cons (hf₀.trans (hf rfl)) h₁.evolves

theorem adopt (h : m.Since ⟨d + 1, fs⟩) (m₁ : Machine) : (m.adopt m₁).Since ⟨d + 1, fs⟩ :=
  ⟨h.ne_nil, h.evolves⟩

theorem invariant (registry : Registry) :
    Invariant registry (·.depth ≠ 0) Machine.Since (fun _ => True) where
  write h _ := ⟨h.ne_nil, h.evolves⟩
  fault _ _ _ _ := trivial
  own _ _ := Program.asksOnly _
  rebind h n v := h.mapFrame fun _ => .rebind n v
  dictionary h _ := ⟨h.ne_nil, h.evolves⟩
  perform {w m} hw h ctx r hr := by
    obtain ⟨_ | d, fs⟩ := w
    · exact absurd rfl hw
    · rw [r.perform_alone hr]
      cases r.perform ctx m.alone with
      | done a m₁ => exact h.adopt m₁
      | failed e m₁ => exact ⟨trivial, h.adopt m₁⟩
      | exhausted => trivial
  push h f := ⟨_, Nat.succ_ne_zero _, h.push f, fun _ h₁ => h₁.pop⟩
  aside h := by
    refine ⟨_, h.aside, fun m₁ h₁ => ⟨h.resume h₁ fun _ => .refl, fun n t ht v => ?_⟩⟩
    exact h.resume h₁ fun _ => .single (.fill ht v)

end Machine.Since

theorem eval_outer_length (registry : Registry) (n : Nat) (src : Source) (m : Machine) :
    (eval registry n src m).Holds fun m' => m'.scope.outer.length = m.scope.outer.length := by
  have hrun := (Machine.Since.invariant registry).endsIn n src (.now m)
  exact hrun.holds fun m' h => (Nat.succ.inj h.evolves.length_eq).symm

/-- The frames that are there before an evaluation are there afterwards, also if it fails, and only
two things have happened to them: arguments known by their raw texts alone got values, and arguments
were rebound. So each frame has at least the slots that it had. Each of these is as it was, or has
got a value where there was none, or has lost its raw text; as long as there is a raw text, it is
the one that was there, and a value that it had is still there. -/
theorem eval_slots_evolve (registry : Registry) (n : Nat) (src : Source) (m : Machine) :
    (eval registry n src m).Holds fun m' =>
      List.Forall₂ (fun f f' => f.Evolves f' ∧ f.size ≤ f'.size ∧
        ∀ (i : Nat) (s : Slot), f.slots[i]? = some s → ∃ s' : Slot, f'.slots[i]? = some s' ∧
          (s' = s ∨ s.value = none ∧ (∃ v, s' = { s with value := some v }) ∨ s'.text = none) ∧
          ∀ t, s'.text = some t → s.text = some t ∧ ∀ v, s.value = some v → s'.value = some v)
        m.frames m'.frames := by
  have hrun := (Machine.Since.invariant registry).endsIn n src (.now m)
  refine hrun.holds fun m' h => h.evolves.imp fun f f' hf => ⟨hf, hf.size_le, fun i s hs => ?_⟩
  obtain ⟨s', hs', h'⟩ := hf.slot hs
  refine ⟨s', hs', ?_, fun t => h'.of_text⟩
  cases h' with
  | same => exact .inl rfl
  | filled hn v => exact .inr (.inl ⟨hn, v, rfl⟩)
  | rebound value => exact .inr (.inr rfl)

end TildeText
