import TildeText.Proofs.Simulation

/-!
Properties of machines that evaluation keeps up. As for the relations of `Simulation`, one field of
`Invariant` stands for each thing that evaluation does to a machine. Worlds in which the innermost
frame is that of an invocation are told apart: only there do builtins get at the frame.
-/

namespace TildeText

namespace Outcome

def EndsIn (P : Machine → Prop) (E : Failure → Prop) : Outcome α → Prop
  | .done _ m => P m
  | .failed e m => E e ∧ P m
  | .exhausted => True

theorem endsIn_iff {P : Machine → Prop} {E : Failure → Prop} {x : Outcome α} :
    x.EndsIn P E ↔ x.Related (fun m m' => m = m' ∧ P m) (fun e e' => e = e' ∧ E e) x := by
  constructor
  · intro h
    cases x with
    | done a m => exact .done ⟨rfl, h⟩
    | failed e m => exact .failed ⟨rfl, h.1⟩ ⟨rfl, h.2⟩
    | exhausted => exact .exhausted
  · intro h
    cases h with
    | done h => exact h.2
    | failed he h => exact ⟨he.2, h.2⟩
    | exhausted => trivial

theorem EndsIn.holds {P P' : Machine → Prop} {E : Failure → Prop} {x : Outcome α} (h : x.EndsIn P E)
    (hP : ∀ m, P m → P' m) : x.Holds P' := by
  cases x with
  | done _ m => exact hP m h
  | failed _ m => exact hP m h.2
  | exhausted => trivial

end Outcome

/-- A property of machines, in each world, that evaluation keeps up, and one of the failures that it
ends in. -/
structure Invariant (registry : Registry) (Inner : World → Prop) (P : World → Machine → Prop)
    (E : Failure → Prop) : Prop where
  write : P w m → ∀ s, P w (m.write s)
  fault : P w m → ∀ kind evidence cause, E (m.fault kind evidence cause)
  own : ∀ entry ∈ registry, entry.2.Within (fun _ => True) (fun _ => True) E
  rebind : P w m → ∀ n v, P w (m.mapFrame (·.rebind n v))
  dictionary : P w m → ∀ d, P w (m.setDictionary d)
  perform : Inner w → P w m → ∀ ctx (r : Request), r.evaluates = false →
    (r.perform ctx m).EndsIn (P w) E
  push : P w m → ∀ f, ∃ w', Inner w' ∧ P w' (m.push f) ∧ ∀ m₁, P w' m₁ → P w m₁.pop
  aside : P w m → ∃ w', P w' m.aside ∧ ∀ m₁, P w' m₁ → P w (m.resume m.scope.frame m₁) ∧
    ∀ n t, m.scope.frame.slots[n]? = some { text := some t } →
      ∀ v, P w (m.resume (m.scope.frame.remember n v) m₁)

namespace Invariant

abbrev Both (P : World → Machine → Prop) (w : World) (m m' : Machine) : Prop := m = m' ∧ P w m

variable {registry : Registry} {Inner : World → Prop} {P : World → Machine → Prop}
  {E : Failure → Prop} {w : World} {m : Machine} {k : Nat}

abbrev Kept (P : World → Machine → Prop) (E : Failure → Prop)
    (ev : Source → Machine → Outcome Unit) : Prop :=
  Keeps (Both P) (fun e e' => e = e' ∧ E e) ev

theorem argument (I : Invariant registry Inner P E) (he : Kept P E ev) (h : P w m) (n : Nat) :
    (m.argument ev n).Follows False (Both P w) (fun e e' => e = e' ∧ E e) (m.argument ev n) := by
  by_cases hraw : ∃ t, m.scope.frame.slots[n]? = some { text := some t }
  · obtain ⟨t, ht⟩ := hraw
    obtain ⟨w', haside, hback⟩ := I.aside h
    rw [Machine.argument_raw ht]
    refine Outcome.Follows.recalled (.inr (he _ w' _ _ ⟨rfl, haside⟩)) ?_
    rintro m₁ _ ⟨rfl, h₁⟩
    obtain ⟨hresume, hremember⟩ := hback m₁ h₁
    exact ⟨rfl, ⟨rfl, hresume⟩, fun v => ⟨rfl, hremember n t ht v⟩⟩
  · rw [Machine.argument_known fun t ht => hraw ⟨t, ht⟩]
    exact .done ⟨rfl, h⟩

theorem request (I : Invariant registry Inner P E) (he : Kept P E (eval registry k))
    (hw : Inner w) (h : P w m) (r : Request) :
    (r.perform (registry.context (eval registry k)) m).Follows False (Both P w)
      (fun e e' => e = e' ∧ E e) (r.perform (registry.context (eval registry k)) m) := by
  cases r with
  | argument n => exact I.argument he h n
  | evalHere src => exact .inr (he src w m m ⟨rfl, h⟩)
  | evalUnder label src =>
    obtain ⟨w', -, hpush, hpop⟩ := I.push h (.under label)
    refine .inr ((he src w' _ _ ⟨rfl, hpush⟩).pop ?_)
    rintro m₁ _ ⟨rfl, h₁⟩
    exact ⟨rfl, hpop m₁ h₁⟩
  | _ => exact .inr (Outcome.endsIn_iff.1 (I.perform hw h _ _ rfl))

theorem program (I : Invariant registry Inner P E) (he : Kept P E (eval registry k))
    (hw : Inner w) (h : P w m) {p : Program α}
    (hp : p.Within (fun _ => True) (fun _ => True) E) :
    (p.run (registry.context (eval registry k)) m).Follows False (Both P w)
      (fun e e' => e = e' ∧ E e) (p.run (registry.context (eval registry k)) m) := by
  refine Program.run_follows (R := Both P w) (fun m m' h _ _ _ => ⟨by rw [h.1], I.fault h.2 _ _ _⟩)
    (fun _ he => ⟨rfl, he⟩) (fun r _ => ?_) p hp ⟨rfl, h⟩
  rintro m _ ⟨rfl, h⟩
  exact I.request he hw h r

theorem coupling (I : Invariant registry Inner P E) (he : Kept P E (eval registry k)) :
    Coupling False registry k k (eval registry k) (eval registry k) Inner (Both P)
      (fun e e' => e = e' ∧ E e) (fun _ => Eq) where
  write {w m m'} h s := ⟨congrArg (·.write s) h.1, I.write h.2 s⟩
  fault h _ _ _ := ⟨by rw [h.1], I.fault h.2 _ _ _⟩
  rebind {w m m'} h n v := ⟨by rw [h.1], I.rebind h.2 n v⟩
  push {w m m' f f'} h hf := by
    obtain ⟨rfl, h⟩ := h
    obtain ⟨w', hinner, hpush, hpop⟩ := I.push h f
    refine ⟨w', hinner, ⟨by rw [hf], hpush⟩, ?_⟩
    rintro m₁ _ ⟨rfl, h₁⟩
    exact ⟨rfl, hpop m₁ h₁⟩
  raw _ h := by rw [h.1]
  argument {w m m'} _ h n := by
    obtain ⟨rfl, h⟩ := h
    exact I.argument he h n
  refer {w m m'} h {src src' c c'} _ n _ := by
    obtain ⟨rfl, h⟩ := h
    rw [Invocation.refer_eq]
    refine (I.argument he h n).andThen ?_
    rintro v m₁ _ ⟨rfl, h₁⟩
    exact .done ⟨rfl, I.write h₁ _⟩
  builtin {w m m'} hw h entry hentry := by
    refine Builtin.run_follows (fun m m' h => ?_) (.inl rfl) h
    obtain ⟨rfl, h⟩ := h
    exact I.program he hw h (I.own entry hentry)
  body {w m m'} _ h name := by
    obtain ⟨rfl, h⟩ := h
    rw [Invocation.body]
    split
    · exact .inr (he _ w _ _ ⟨rfl, I.dictionary h _⟩)
    · exact .failed ⟨rfl, I.fault h _ _ _⟩ ⟨rfl, h⟩

theorem kept (I : Invariant registry Inner P E) (k : Nat) : Kept P E (eval registry k) := by
  induction k with
  | zero => exact fun _ _ _ _ _ => .exhausted
  | succ k ih =>
    intro src w m m' h
    exact ((I.coupling ih).layout (.of_frames fun _ _ => rfl) (.refl (fun _ => rfl) _ _) h).related

theorem endsIn (I : Invariant registry Inner P E) (k : Nat) (src : Source) (h : P w m) :
    (eval registry k src m).EndsIn (P w) E :=
  Outcome.endsIn_iff.2 (I.kept k src w m m ⟨rfl, h⟩)

end Invariant

end TildeText
