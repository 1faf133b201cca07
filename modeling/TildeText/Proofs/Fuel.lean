import TildeText.Proofs.Simulation

namespace TildeText

abbrev Outcome.UpTo (x y : Outcome α) : Prop := x.Follows True Eq Eq y

namespace Outcome.UpTo

variable {x y : Outcome α}

theorem refl (x : Outcome α) : x.UpTo x := by
  cases x with
  | done a m => exact .done rfl
  | failed e m => exact .failed rfl rfl
  | exhausted => exact .exhausted

theorem eq (h : x.UpTo y) (hx : x ≠ .exhausted) : x = y :=
  Related.eq (h.resolve_left fun h => hx h.2)

end Outcome.UpTo

theorem Request.perform_context {r : Request} (hr : r.evaluates = false) (registry : Registry)
    (ev ev' : Source → Machine → Outcome Unit) (m : Machine) :
    r.perform (registry.context ev) m = r.perform (registry.context ev') m := by
  cases r with
  | argument n => cases hr
  | evalHere src => cases hr
  | evalUnder label src => cases hr
  | _ => rfl

section

variable {registry : Registry} {ev ev' : Source → Machine → Outcome Unit}

theorem Machine.argument_upTo (hev : ∀ src m, (ev src m).UpTo (ev' src m)) (m : Machine) (n : Nat) :
    (m.argument ev n).UpTo (m.argument ev' n) := by
  refine Machine.argument_follows rfl rfl (fun t _ => hev _ _) ?_
  rintro m₁ _ rfl
  exact ⟨rfl, rfl, fun _ => rfl⟩

theorem Request.perform_upTo (hev : ∀ src m, (ev src m).UpTo (ev' src m)) (r : Request)
    (m : Machine) :
    (r.perform (registry.context ev) m).UpTo (r.perform (registry.context ev') m) := by
  by_cases hr : r.evaluates = false
  · rw [r.perform_context hr registry ev ev']
    exact .refl _
  · cases r with
    | argument n => exact m.argument_upTo hev n
    | evalHere src => exact hev src m
    | evalUnder label src => exact (hev src _).pop fun _ _ h => congrArg Machine.pop h
    | _ => exact absurd rfl hr

theorem Program.run_upTo (hev : ∀ src m, (ev src m).UpTo (ev' src m)) (p : Program α)
    (m : Machine) : (p.run (registry.context ev) m).UpTo (p.run (registry.context ev') m) := by
  refine run_follows (Q := fun _ => True) (fun m m' h _ _ _ => by rw [h]) (fun _ _ => rfl)
    (fun r _ m m' h => ?_) p p.asksOnly rfl
  rw [← h]
  exact r.perform_upTo hev m

theorem coupling_upTo (hev : ∀ src m, (ev src m).UpTo (ev' src m)) {k k' : Nat} (hk : k ≤ k') :
    Coupling True registry k k' ev ev' (fun _ : Unit => True) (fun _ => Eq) Eq (fun _ => Eq) where
  write h s := by rw [h]
  fault h _ _ _ := by rw [h]
  rebind h n v := by rw [h]
  push {w m m' f f'} h hf := by
    subst h hf
    exact ⟨(), trivial, rfl, fun _ _ h => congrArg Machine.pop h⟩
  raw _ h := by rw [h]
  argument {w m m'} _ h n := by
    subst h
    exact m.argument_upTo hev n
  refer {w m m'} h {src src' c c'} _ n _ := by
    subst h
    rw [Invocation.refer_eq, Invocation.refer_eq]
    exact (m.argument_upTo hev n).andThen fun v _ _ h => .done (by rw [h])
  builtin {w m m'} _ h entry _ := by
    refine Builtin.run_follows (fun m m' h => ?_) (.inr ⟨trivial, hk⟩) h
    rw [← h]
    exact Program.run_upTo hev entry.2 m
  body {w m m'} _ h name := by
    subst h
    rw [Invocation.body, Invocation.body]
    split
    · exact hev _ _
    · exact .failed rfl rfl

end

variable {registry : Registry} {src : Source} {m : Machine}

theorem eval_upTo (h : n ≤ n') (src : Source) (m : Machine) :
    (eval registry n src m).UpTo (eval registry n' src m) := by
  induction n generalizing n' src m with
  | zero => exact .inl ⟨trivial, rfl⟩
  | succ n ih =>
    obtain ⟨n', rfl⟩ := Nat.exists_eq_succ_of_ne_zero (by omega : n' ≠ 0)
    have hn : n ≤ n' := Nat.le_of_succ_le_succ h
    exact (coupling_upTo (fun src m => ih hn src m) hn).layout (w := ())
      (.of_frames fun _ _ => rfl) (.refl (fun _ => rfl) _ _) rfl

theorem Program.run_agrees {p : Program α}
    (hn : p.run (registry.context (eval registry n)) m ≠ .exhausted)
    (hn' : p.run (registry.context (eval registry n')) m ≠ .exhausted) :
    p.run (registry.context (eval registry n)) m =
      p.run (registry.context (eval registry n')) m := by
  rcases Nat.le_total n n' with h | h
  · exact (p.run_upTo (eval_upTo h) m).eq hn
  · exact ((p.run_upTo (eval_upTo h) m).eq hn').symm

theorem eval_mono (h : n ≤ n') (hn : eval registry n src m ≠ .exhausted) :
    eval registry n' src m = eval registry n src m :=
  ((eval_upTo h src m).eq hn).symm

end TildeText
