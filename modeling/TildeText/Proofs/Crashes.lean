import TildeText.Proofs.Fuel
import TildeText.Proofs.Matching
import TildeText.Proofs.Tracking

/-!
Where evaluation crashes. Of the standard builtins only `last` can do so by itself: it looks for its
delimiters one after the other, and the evaluation of one can shorten the variable so that a match
that was found before reaches beyond its end.
-/

namespace TildeText

namespace Outcome

def Returns : Outcome α → Prop
  | .done _ _ => True
  | .failed e _ => e.isCrash = false
  | .exhausted => False

def Crashes : Outcome α → Prop
  | .failed e _ => e.isCrash = true
  | _ => False

theorem returns_iff {x : Outcome α} (h : x ≠ .exhausted) : x.Returns ↔ ¬ x.Crashes := by
  cases x with
  | done a m => exact iff_of_true trivial id
  | failed e m => exact Bool.not_eq_true _ ▸ Iff.rfl
  | exhausted => exact absurd rfl h

end Outcome

/-- A run of `last` that has found a match by the time that all delimiters are evaluated, of which
the variable then holds no longer all. -/
def Execution.CutsShort (registry : Registry) (e : Execution) : Prop :=
  e.name = utf8 "last" ∧ ∃ n h b m,
    (Builtin.locate Bytes.lastIndex? (· > ·)).run (registry.context (eval registry n)) e.before =
      .done (h, some b) m ∧
    (m.table.value h).length < b.stop

/-- Something that ends in a crash if and only if a logged run cuts short. -/
def Crashed (registry : Registry) (_ : Machine) (l : List Execution) (x : Outcome α) : Prop :=
  x ≠ .exhausted → (x.Crashes ↔ ∃ e ∈ l, e.CutsShort registry)

theorem Machine.report_not_crashes (m : Machine) (records : List Bytes) :
    ¬ (m.report records).Crashes := by
  obtain ⟨w, hw | ⟨p, hw⟩⟩ := m.report_cases records
  · rw [hw]
    exact id
  · rw [hw]
    exact Bool.false_ne_true

theorem Request.perform_not_crashes {r : Request} (hr : r.evaluates = false) (ctx : Context)
    (m : Machine) : ¬ (r.perform ctx m).Crashes := by
  cases r with
  | argument n => cases hr
  | evalHere src => cases hr
  | evalUnder label src => cases hr
  | print s => exact m.report_not_crashes _
  | dump => exact m.report_not_crashes _
  | _ => exact id

namespace Crashed

variable {registry : Registry}

theorem quiet {m : Machine} {x : Outcome α} (h : ¬ x.Crashes) : Crashed registry m [] x :=
  fun _ => iff_of_false h (by simp)

theorem afterDone {m m₁ : Machine} {l l' : List Execution} {a : α} {x : Outcome β}
    (h : Crashed registry m l (.done a m₁)) (hx : Crashed registry m₁ l' x) :
    Crashed registry m (l ++ l') x := by
  intro hne
  have hl : ¬ ∃ e ∈ l, e.CutsShort registry := fun hcut => (h nofun).2 hcut
  simp only [hx hne, List.mem_append, or_and_right, exists_or]
  exact (or_iff_right hl).symm

theorem cons {m : Machine} {l : List Execution} {x : Outcome α} {e : Execution}
    (he : ¬ e.CutsShort registry) (h : Crashed registry m l x) :
    Crashed registry m (e :: l) x := by
  intro hne
  simp only [h hne, List.mem_cons, or_and_right, exists_or, exists_eq_left]
  exact (or_iff_right he).symm

theorem tracking : Tracking (Crashed registry) (fun _ => True) (fun e => e.isCrash = false)
    (utf8 "last") where
  done _ _ _ _ := quiet id
  failed he _ := quiet (by simp [Outcome.Crashes, he])
  fault _ := rfl
  exhausted _ := quiet id
  request _ he ctx m := quiet (Request.perform_not_crashes he ctx m)
  andThen {α β m l x f g} h hfg := by
    cases x with
    | done a m₁ => exact h.afterDone (hfg a m₁)
    | failed e m₁ => exact fun _ => (List.append_nil l).symm ▸ h nofun
    | exhausted => exact fun hx => absurd rfl hx
  congr {α β m m' l x y} h _ hxy hy := by
    cases x <;> cases y <;> first | exact hxy.elim | skip
    · exact h nofun
    · rw [← h nofun, Outcome.Crashes, Outcome.Crashes, hxy.1]
    · exact absurd rfl hy
  other hname _ _ _ h := h.cons fun hcut => hname hcut.1

end Crashed

theorem Program.log_bind (inner : Source → Machine → List Execution) (ctx : Context)
    (p : Program α) (f : α → Program β) (m : Machine) :
    (p >>= f).log inner ctx m =
      p.log inner ctx m ++ (p.run ctx m).thenLog fun a m₁ => (f a).log inner ctx m₁ := by
  change (p.bind f).log inner ctx m = _
  induction p generalizing m with
  | done a => rfl
  | fail kind evidence cause => rfl
  | abort p => rfl
  | crash start size short => rfl
  | ask r next ih =>
    rw [Program.bind, log, log, run_ask]
    cases r.perform ctx m with
    | done a m₁ => simp only [Outcome.thenLog, Outcome.andThen, ih, List.append_assoc]
    | failed e m₁ => simp [Outcome.thenLog, Outcome.andThen]
    | exhausted => simp [Outcome.thenLog, Outcome.andThen]

namespace Builtin

variable {registry : Registry} {k : Nat} {m : Machine}

theorem cutsShort_iff {x : Outcome (Handle × Option Match)} {y : Outcome Verdict}
    (hx : (locate Bytes.lastIndex? (· > ·)).run (registry.context (eval registry k)) m = x)
    (hne : x ≠ .exhausted) :
    (⟨utf8 "last", m, y⟩ : Execution).CutsShort registry ↔
      ∃ h b m', x = .done (h, some b) m' ∧ (m'.table.value h).length < b.stop := by
  constructor
  · rintro ⟨-, n, h, b, m', hrun, hshort⟩
    refine ⟨h, b, m', ?_, hshort⟩
    rw [← hx] at hne ⊢
    rw [← hrun]
    exact Program.run_agrees hne (by rw [hrun]; nofun)
  · rintro ⟨h, b, m', rfl, hshort⟩
    exact ⟨rfl, k, h, b, m', hx, hshort⟩

theorem log_behind (inner : Source → Machine → List Execution) (ctx : Context) (m : Machine)
    (h : Handle) (b : Match) : (behind h b).log inner ctx m = [] := by
  change Program.log inner ctx (if short : (m.table.value h).length < b.stop then _ else _) m = []
  split <;> rfl

theorem last_crashed (hev : ∀ src m, Crashed registry m (evalLog registry k src m)
      (eval registry k src m)) (m : Machine) :
    Crashed registry m
      (⟨utf8 "last", m, Program.run (registry.context (eval registry k)) last m⟩ ::
        Program.log (evalLog registry k) (registry.context (eval registry k)) last m)
      (Program.run (registry.context (eval registry k)) last m) := by
  let ctx := registry.context (eval registry k)
  have hlocate : Crashed registry m
      ((locate Bytes.lastIndex? (· > ·)).log (evalLog registry k) ctx m)
      ((locate Bytes.lastIndex? (· > ·)).run ctx m) :=
    Crashed.tracking.program hev _
      (locate_within (fun _ _ => trivial) (fun _ => trivial) (fun _ => trivial) trivial trivial _ _)
      m
  rw [last, takeAt, Program.run_seq, Program.log_bind]
  cases hx : (locate Bytes.lastIndex? (· > ·)).run ctx m with
  | exhausted => exact fun hne => absurd rfl hne
  | failed e m₁ =>
    rw [hx] at hlocate
    have hcut := cutsShort_iff (y := .failed e m₁) hx nofun
    refine Crashed.cons (fun h => ?_) ?_
    · obtain ⟨_, _, _, h, -⟩ := hcut.1 h
      cases h
    · exact fun _ => (List.append_nil _).symm ▸ hlocate nofun
  | done found m₁ =>
    obtain ⟨h, best⟩ := found
    rw [hx] at hlocate
    have hcut := cutsShort_iff (y := Program.run ctx last m) hx nofun
    have hrest {p : Program Verdict} (hp : p.Within (fun _ => True) (fun _ => True)
        fun e => e.isCrash = false) (m₁ : Machine) :
        Crashed registry m₁ (p.log (evalLog registry k) ctx m₁) (p.run ctx m₁) :=
      Crashed.tracking.program hev _ hp m₁
    cases best with
    | none =>
      refine Crashed.cons (fun h => ?_) (hlocate.afterDone (hrest ?_ m₁))
      · obtain ⟨_, _, _, h, -⟩ := hcut.1 h
        cases h
      · exact .bind (.ask trivial) fun _ => .bind (.ask trivial) fun _ =>
          .bind (.ask trivial) fun _ => .pure _
    | some b =>
      rw [Outcome.andThen, Outcome.thenLog]
      dsimp only
      rw [Program.run_seq, Program.log_bind, run_behind, log_behind, List.nil_append]
      by_cases hshort : (m₁.table.value h).length < b.stop
      · rw [dif_pos hshort]
        exact fun _ => iff_of_true rfl ⟨_, List.mem_cons_self, hcut.2 ⟨h, b, m₁, rfl, hshort⟩⟩
      · rw [dif_neg hshort]
        refine Crashed.cons (fun h => ?_) (hlocate.afterDone (hrest ?_ m₁))
        · obtain ⟨_, _, _, h, hshort'⟩ := hcut.1 h
          cases h
          exact hshort hshort'
        · exact .bind (.ask trivial) fun _ => .bind (.ask trivial) fun _ =>
            .bind (.ask trivial) fun _ => .pure _

end Builtin

namespace Registry

def CrashesInLast (registry : Registry) : Prop :=
  ∀ name b, registry.lookup name = some b →
    (name = utf8 "last" ∧ b = Builtin.last) ∨
    (name ≠ utf8 "last" ∧
      Program.Within (fun _ => True) (fun _ => True) b fun e => e.isCrash = false)

open Builtin in
theorem standard_crashesInLast : standard.CrashesInLast := by
  intro name b hb
  have hQ (r : Request) : r.isCommon = true → True := fun _ => trivial
  by_cases hname : name = utf8 "last"
  · subst hname
    exact .inl ⟨rfl, Option.some.inj hb.symm⟩
  · refine .inr ⟨hname, ?_⟩
    rcases standard_cases (P := fun _ => True) (fun _ _ => trivial) _ (mem_of_lookup hb) with
      hs | hordinary
    · simp only [special, List.mem_cons, List.not_mem_nil, or_false, Prod.mk.injEq] at hs
      rcases hs with ⟨-, rfl⟩ | ⟨-, rfl⟩ | ⟨-, rfl⟩ | ⟨-, rfl⟩ | ⟨-, rfl⟩ | ⟨-, rfl⟩ | ⟨hn, -⟩ |
        ⟨-, rfl⟩ | ⟨-, rfl⟩
      · exact append_within hQ (fun _ => trivial) (fun _ => trivial) (fun _ _ => trivial) trivial
      · exact define_within hQ (fun _ _ => trivial) trivial
      · exact evalText_within trivial fun _ => trivial
      · exact takeAt_within hQ (fun _ => trivial) (fun _ => trivial) (fun _ _ => trivial) trivial
          trivial _ _ (before_within fun _ => trivial) _
      · exact gensym_within trivial fun _ => trivial
      · exact includeFile_within trivial trivial (fun _ => trivial) fun _ => trivial
      · exact absurd hn hname
      · exact loop_within hQ
      · exact set_within hQ (fun _ _ => trivial) trivial
    · exact hordinary.within.imp (fun _ _ => trivial) (fun _ => id) fun _ => False.elim

end Registry

theorem eval_crashed {registry : Registry} (hr : registry.CrashesInLast) (n : Nat) (src : Source)
    (m : Machine) : Crashed registry m (evalLog registry n src m) (eval registry n src m) := by
  refine Crashed.tracking.eval (fun k hev name b hb n m => ?_) n src m
  rcases hr name b hb with ⟨rfl, rfl⟩ | ⟨hname, hwithin⟩
  · exact Crashed.tracking.rounds (Builtin.last_crashed hev) n m
  · exact Crashed.tracking.builtin hev _ hname hwithin n m

end TildeText
