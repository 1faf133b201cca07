import TildeText.Proofs.Faults
import TildeText.Proofs.Sequence

/-!
Two evaluations side by side, each with an evaluator of its own for the texts inside. A relation of
machines that holds on through what machines are put to holds on through the run of a layout: what
has to be shown for a relation is one field of `Coupling` for each thing that a run does to a
machine.

A relation comes with worlds. Evaluation goes into other frames and comes back, and the world that
it comes back to is the one that it left.
-/

namespace TildeText

namespace Outcome

/-- Outcomes that are the same up to related failures and related machines. -/
inductive Related (R : Machine → Machine → Prop) (F : Failure → Failure → Prop) :
    Outcome α → Outcome α → Prop
  | done {a : α} (h : R m m') : Related R F (.done a m) (.done a m')
  | failed (hf : F e e') (h : R m m') : Related R F (.failed e m) (.failed e' m')
  | exhausted : Related R F .exhausted .exhausted

/-- Outcomes that are related. If it is lax, nothing is asked where the first of them has run out of
fuel. -/
def Follows (lax : Prop) (R : Machine → Machine → Prop) (F : Failure → Failure → Prop)
    (x y : Outcome α) : Prop :=
  lax ∧ x = .exhausted ∨ x.Related R F y

namespace Related

variable {R R' : Machine → Machine → Prop} {F : Failure → Failure → Prop} {x y : Outcome α}

theorem imp (h : x.Related R F y) (hR : ∀ m m', R m m' → R' m m') : x.Related R' F y := by
  cases h with
  | done h => exact .done (hR _ _ h)
  | failed hf h => exact .failed hf (hR _ _ h)
  | exhausted => exact .exhausted

theorem pop (h : x.Related R F y) (hp : ∀ m m', R m m' → R' m.pop m'.pop) :
    x.pop.Related R' F y.pop := by
  cases h with
  | done h => exact .done (hp _ _ h)
  | failed hf h => exact .failed hf (hp _ _ h)
  | exhausted => exact .exhausted

theorem eq (h : x.Related Eq Eq y) : x = y := by
  cases h with
  | done h => rw [h]
  | failed hf h => rw [hf, h]
  | exhausted => rfl

end Related

namespace Follows

variable {lax : Prop} {R R' : Machine → Machine → Prop} {F : Failure → Failure → Prop}
  {x y : Outcome α}

theorem related (h : x.Follows False R F y) : x.Related R F y := h.resolve_left fun hx => hx.1

theorem done {a : α} (h : R m m') : (Outcome.done a m).Follows lax R F (.done a m') :=
  .inr (.done h)

theorem failed (hf : F e e') (h : R m m') :
    (Outcome.failed e m : Outcome α).Follows lax R F (.failed e' m') :=
  .inr (.failed hf h)

theorem exhausted : (Outcome.exhausted : Outcome α).Follows lax R F .exhausted := .inr .exhausted

theorem pop (h : x.Follows lax R F y) (hp : ∀ m m', R m m' → R' m.pop m'.pop) :
    x.pop.Follows lax R' F y.pop := by
  rcases h with ⟨hl, rfl⟩ | h
  · exact .inl ⟨hl, rfl⟩
  · exact .inr (h.pop hp)

theorem andThen (h : x.Follows lax R F y) {f g : α → Machine → Outcome β}
    (hfg : ∀ a m m', R m m' → (f a m).Follows lax R F (g a m')) :
    (x.andThen f).Follows lax R F (y.andThen g) := by
  rcases h with ⟨hl, rfl⟩ | h
  · exact .inl ⟨hl, rfl⟩
  · cases h with
    | done h => exact hfg _ _ _ h
    | failed hf h => exact failed hf h
    | exhausted => exact exhausted

theorem recalled {x y : Outcome Unit} (h : x.Follows lax R F y) {m m' : Machine} {n : Nat}
    (hback : ∀ m₁ m₁', R m₁ m₁' → m₁.out = m₁'.out ∧
      R' (m.resume m.scope.frame m₁) (m'.resume m'.scope.frame m₁') ∧
      ∀ v, R' (m.resume (m.scope.frame.remember n v) m₁)
        (m'.resume (m'.scope.frame.remember n v) m₁')) :
    (x.recalled m n).Follows lax R' F (y.recalled m' n) := by
  rcases h with ⟨hl, rfl⟩ | h
  · exact .inl ⟨hl, rfl⟩
  · cases h with
    | done h =>
      obtain ⟨hout, -, hremember⟩ := hback _ _ h
      simp only [Outcome.recalled, ← hout]
      exact done (hremember _)
    | failed hf h => exact failed hf (hback _ _ h).2.1
    | exhausted => exact exhausted

end Follows

end Outcome

theorem Machine.argument_follows {lax : Prop} {R R' : Machine → Machine → Prop}
    {F : Failure → Failure → Prop} {ev ev' : Source → Machine → Outcome Unit} {m m' : Machine}
    {n : Nat} (h : R' m m') (hslots : m.scope.frame.slots = m'.scope.frame.slots)
    (hev : ∀ t, m.scope.frame.slots[n]? = some { text := some t } →
      (ev { bytes := t } m.aside).Follows lax R F (ev' { bytes := t } m'.aside))
    (hback : ∀ m₁ m₁', R m₁ m₁' → m₁.out = m₁'.out ∧
      R' (m.resume m.scope.frame m₁) (m'.resume m'.scope.frame m₁') ∧
      ∀ v, R' (m.resume (m.scope.frame.remember n v) m₁)
        (m'.resume (m'.scope.frame.remember n v) m₁')) :
    (m.argument ev n).Follows lax R' F (m'.argument ev' n) := by
  by_cases hraw : ∃ t, m.scope.frame.slots[n]? = some { text := some t }
  · obtain ⟨t, ht⟩ := hraw
    rw [argument_raw ht, argument_raw (hslots ▸ ht)]
    exact (hev t ht).recalled hback
  · have hknown : ∀ t, m.scope.frame.slots[n]? ≠ some { text := some t } :=
      fun t ht => hraw ⟨t, ht⟩
    rw [argument_known hknown, argument_known (hslots ▸ hknown), ← hslots]
    exact .done h

section Programs

variable {lax : Prop} {R : Machine → Machine → Prop} {F : Failure → Failure → Prop}
  {ctx ctx' : Context} {m m' : Machine}

theorem Program.run_follows {Q : Request → Prop} {E : Failure → Prop}
    (hfault : ∀ m m', R m m' → ∀ kind evidence cause,
      F (m.fault kind evidence cause) (m'.fault kind evidence cause))
    (hown : ∀ e, E e → F e e)
    (hask : ∀ r, Q r → ∀ m m', R m m' → (r.perform ctx m).Follows lax R F (r.perform ctx' m'))
    (p : Program α) (hp : p.Within Q (fun _ => True) E) (h : R m m') :
    (p.run ctx m).Follows lax R F (p.run ctx' m') := by
  induction p generalizing m m' with
  | done a => exact .done h
  | fail kind evidence cause => exact .failed (hfault m m' h kind evidence cause) h
  | abort p => exact .failed (hown _ hp) h
  | crash start size short => exact .failed (hown _ hp) h
  | ask r next ih =>
    rw [run_ask, run_ask]
    exact (hask r hp.1 m m' h).andThen fun a m₁ m₁' h₁ => ih a (hp.2 a) h₁

theorem Builtin.run_follows {b : Builtin}
    (hb : ∀ m m', R m m' → (Program.run ctx b m).Follows lax R F (Program.run ctx' b m'))
    {k k' : Nat} (hk : k = k' ∨ lax ∧ k ≤ k') (h : R m m') :
    (b.run ctx k m).Follows lax R F (b.run ctx' k' m') := by
  induction k generalizing k' m m' with
  | zero =>
    rcases hk with rfl | ⟨hl, -⟩
    · exact .exhausted
    · exact .inl ⟨hl, rfl⟩
  | succ k ih =>
    obtain ⟨k', rfl⟩ : ∃ j, k' = j + 1 := Nat.exists_eq_succ_of_ne_zero (by omega)
    have hk : k = k' ∨ lax ∧ k ≤ k' := hk.imp (by omega) (And.imp_right (by omega))
    rw [Builtin.run, Builtin.run]
    rcases hb m m' h with ⟨hl, hx⟩ | h₁
    · rw [hx]
      exact .inl ⟨hl, rfl⟩
    · generalize Program.run ctx b m = x, Program.run ctx' b m' = y at h₁
      cases h₁ with
      | @done _ _ verdict h₁ =>
        cases verdict with
        | finished => exact .done h₁
        | matched d => exact .done h₁
        | again => exact ih hk h₁
      | failed hf h₁ => exact .failed hf h₁
      | exhausted => exact .exhausted

end Programs

inductive Segment.Alike (G : Frame → Frame → Prop) (src src' : Source) :
    List Segment → List Segment → Prop
  | nil : Alike G src src' [] []
  | literal (h : Alike G src src' xs ys) : Alike G src src' (.literal t :: xs) (.literal t :: ys)
  | call {c c' : Call} (hc : c.args = c'.args) (hf : G (c.frame src) (c'.frame src'))
      (h : Alike G src src' xs ys) : Alike G src src' (.call c :: xs) (.call c' :: ys)

theorem Segment.Alike.of_frames {G : Frame → Frame → Prop} {src src' : Source} {xs : List Segment}
    (h : ∀ c, .call c ∈ xs → G (c.frame src) (c.frame src')) : Alike G src src' xs xs := by
  induction xs with
  | nil => exact .nil
  | cons x xs ih =>
    have hxs := ih fun c hc => h c (List.mem_cons_of_mem x hc)
    cases x with
    | literal t => exact .literal hxs
    | call c => exact .call rfl (h c List.mem_cons_self) hxs

inductive Defect.Alike (G : Frame → Frame → Prop) (src src' : Source) :
    Option Defect → Option Defect → Prop
  | none : Alike G src src' none none
  | shortClose {o o' : Opened} (hf : G (o.frame src) (o'.frame src')) :
      Alike G src src' (some (.shortClose o)) (some (.shortClose o'))
  | missingClose {o o' : Opened} (hf : G (o.frame src) (o'.frame src')) :
      Alike G src src' (some (.missingClose o)) (some (.missingClose o'))
  | extraClose (hf : G { origin := some ⟨src, k⟩ } { origin := some ⟨src', k'⟩ }) :
      Alike G src src' (some (.extraClose k)) (some (.extraClose k'))

theorem Defect.Alike.refl {G : Frame → Frame → Prop} (hG : ∀ f, G f f) (src : Source)
    (d : Option Defect) : Alike G src src d d := by
  cases d with
  | none => exact .none
  | some d =>
    cases d with
    | shortClose o => exact .shortClose (hG _)
    | missingClose o => exact .missingClose (hG _)
    | extraClose k => exact .extraClose (hG _)

/-- A relation of machines, in each world, that a run of two layouts keeps up. The frames that are
put into the machines are related as well, as they have to be in the world. A world is an inner one
if its innermost frame is that of an invocation which is being carried out. -/
structure Coupling (lax : Prop) (registry : Registry) (k k' : Nat)
    (ev ev' : Source → Machine → Outcome Unit) (Inner : World → Prop)
    (R : World → Machine → Machine → Prop) (F : Failure → Failure → Prop)
    (G : World → Frame → Frame → Prop) : Prop where
  write : R w m m' → ∀ s, R w (m.write s) (m'.write s)
  fault : R w m m' → ∀ kind evidence cause,
    F (m.fault kind evidence cause) (m'.fault kind evidence cause)
  rebind : R w m m' → ∀ n v, R w (m.mapFrame (·.rebind n v)) (m'.mapFrame (·.rebind n v))
  push : R w m m' → G w f f' → ∃ w', Inner w' ∧ R w' (m.push f) (m'.push f') ∧
    ∀ m₁ m₁', R w' m₁ m₁' → R w m₁.pop m₁'.pop
  raw : Inner w → R w m m' → m.scope.frame.raw 0 = m'.scope.frame.raw 0
  argument : Inner w → R w m m' → ∀ n,
    (m.argument ev n).Follows lax (R w) F (m'.argument ev' n)
  refer : R w m m' → ∀ {src src' : Source} {c c' : Call}, G w (c.frame src) (c'.frame src') →
    ∀ n, c.index? = some n →
      (Invocation.refer ev n m).Follows lax (R w) F (Invocation.refer ev' n m')
  builtin : Inner w → R w m m' → ∀ entry ∈ registry,
    (Builtin.run (registry.context ev) entry.2 k m).Follows lax (R w) F
      (Builtin.run (registry.context ev') entry.2 k' m')
  body : Inner w → R w m m' → ∀ name,
    (Invocation.body ev name m).Follows lax (R w) F (Invocation.body ev' name m')

namespace Coupling

variable {lax : Prop} {registry : Registry} {k k' : Nat} {ev ev' : Source → Machine → Outcome Unit}
  {Inner : World → Prop} {R : World → Machine → Machine → Prop} {F : Failure → Failure → Prop}
  {G : World → Frame → Frame → Prop} {w : World} {m m' : Machine} {f f' : Frame}

theorem rebinding (C : Coupling lax registry k k' ev ev' Inner R F G) (h : R w m m')
    (hf : G w f f') (n : Nat) :
    (Invocation.rebind ev n (m.push f)).Follows lax (R w) F
      (Invocation.rebind ev' n (m'.push f')) := by
  obtain ⟨w', hinner, hpush, hpop⟩ := C.push h hf
  rw [Invocation.rebind_eq, Invocation.rebind_eq]
  have hvalue : (Invocation.newValue ev n (m.push f)).Follows lax (R w') F
      (Invocation.newValue ev' n (m'.push f')) := by
    refine (C.argument hinner hpush 1).andThen fun v m₁ m₁' h₁ => ?_
    split
    · exact .done h₁
    · rw [C.raw hinner h₁]
      exact .failed (C.fault h₁ _ _ _) h₁
  exact (hvalue.pop hpop).andThen fun v m₁ m₁' h₁ => .done (C.rebind h₁ n v)

theorem handOver (C : Coupling lax registry k k' ev ev' Inner R F G) (h : R w m m')
    (d : Option (Option Bytes)) : R w (m.handOver d) (m'.handOver d) := by
  cases d with
  | none => exact h
  | some d => exact C.rebind h 0 d

theorem byName (C : Coupling lax registry k k' ev ev' Inner R F G) (h : R w m m')
    (hf : G w f f') :
    (Invocation.byName registry k ev (m.push f)).Follows lax (R w) F
      (Invocation.byName registry k' ev' (m'.push f')) := by
  obtain ⟨w', hinner, hpush, hpop⟩ := C.push h hf
  rw [Invocation.byName_eq, Invocation.byName_eq]
  have hframe : (Invocation.inFrame registry k ev (m.push f)).Follows lax (R w') F
      (Invocation.inFrame registry k' ev' (m'.push f')) := by
    refine (C.argument hinner hpush 0).andThen fun name m₁ m₁' h₁ => ?_
    cases hb : registry.lookup (name.getD []) with
    | some b => exact C.builtin hinner h₁ _ (Registry.mem_of_lookup hb)
    | none => exact (C.body hinner h₁ _).andThen fun _ _ _ h₂ => .done h₂
  exact (hframe.pop hpop).andThen fun d m₁ m₁' h₁ => .done (C.handOver h₁ d)

theorem carryOut (C : Coupling lax registry k k' ev ev' Inner R F G) {src src' : Source}
    {c c' : Call} (hc : c.args = c'.args) (hf : G w (c.frame src) (c'.frame src')) (h : R w m m') :
    (Invocation.carryOut registry k ev src c m).Follows lax (R w) F
      (Invocation.carryOut registry k' ev' src' c' m') := by
  have hindex : c.index? = c'.index? := by rw [Call.index?, Call.index?, hc]
  rw [Invocation.carryOut, Invocation.carryOut, ← hindex, ← hc]
  split
  · rename_i n hn
    split
    · exact C.refer h hf n hn
    · exact C.rebinding h hf n
  · exact C.byName h hf

theorem segments (C : Coupling lax registry k k' ev ev' Inner R F G) {src src' : Source}
    {xs ys : List Segment} (hxs : Segment.Alike (G w) src src' xs ys) (h : R w m m') :
    (Segment.runAll (Invocation.carryOut registry k ev src) xs m).Follows lax (R w) F
      (Segment.runAll (Invocation.carryOut registry k' ev' src') ys m') := by
  induction hxs generalizing m m' with
  | nil => exact .done h
  | literal _ ih => exact ih (C.write h _)
  | call hc hf _ ih =>
    rw [Segment.runAll_call, Segment.runAll_call]
    exact (C.carryOut hc hf h).andThen fun _ _ _ h₁ => ih h₁

theorem faultUnder (C : Coupling lax registry k k' ev ev' Inner R F G) (h : R w m m')
    (hf : G w f f') (kind : Kind) : F ((m.push f).fault kind) ((m'.push f').fault kind) := by
  obtain ⟨w', -, hpush, -⟩ := C.push h hf
  exact C.fault hpush _ _ _

theorem layout (C : Coupling lax registry k k' ev ev' Inner R F G) {src src' : Source}
    {l l' : Layout} (hs : Segment.Alike (G w) src src' l.segments l'.segments)
    (hd : Defect.Alike (G w) src src' l.defect l'.defect) (h : R w m m') :
    (l.run (Invocation.carryOut registry k ev src) src m).Follows lax (R w) F
      (l'.run (Invocation.carryOut registry k' ev' src') src' m') := by
  rw [Layout.run_eq, Layout.run_eq]
  refine (C.segments hs h).andThen fun _ m₁ m₁' h₁ => ?_
  generalize l.defect = d, l'.defect = d' at hd
  cases hd with
  | none => exact .done h₁
  | shortClose hf => exact .failed (C.faultUnder h₁ hf _) h₁
  | missingClose hf => exact .failed (C.faultUnder h₁ hf _) h₁
  | extraClose hf => exact .failed (C.faultUnder h₁ hf _) h₁

end Coupling

end TildeText
