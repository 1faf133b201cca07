import TildeText.Proofs.Handles
import TildeText.Proofs.Indirection

/-!
Evaluations that end. With more and more fuel, their outcomes come to be the same. Whether the
evaluation of a text ends depends on the raw texts in the frames that it is evaluated in, as these
may be evaluated for it, each in the frames around its own.
-/

namespace TildeText

namespace Outcome

def Ends (D : α → Prop) (P : Machine → Prop) : Outcome α → Prop
  | .done a m => D a ∧ P m
  | .failed _ m => P m
  | .exhausted => False

def Settles (D : α → Prop) (P : Machine → Prop) (f : Nat → Outcome α) : Prop :=
  ∃ x : Outcome α, x.Ends D P ∧ ∃ k, ∀ n, k ≤ n → f n = x

namespace Settles

variable {D : α → Prop} {P P' : Machine → Prop} {f : Nat → Outcome α}

theorem of_ends {x : Outcome α} (hx : x.Ends D P) : Settles D P fun _ => x :=
  ⟨x, hx, 0, fun _ _ => rfl⟩

theorem done {a : α} {m : Machine} (ha : D a) (h : P m) : Settles D P fun _ => .done a m :=
  of_ends ⟨ha, h⟩

theorem failed {m : Machine} (h : P m) (e : Failure) : Settles D P fun _ => .failed e m :=
  of_ends h

theorem succ (h : Settles D P fun n => f (n + 1)) : Settles D P f := by
  obtain ⟨x, hx, k, hk⟩ := h
  refine ⟨x, hx, k + 1, fun n hn => ?_⟩
  obtain ⟨n, rfl⟩ := Nat.exists_eq_add_of_le' (Nat.le_of_add_left_le hn)
  exact hk n (Nat.le_of_succ_le_succ hn)

theorem later (h : Settles D P f) : Settles D P fun n => f (n + 1) := by
  obtain ⟨x, hx, k, hk⟩ := h
  exact ⟨x, hx, k, fun n hn => hk (n + 1) (Nat.le_succ_of_le hn)⟩

theorem pop (h : Settles D P f) (hp : ∀ m, P m → P' m.pop) :
    Settles D P' fun n => (f n).pop := by
  obtain ⟨x, hx, k, hk⟩ := h
  refine ⟨x.pop, ?_, k, fun n hn => congrArg Outcome.pop (hk n hn)⟩
  cases x with
  | done a m => exact ⟨hx.1, hp m hx.2⟩
  | failed e m => exact hp m hx
  | exhausted => exact hx

theorem andThen (h : Settles D P f) {D' : β → Prop} {g : Nat → α → Machine → Outcome β}
    (hg : ∀ a m, D a → P m → Settles D' P fun n => g n a m) :
    Settles D' P fun n => (f n).andThen (g n) := by
  obtain ⟨x, hx, k, hk⟩ := h
  cases x with
  | done a m =>
    obtain ⟨y, hy, k', hk'⟩ := hg a m hx.1 hx.2
    refine ⟨y, hy, max k k', fun n hn => ?_⟩
    have hf : f n = .done a m := hk n (le_of_max_le_left hn)
    calc (f n).andThen (g n) = g n a m := by rw [hf, Outcome.andThen]
      _ = y := hk' n (le_of_max_le_right hn)
  | failed e m =>
    exact ⟨.failed e m, hx, k, fun n hn => congrArg (Outcome.andThen · (g n)) (hk n hn)⟩
  | exhausted => exact hx.elim

theorem recalled {f : Nat → Outcome Unit} (h : Settles (fun _ => True) P f) {m : Machine} {i : Nat}
    (hback : ∀ m₁, P m₁ → P' (m.resume m.scope.frame m₁) ∧
      ∀ v, P' (m.resume (m.scope.frame.remember i v) m₁)) :
    Settles (fun _ => True) P' fun n => (f n).recalled m i := by
  obtain ⟨x, hx, k, hk⟩ := h
  refine ⟨x.recalled m i, ?_, k, fun n hn => congrArg (Outcome.recalled m i) (hk n hn)⟩
  cases x with
  | done a m₁ => exact ⟨trivial, (hback m₁ hx.2).2 _⟩
  | failed e m₁ => exact (hback m₁ hx).1
  | exhausted => exact hx

theorem exists_fuel (h : Settles D P f) :
    ∃ k, f k ≠ .exhausted ∧ ∀ n, k ≤ n → f n = f k := by
  obtain ⟨x, hx, k, hk⟩ := h
  have hxk := hk k k.le_refl
  refine ⟨k, fun hfuel => ?_, fun n hn => (hk n hn).trans hxk.symm⟩
  rw [← hxk, hfuel] at hx
  exact hx

end Settles

end Outcome

/-- A text in which nothing is opened. -/
def Bytes.OpensNothing (s : Bytes) : Prop := ¬ [Token.lt, Token.tilde] <:+: s

instance (s : Bytes) : Decidable s.OpensNothing := inferInstanceAs (Decidable (¬ _))

theorem Bytes.OpensNothing.of_part {s t : Bytes} (h : s.OpensNothing) (ht : t <:+: s) :
    t.OpensNothing :=
  fun hopen => h (hopen.trans ht)

theorem Bytes.OpensNothing.not_call {s : Bytes} (h : s.OpensNothing) (c : Call) :
    .call c ∉ s.layout.segments := by
  intro hc
  obtain ⟨before, after, hseg⟩ := List.append_of_mem hc
  obtain ⟨n, hn⟩ := Nat.exists_eq_succ_of_ne_zero (Nat.pos_iff_ne_zero.1 (call_standsAt hseg).width)
  have hopen : [Token.lt, Token.tilde] <+: c.render := by
    simp [Call.render, hn, List.replicate_succ]
  exact h (hopen.isInfix.trans (infix_of_call hc))

namespace Table

def Flat (t : Table) : Prop := ∀ name, ∀ e ∈ t.chain name, e.value.OpensNothing

namespace Flat

variable {t : Table}

theorem of_entries (h : ∀ e ∈ t.entries, e.value.OpensNothing) : t.Flat := by
  intro name e he
  refine h e (List.mem_flatten.2 ⟨t.chain name, ?_, he⟩)
  exact Vector.mem_toList_iff.2 (Vector.getElem_mem _)

theorem delete (h : t.Flat) (name : Bytes) : (t.delete name).2.Flat := by
  intro n e he
  cases hf : t.find? name with
  | none =>
    rw [Table.delete, hf] at he
    exact h n e he
  | some e₀ =>
    rw [chain_delete hf] at he
    split at he
    · exact h n e (List.mem_of_mem_eraseP he)
    · exact h n e he

theorem setValue (h : t.Flat) {g : Handle} {v : Bytes} (hv : v <:+: t.value g) :
    (t.setValue g v).Flat := by
  intro n e he
  rw [chain_setValue] at he
  split at he
  · rename_i hb
    obtain ⟨e₀, he₀, rfl⟩ := List.mem_map.1 he
    by_cases hg : e₀.handle = g
    · rw [Entry.setValue_of_handle hg]
      rw [← chain_congr hb] at he₀
      obtain ⟨e₁, he₁⟩ : ∃ e₁, (t.chain g.name).find? (·.handle == g) = some e₁ :=
        Option.isSome_iff_exists.1 (List.find?_isSome.2 ⟨e₀, he₀, by simpa using hg⟩)
      have hvalue : t.value g = e₁.value := by
        rw [value, entryAt?, he₁, Option.some_or, Option.elim_some]
      exact (h _ e₁ (List.mem_of_find?_eq_some he₁)).of_part (hvalue ▸ hv)
    · rw [Entry.setValue_of_ne hg]
      exact h n e₀ he₀
  · exact h n e he

end Flat

end Table

/-- What raw texts there may be in the frames of a scope. -/
structure Supply where
  frame : Bytes → Prop
  outer : List (Bytes → Prop) := []

namespace Supply

def none : Supply := ⟨fun _ => False, []⟩

def push (w : Supply) (P : Bytes → Prop) : Supply := ⟨P, w.frame :: w.outer⟩

def around (w : Supply) : Supply :=
  match w.outer with
  | [] => none
  | P :: rest => ⟨P, rest⟩

structure Covers (w : Supply) (s : Scope) : Prop where
  frame : Slot.Texts w.frame s.frame.slots
  outer : List.Forall₂ (fun P f => Slot.Texts P f.slots) w.outer s.outer

def any (s : Scope) : Supply := ⟨fun _ => True, s.outer.map fun _ _ => True⟩

theorem covers_any (s : Scope) : (any s).Covers s := by
  refine ⟨fun _ _ _ _ => trivial, ?_⟩
  rw [any, List.forall₂_map_left_iff, List.forall₂_same]
  exact fun _ _ _ _ _ _ => trivial

namespace Covers

variable {w : Supply} {s s₁ : Scope} {f : Frame}

theorem push (h : w.Covers s) {P : Bytes → Prop} (hf : Slot.Texts P f.slots) :
    (w.push P).Covers (s.push f) :=
  ⟨hf, .cons h.frame h.outer⟩

theorem around (h : w.Covers s) : w.around.Covers s.around := by
  obtain ⟨P, Ps⟩ := w
  obtain ⟨frame, outer⟩ := s
  obtain ⟨-, houter⟩ := h
  cases houter with
  | nil => exact ⟨by simp [Scope.around, Frame.empty, Slot.Texts], .nil⟩
  | cons hf hrest => exact ⟨hf, hrest⟩

theorem within (h : w.Covers s) (hf : Slot.Texts w.frame f.slots) (h₁ : w.around.Covers s₁) :
    w.Covers (s.within f s₁) := by
  obtain ⟨P, Ps⟩ := w
  obtain ⟨frame, outer⟩ := s
  obtain ⟨-, houter⟩ := h
  cases houter with
  | nil => exact ⟨hf, .nil⟩
  | cons _ hrest => exact h₁.push hf

end Covers

end Supply

structure Machine.Confined (w : Supply) (m : Machine) : Prop where
  scope : w.Covers m.scope
  table : m.table.Flat
  library : m.state.dictionary.library.directories = []

namespace Machine.Confined

variable {w : Supply} {m m₁ : Machine}

theorem write (h : m.Confined w) (s : Bytes) : (m.write s).Confined w :=
  ⟨h.scope, h.table, h.library⟩

theorem setTable (h : m.Confined w) {t : Table} (ht : t.Flat) : (m.setTable t).Confined w :=
  ⟨h.scope, ht, h.library⟩

theorem mapFrame (h : m.Confined w) {f : Frame → Frame}
    (hf : Slot.Texts w.frame (f m.scope.frame).slots) : (m.mapFrame f).Confined w :=
  ⟨⟨hf, h.scope.outer⟩, h.table, h.library⟩

theorem rebind (h : m.Confined w) (n : Nat) (v : Option Bytes) :
    (m.mapFrame (·.rebind n v)).Confined w :=
  h.mapFrame (h.scope.frame.rebind _ _ _)

theorem push (h : m.Confined w) {P : Bytes → Prop} {f : Frame} (hf : Slot.Texts P f.slots) :
    (m.push f).Confined (w.push P) :=
  ⟨h.scope.push hf, h.table, h.library⟩

theorem pop (h : m.Confined (w.push P)) : m.pop.Confined w :=
  ⟨h.scope.around, h.table, h.library⟩

theorem aside (h : m.Confined w) : m.aside.Confined w.around :=
  ⟨h.scope.around, h.table, h.library⟩

theorem resume (h : m.Confined w) (h₁ : m₁.Confined w.around) {f : Frame}
    (hf : Slot.Texts w.frame f.slots) : (m.resume f m₁).Confined w :=
  ⟨h.scope.within hf h₁.scope, h₁.table, h₁.library⟩

end Machine.Confined

namespace Supply

abbrev Settles (w : Supply) (f : Nat → Outcome α) : Prop :=
  Outcome.Settles (fun _ => True) (Machine.Confined w) f

def Ends (registry : Registry) (w : Supply) (t : Bytes) : Prop :=
  ∀ name m, m.Confined w → w.Settles fun n => eval registry n ⟨name, t⟩ m

/-- The evaluation of what is supplied ends in the frames around. -/
inductive Good (registry : Registry) : Supply → Prop
  | outermost {P : Bytes → Prop} (h : ∀ t, P t → none.Ends registry t) : Good registry ⟨P, []⟩
  | push {P : Bytes → Prop} {w : Supply} (h : ∀ t, P t → w.Ends registry t)
      (hw : Good registry w) : Good registry (w.push P)

variable {registry : Registry} {w : Supply} {m : Machine}

theorem good_none : none.Good registry := .outermost fun _ => False.elim

theorem Good.ends (hw : w.Good registry) (ht : w.frame t) : w.around.Ends registry t := by
  cases hw with
  | outermost h => exact h t ht
  | push h _ => exact h t ht

theorem Good.argument (hw : w.Good registry) (h : m.Confined w) (i : Nat) :
    w.Settles fun n => m.argument (eval registry n) i := by
  by_cases hraw : ∃ t, m.scope.frame.slots[i]? = some { text := some t }
  · obtain ⟨t, hs⟩ := hraw
    have hends := hw.ends (h.scope.frame.of_getElem? hs rfl) [] m.aside h.aside
    simp only [Machine.argument_raw hs]
    refine hends.recalled fun m₁ h₁ => ⟨h.resume h₁ h.scope.frame, fun v => h.resume h₁ ?_⟩
    exact h.scope.frame.modify i fun _ => rfl
  · have hknown : ∀ t, m.scope.frame.slots[i]? ≠ some { text := some t } :=
      fun t ht => hraw ⟨t, ht⟩
    simp only [Machine.argument_known hknown]
    exact .done trivial h

theorem Good.refer (hw : w.Good registry) (h : m.Confined w) (i : Nat) :
    w.Settles fun n => Invocation.refer (eval registry n) i m := by
  simp only [Invocation.refer_eq]
  exact (hw.argument h i).andThen fun v m₁ _ h₁ => .done trivial (h₁.write _)

theorem segments {carryOut : Nat → Call → Machine → Outcome Unit} {xs : List Segment}
    (hc : ∀ c, .call c ∈ xs → ∀ m, m.Confined w → w.Settles fun n => carryOut n c m)
    (h : m.Confined w) :
    w.Settles fun n => Segment.runAll (carryOut n) xs m := by
  induction xs generalizing m with
  | nil => exact .done trivial h
  | cons x xs ih =>
    have ih {m : Machine} (h : m.Confined w) := ih (fun c hx => hc c (List.mem_cons_of_mem x hx)) h
    cases x with
    | literal t => exact ih (h.write t.spell)
    | call c =>
      simp only [Segment.runAll_call]
      exact (hc c List.mem_cons_self m h).andThen fun _ m₁ _ h₁ => ih h₁

theorem ends_of_calls (hc : ∀ name c, .call c ∈ t.layout.segments → ∀ m, m.Confined w →
      w.Settles fun n => Invocation.carryOut registry n (eval registry n) ⟨name, t⟩ c m) :
    w.Ends registry t := by
  intro name m h
  refine .succ ?_
  simp only [eval, Layout.run_eq]
  refine (segments (hc name) h).andThen fun _ m₁ _ h₁ => ?_
  cases t.layout.defect with
  | none => exact .done trivial h₁
  | some d => exact .failed h₁ _

theorem ends_of_opensNothing (h : t.OpensNothing) : w.Ends registry t :=
  ends_of_calls fun _ c hc => absurd hc (h.not_call c)

theorem Good.ends_of_refers (hw : w.Good registry) (h : t.Refers i) : w.Ends registry t := by
  intro name m hm
  refine .succ ?_
  simp only [h registry]
  exact hw.refer hm i

theorem body (h : m.Confined w) (name : Bytes) :
    w.Settles fun n => Invocation.body (eval registry n) name m := by
  cases hf : m.state.dictionary.table.find? name with
  | some e =>
    have hvalue : e.value.OpensNothing := h.table name e (List.mem_of_find?_eq_some hf)
    simp only [Invocation.body, Dictionary.find, hf]
    exact ends_of_opensNothing hvalue e.name m h
  | none =>
    have hpaths : m.state.dictionary.library.paths name = [] := by
      simp [Library.paths, h.library]
    simp only [Invocation.body, Dictionary.find, hf, hpaths]
    exact .failed h _

end Supply

end TildeText
