import TildeText.Proofs.Crashes
import TildeText.Proofs.Settling

namespace TildeText

def Bytes.Tame (registry : Registry) (t : Bytes) : Prop :=
  ∀ w : Supply, w.Good registry → w.Ends registry t

namespace Supply

variable {registry : Registry} {w : Supply}

theorem Good.push_tame (hw : w.Good registry) : (w.push (Bytes.Tame registry)).Good registry :=
  .push (fun _ ht => ht w hw) hw

end Supply

def Program.Settles (registry : Registry) (w : Supply) (D : α → Prop) (p : Program α) : Prop :=
  ∀ m, m.Confined w → Outcome.Settles D (Machine.Confined w)
    fun n => p.run (registry.context (eval registry n)) m

def Builtin.Tame (registry : Registry) (b : Builtin) : Prop :=
  ∀ w : Supply, w.Good registry → (∀ t, w.frame t → Bytes.Tame registry t) →
    Program.Settles registry w (· ≠ .again) b

def Registry.Tame (registry : Registry) : Prop :=
  ∀ name b, registry.lookup name = some b → Builtin.Tame registry b

section Calls

variable {registry : Registry} {w : Supply} {m : Machine}

theorem Builtin.run_settles {b : Builtin} (hb : Program.Settles registry w (· ≠ .again) b)
    (h : m.Confined w) :
    w.Settles fun n => b.run (registry.context (eval registry n)) n m := by
  refine .succ ?_
  simp only [Builtin.run_succ]
  refine (hb m h).later.andThen fun v m₁ hv h₁ => ?_
  cases v with
  | finished => exact .done trivial h₁
  | matched d => exact .done trivial h₁
  | again => exact absurd rfl hv

theorem Machine.Confined.handOver (h : m.Confined w) (d : Option (Option Bytes)) :
    (m.handOver d).Confined w := by
  cases d with
  | none => exact h
  | some d => exact h.rebind 0 d

theorem Registry.Tame.byName (hr : registry.Tame) (hw : w.Good registry) {f : Frame}
    (hf : Slot.Texts (Bytes.Tame registry) f.slots) (h : m.Confined w) :
    w.Settles fun n => Invocation.byName registry n (eval registry n) (m.push f) := by
  simp only [Invocation.byName_eq]
  have hinner : (w.push (Bytes.Tame registry)).Settles
      fun n => Invocation.inFrame registry n (eval registry n) (m.push f) := by
    refine (hw.push_tame.argument (h.push hf) 0).andThen fun name m₁ _ h₁ => ?_
    cases hb : registry.lookup (name.getD []) with
    | some b => exact Builtin.run_settles (hr _ b hb _ hw.push_tame fun _ => id) h₁
    | none => exact (Supply.body h₁ _).andThen fun _ m₂ _ h₂ => .done trivial h₂
  exact (hinner.pop fun _ => Machine.Confined.pop).andThen fun d m₁ _ h₁ =>
    .done trivial (h₁.handOver d)

theorem Supply.Good.rebind (hw : w.Good registry) {f : Frame}
    (hf : Slot.Texts (Bytes.Tame registry) f.slots) (h : m.Confined w) (i : Nat) :
    w.Settles fun n => Invocation.rebind (eval registry n) i (m.push f) := by
  simp only [Invocation.rebind_eq]
  have hinner : (w.push (Bytes.Tame registry)).Settles
      fun n => Invocation.newValue (eval registry n) i (m.push f) := by
    refine (hw.push_tame.argument (h.push hf) 1).andThen fun v m₁ _ h₁ => ?_
    split
    · exact .done trivial h₁
    · exact .failed h₁ _
  exact (hinner.pop fun _ => Machine.Confined.pop).andThen fun v m₁ _ h₁ =>
    .done trivial (h₁.rebind i v)

theorem Registry.Tame.of_args (hr : registry.Tame) {t : Bytes}
    (ht : ∀ c, .call c ∈ t.layout.segments → ∀ a ∈ c.args, a.Tame registry) : t.Tame registry := by
  intro w hw
  refine Supply.ends_of_calls fun name c hc m h => ?_
  have hf : Slot.Texts (Bytes.Tame registry) (c.frame ⟨name, t⟩).slots := .ofTexts (ht c hc) _
  simp only [Invocation.carryOut]
  cases c.index? with
  | some i =>
    simp only
    split
    · exact hw.refer h i
    · exact hw.rebind hf h i
  | none => exact hr.byName hw hf h

theorem Registry.Tame.bytes (hr : registry.Tame) (t : Bytes) : t.Tame registry := by
  induction hn : t.length using Nat.strongRecOn generalizing t with
  | ind n ih =>
    refine hr.of_args fun c hc a ha => ih a.length ?_ a rfl
    rw [← hn]
    exact (Bytes.infix_of_arg hc ha).2

theorem Registry.Tame.good (hr : registry.Tame) (P : Bytes → Prop) (outer : List (Bytes → Prop)) :
    Supply.Good registry ⟨P, outer⟩ := by
  induction outer generalizing P with
  | nil => exact .outermost fun t _ => hr.bytes t _ Supply.good_none
  | cons Q rest ih => exact .push (fun t _ => hr.bytes t _ (ih Q)) (ih Q)

theorem Registry.Tame.ends (hr : registry.Tame) (src : Source) (m : Machine) (ht : m.table.Flat)
    (hl : m.state.dictionary.library.directories = []) :
    ∃ k, eval registry k src m ≠ .exhausted ∧
      ∀ n, k ≤ n → eval registry n src m = eval registry k src m :=
  (hr.bytes src.bytes (.any m.scope) (hr.good _ _) src.name m
    ⟨Supply.covers_any m.scope, ht, hl⟩).exists_fuel

end Calls

def Request.isQuiet : Request → Bool
  | .evalHere _ | .evalUnder _ _ | .install _ _ | .obtain _ | .setValue _ _ => false
  | _ => true

theorem Request.isQuiet_of_isBasic {r : Request} (h : r.isBasic = true) : r.isQuiet = true := by
  cases r with
  | evalHere src => cases h
  | evalUnder label src => cases h
  | install name v => cases h
  | obtain name => cases h
  | setValue g v => cases h
  | _ => rfl

theorem Request.isQuiet_of_isCommon {r : Request} (h : r.isCommon = true) : r.isQuiet = true :=
  isQuiet_of_isBasic (isBasic_of_isCommon h)

theorem Machine.Confined.report {w : Supply} {m : Machine} (h : m.Confined w)
    (records : List Bytes) : (m.report records).Ends (fun _ => True) (Machine.Confined w) := by
  obtain ⟨d, hd | ⟨p, hd⟩⟩ := m.report_cases records
  · rw [hd]
    exact ⟨trivial, h.scope, h.table, h.library⟩
  · rw [hd]
    exact ⟨h.scope, h.table, h.library⟩

theorem Machine.Confined.perform {w : Supply} {m : Machine} (h : m.Confined w) {r : Request}
    (hq : r.isQuiet = true) (hr : r.evaluates = false) (ctx : Context) :
    (r.perform ctx m).Ends (fun _ => True) (Machine.Confined w) := by
  cases r with
  | argument n => cases hr
  | evalHere src => cases hr
  | evalUnder label src => cases hr
  | install name v => cases hq
  | obtain name => cases hq
  | setValue g v => cases hq
  | assign n v => exact ⟨trivial, h.mapFrame (h.scope.frame.assign n v)⟩
  | forget n => exact ⟨trivial, h.mapFrame (h.scope.frame.modify n fun _ => rfl)⟩
  | write s => exact ⟨trivial, h.write s⟩
  | delete name => exact ⟨trivial, h.setTable (h.table.delete name)⟩
  | load name => exact ⟨trivial, h.scope, h.table, h.library⟩
  | store name content => exact ⟨trivial, h.scope, h.table, h.library⟩
  | print s => exact h.report _
  | dump => exact h.report _
  | serial => exact ⟨trivial, h.scope, h.table, h.library⟩
  | tick => exact ⟨trivial, h.scope, h.table, h.library⟩
  | _ => exact ⟨trivial, h⟩

namespace Program.Settles

variable {registry : Registry} {w : Supply}

theorem bind {D : α → Prop} {D' : β → Prop} {p : Program α} {f : α → Program β}
    (hp : Settles registry w D p) (hf : ∀ a, Settles registry w D' (f a)) :
    Settles registry w D' (p >>= f) := by
  intro m h
  simp only [run_seq]
  exact (hp m h).andThen fun a m₁ _ h₁ => hf a m₁ h₁

theorem of_quiet {D : α → Prop} {P : Kind → Prop} (hw : w.Good registry) {p : Program α}
    (hp : p.EndsWithin (·.isQuiet = true) P D) : Settles registry w D p := by
  induction p with
  | done a => exact fun m h => .done hp h
  | fail kind evidence cause => exact fun m h => .failed h _
  | abort p => exact fun m h => .failed h _
  | crash start size short => exact fun m h => .failed h _
  | ask r next ih =>
    intro m h
    have hr : w.Settles fun n => r.perform (registry.context (eval registry n)) m := by
      -- what a quiet request has evaluated is an argument, if anything
      by_cases he : r.evaluates = false
      · simp only [fun n => r.perform_context he registry (eval registry n) (eval registry 0) m]
        exact .of_ends (h.perform hp.1 he _)
      · cases r with
        | argument i => exact hw.argument h i
        | evalHere src => cases hp.1
        | evalUnder label src => cases hp.1
        | _ => exact absurd rfl he
    simp only [Program.run_ask]
    exact hr.andThen fun a m₁ _ h₁ => ih a (hp.2 a) m₁ h₁

end Program.Settles

namespace Builtin

open Program (Settles)

variable {registry : Registry}

theorem tame_of_quiet {P : Kind → Prop} {b : Builtin}
    (hb : Program.EndsWithin (·.isQuiet = true) P (· ≠ .again) b) : Tame registry b :=
  fun _ hw _ => .of_quiet hw hb

theorem gensym_tame : Tame registry gensym :=
  tame_of_quiet (P := fun _ => True) <|
    .bind (.ask rfl) fun _ => .bind (.ask rfl) fun _ => .pure nofun

theorem texts_under {label : Bytes} (hl : label.OpensNothing) :
    Slot.Texts (Bytes.Tame registry) (Frame.under label).slots := by
  refine .ofTexts (fun t ht => ?_) none
  have hrefers {t : Bytes} {i : Nat} (ht : t.Refers i) : t.Tame registry :=
    fun _ hw => hw.ends_of_refers ht
  simp only [List.mem_cons, List.not_mem_nil, or_false] at ht
  rcases ht with rfl | rfl | rfl | rfl | rfl | rfl | rfl | rfl
  · exact fun _ _ => Supply.ends_of_opensNothing hl
  all_goals exact hrefers (Bytes.refers_of_layout rfl rfl (by decide))

theorem evalText_tame : Tame registry evalText := by
  intro w hw htame m h
  simp only [run_evalText]
  cases hs : m.scope.frame.raw 1 with
  | none => exact .done nofun h
  | some s =>
    have hinner := htame s (h.scope.frame.raw hs) _ hw.push_tame [] _
      (h.push (texts_under (by decide : (utf8 "eval").OpensNothing)))
    exact (hinner.pop fun _ => Machine.Confined.pop).andThen fun _ m₁ _ h₁ => .done nofun h₁

theorem takeAt_tame (find : Bytes → Bytes → Option Nat) (better : Nat → Nat → Bool)
    {taken : Handle → Match → Program Bytes} (ht : ∀ g b, (taken g b).AsksOnly (·.isQuiet = true))
    {left : Bytes → Match → Bytes} (hleft : ∀ s b, left s b <:+: s) :
    Tame registry (takeAt find better taken left) := by
  intro w hw _
  have hQ (r : Request) : r.isCommon = true → r.isQuiet = true := Request.isQuiet_of_isCommon
  have quiet {α : Type} {p : Program α} (hp : p.AsksOnly (·.isQuiet = true)) :
      Settles registry w (fun _ => True) p := .of_quiet hw (Program.EndsWithin.iff_within.2 hp)
  refine .bind (quiet (locate_within hQ (fun _ => rfl) (fun _ => rfl) trivial trivial find better))
    fun (g, best) => ?_
  cases best with
  | none =>
    exact fun m h => .done nofun ((h.write _).setTable (h.table.setValue List.nil_infix))
  | some b =>
    exact .bind (quiet (ht g b)) fun s m h =>
      .done nofun ((h.write s).setTable (h.table.setValue (hleft _ b)))

end Builtin

def Builtin.Inert (b : Builtin) : Prop :=
  Program.EndsWithin (fun r => r.isBasic = true ∧ r.evaluates = false) (fun _ => True)
    (· ≠ .again) b fun e => e.isCrash = false

namespace Registry

/-- The builtins that evaluate what is not in the text, that go on in rounds, or that can give any
value to a macro. -/
def unbounded : List Bytes :=
  [utf8 "define", utf8 "set", utf8 "append", utf8 "loop", utf8 "include"]

/-- The standard builtins, with inert ones in place of those that could make an evaluation go on for
ever. -/
structure Curbed (registry : Registry) : Prop where
  replaced : ∀ name ∈ unbounded, ∃ b, registry.lookup name = some b ∧ b.Inert
  kept : ∀ name, name ∉ unbounded → registry.lookup name = standard.lookup name

theorem Curbed.tame {registry : Registry} (h : registry.Curbed) : registry.Tame := by
  intro name b hb
  by_cases hname : name ∈ unbounded
  · obtain ⟨b', hb', hinert⟩ := h.replaced name hname
    obtain rfl : b = b' := Option.some.inj (hb.symm.trans hb')
    exact Builtin.tame_of_quiet (hinert.imp (fun _ hr => Request.isQuiet_of_isBasic hr.1)
      (fun _ => id) (fun _ _ => trivial) fun _ => id)
  · rw [h.kept name hname] at hb
    rcases standard_cases (P := fun _ => True) (fun _ _ => trivial) _ (mem_of_lookup hb) with
      hs | hordinary
    · simp only [special, List.mem_cons, List.not_mem_nil, or_false, Prod.mk.injEq] at hs
      simp only [unbounded, List.mem_cons, List.not_mem_nil, or_false, not_or] at hname
      obtain ⟨hdefine, hset, happend, hloop, hinclude⟩ := hname
      rcases hs with ⟨hn, -⟩ | ⟨hn, -⟩ | ⟨-, rfl⟩ | ⟨-, rfl⟩ | ⟨-, rfl⟩ | ⟨hn, -⟩ | ⟨-, rfl⟩ |
        ⟨hn, -⟩ | ⟨hn, -⟩
      · exact absurd hn happend
      · exact absurd hn hdefine
      · exact Builtin.evalText_tame
      · exact Builtin.takeAt_tame _ _ (Builtin.before_within fun _ => rfl)
          fun s b => (List.drop_suffix _ s).isInfix
      · exact Builtin.gensym_tame
      · exact absurd hn hinclude
      · exact Builtin.takeAt_tame _ _ (Builtin.behind_within (fun _ => rfl) fun _ _ _ => trivial)
          fun s b => (List.take_prefix _ s).isInfix
      · exact absurd hn hloop
      · exact absurd hn hset
    · exact Builtin.tame_of_quiet (hordinary.imp (fun _ => Request.isQuiet_of_isCommon)
        (fun _ => id) (fun _ => False.elim) fun _ => id)

theorem Curbed.crashesInLast {registry : Registry} (h : registry.Curbed) :
    registry.CrashesInLast := by
  intro name b hb
  by_cases hname : name ∈ unbounded
  · obtain ⟨b', hb', hinert⟩ := h.replaced name hname
    obtain rfl : b = b' := Option.some.inj (hb.symm.trans hb')
    refine .inr ⟨?_, hinert.within.imp (fun _ _ => trivial) (fun _ => id) fun _ => id⟩
    rintro rfl
    exact absurd hname (by decide)
  · rw [h.kept name hname] at hb
    exact standard_crashesInLast name b hb

def curb (registry : Registry) : Registry :=
  unbounded.map (fun name => (name, (Pure.pure .finished : Program Verdict))) ++ registry

theorem curbed_curb : standard.curb.Curbed where
  replaced name hname := by
    refine ⟨Pure.pure .finished, ?_, nofun⟩
    rw [curb, List.lookup_append, List.lookup_graph _ hname, Option.some_or]
  kept name hname := by
    have hnone : (unbounded.map fun name => (name, (Pure.pure .finished : Program Verdict))).lookup
        name = none := by
      refine List.lookup_eq_none_iff.2 fun entry hentry => ?_
      obtain ⟨n, hn, rfl⟩ := List.mem_map.1 hentry
      have hne : name ≠ n := fun h => hname (h ▸ hn)
      simpa using hne
    rw [curb, List.lookup_append, hnone, Option.none_or]

end Registry

/-- Without macros that invoke something, without rounds and without files every evaluation ends, in
whatever scope: from some amount of fuel on it has one and the same outcome, which is not that the
fuel has run out. It returns a result or an error, unless a run of `last` cuts short: then, and only
then, it crashes. -/
theorem eval_returns_iff (registry : Registry) (hr : registry.Curbed) (src : Source) (m : Machine)
    (hvalues : ∀ e ∈ m.table.entries, e.value.OpensNothing)
    (hlibrary : m.state.dictionary.library.directories = []) :
    ∃ k, eval registry k src m ≠ .exhausted ∧
      (∀ n, k ≤ n → eval registry n src m = eval registry k src m) ∧
      ((eval registry k src m).Returns ↔
        ∀ e ∈ evalLog registry k src m, ¬ e.CutsShort registry) := by
  have hflat : m.table.Flat := .of_entries hvalues
  obtain ⟨k, hends, hstable⟩ := hr.tame.ends src m hflat hlibrary
  refine ⟨k, hends, hstable, ?_⟩
  rw [Outcome.returns_iff hends, eval_crashed hr.crashesInLast k src m hends]
  simp only [not_exists, not_and]

def Machine.chained : Machine where
  state.dictionary.table := (Table.empty 0).install (utf8 "m") (utf8 "a~b")
  scope := ⟨.ofTexts [utf8 "top", utf8 "<~eval~<~1~><~1~>~<~1~>~>", utf8 "<~1~>"],
    [.ofTexts [utf8 "outer", utf8 "c"]]⟩

def Source.chained : Source :=
  ⟨[], utf8 "<~eval~<~1~>.<~2~>~<~1~>~<~loop~x~y~><~2~>~><~m~>"⟩

theorem eval_returns_iff_chained :
    Registry.standard.curb.Curbed ∧
    (∀ e ∈ Machine.chained.table.entries, e.value.OpensNothing) ∧
    ∃ k m, m.out.toBytes = utf8 "cc.ca~b" ∧
      (∀ n, k ≤ n → eval Registry.standard.curb n .chained .chained = .done () m) ∧
      ∀ e ∈ evalLog Registry.standard.curb k .chained .chained,
        ¬ e.CutsShort Registry.standard.curb := by
  have hvalues : ∀ e ∈ Machine.chained.table.entries, e.value.OpensNothing := by decide
  obtain ⟨k, -, hk, hiff⟩ :=
    eval_returns_iff _ Registry.curbed_curb .chained .chained hvalues rfl
  obtain ⟨m, hrun, hout⟩ : ∃ m,
      eval Registry.standard.curb 9 .chained .chained = .done () m ∧
      m.out.toBytes = utf8 "cc.ca~b" := ⟨_, rfl, rfl⟩
  have hlong : eval Registry.standard.curb (k + 9) .chained .chained = .done () m := by
    rw [eval_mono (Nat.le_add_left 9 k) (by rw [hrun]; nofun), hrun]
  have hend : eval Registry.standard.curb k .chained .chained = .done () m := by
    rw [← hk (k + 9) (Nat.le_add_right k 9), hlong]
  refine ⟨Registry.curbed_curb, hvalues, k, m, hout, fun n hn => (hk n hn).trans hend, ?_⟩
  exact hiff.1 (by rw [hend]; trivial)

def Machine.shortened : Machine where
  state.dictionary.table := (Table.empty 0).install (utf8 "v") (utf8 "abc,def")
  scope := ⟨.ofValues [], []⟩

def Source.shortening : Source := ⟨[], utf8 "<~last~v~,~<~first~v~d~>~>"⟩

theorem last_beyond_end :
    Registry.standard.curb.Curbed ∧
    (∀ e ∈ Machine.shortened.table.entries, e.value.OpensNothing) ∧
    ∃ m, ∀ n, eval Registry.standard.curb (n + 3) .shortening .shortened =
      .failed (.crash 4 2 (by decide)) m :=
  ⟨Registry.curbed_curb, by decide, _, fun _ => rfl⟩

end TildeText
