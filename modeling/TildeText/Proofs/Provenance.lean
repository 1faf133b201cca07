import TildeText.Proofs.Heredity
import TildeText.Proofs.Nesting
import TildeText.Proofs.Placement

namespace TildeText

def Machine.Texts (P : Bytes → Prop) (m : Machine) : Prop := ∀ f ∈ m.frames, Slot.Texts P f.slots

namespace Machine.Texts

variable {P : Bytes → Prop} {m m₁ : Machine}

theorem frame (h : m.Texts P) : Slot.Texts P m.scope.frame.slots := h _ List.mem_cons_self

theorem outer (h : m.Texts P) : ∀ f ∈ m.scope.outer, Slot.Texts P f.slots :=
  fun f hf => h f (List.mem_cons_of_mem _ hf)

theorem push (h : m.Texts P) {f : Frame} (hf : Slot.Texts P f.slots) : (m.push f).Texts P :=
  List.forall_mem_cons.2 ⟨hf, h⟩

theorem aside (h : m.Texts P) : m.aside.Texts P := by
  have ho := h.outer
  simp only [Texts, frames, Machine.aside, Scope.around]
  cases hm : m.scope.outer with
  | nil => simp [Frame.empty, Slot.Texts]
  | cons f rest => exact hm ▸ ho

theorem pop (h : m.Texts P) : m.pop.Texts P := h.aside

theorem resume (h₁ : m₁.Texts P) {f : Frame} (hf : Slot.Texts P f.slots) :
    (m.resume f m₁).Texts P := by
  simp only [Texts, frames, Machine.resume, Scope.within]
  cases m.scope.outer with
  | nil => exact List.forall_mem_cons.2 ⟨hf, by simp⟩
  | cons g rest => exact List.forall_mem_cons.2 ⟨hf, h₁⟩

theorem mapFrame (h : m.Texts P) {g : Frame → Frame}
    (hg : Slot.Texts P (g m.scope.frame).slots) : (m.mapFrame g).Texts P :=
  List.forall_mem_cons.2 ⟨hg, h.outer⟩

theorem adopt (h : m.Texts P) (h₁ : Slot.Texts P m₁.scope.frame.slots) : (m.adopt m₁).Texts P :=
  List.forall_mem_cons.2 ⟨h₁, h.outer⟩

end Machine.Texts

theorem Machine.Needs.texts {P : Bytes → Prop} {m m₁ : Machine} (h : m.Needs n src m₁)
    (hm : m.Texts P) : P src.bytes ∧ m₁.Texts P := by
  cases h with
  | raw hs => exact ⟨hm.frame.of_getElem? hs rfl, hm.aside⟩

def Request.Fair (r : Request) : Prop := ∀ label src, r = .evalUnder label src → label.Balanced

theorem Machine.Texts.simulation :
    Simulation Request.Fair (fun (_ : Unit) m m' => m = m' ∧ m.Texts Bytes.Balanced) Eq
      (fun f f' => f = f' ∧ Slot.Texts Bytes.Balanced f.slots) where
  calls _ _ hc := ⟨rfl, .ofTexts (Bytes.args_balanced hc) _⟩
  defects _ := .of_args fun _ hd _ => ⟨rfl, .ofTexts (Bytes.defect_args_balanced hd) _⟩
  under {label src} hq := by
    refine ⟨rfl, .ofTexts (List.forall_mem_cons.2 ⟨hq label src rfl, ?_⟩) _⟩
    decide
  slots h := congrArg (·.scope.frame.slots) h.1
  fault h kind evidence cause := congrArg (·.fault kind evidence cause) h.1
  own _ := rfl
  write h s := ⟨congrArg (·.write s) h.1, h.2⟩
  perform {w m m'} h ctx r _ hr := by
    obtain ⟨rfl, h⟩ := h
    exact r.perform_related hr ctx (fun _ => rfl) rfl rfl fun m₁ ht =>
      ⟨rfl, h.adopt (ht _ h.frame)⟩
  argument {_ _ w m m'} he h n := by
    obtain ⟨rfl, h⟩ := h
    refine @Keeps.argument _ _ _ _ he w w m m ⟨rfl, h⟩ rfl ⟨rfl, h.aside⟩ ?_ n
    rintro m₁ _ ⟨rfl, h₁⟩
    refine ⟨rfl, ⟨rfl, h₁.resume h.frame⟩, fun n v => ⟨rfl, h₁.resume ?_⟩⟩
    exact h.frame.modify n fun _ => rfl
  push {w m m' f f'} h hf := by
    obtain ⟨rfl, h⟩ := h
    obtain ⟨rfl, hf⟩ := hf
    refine ⟨w, ⟨rfl, h.push hf⟩, ?_⟩
    rintro m₁ _ ⟨rfl, h₁⟩
    exact ⟨rfl, h₁.pop⟩
  rebind {w m m'} h n v := by
    obtain ⟨rfl, h⟩ := h
    exact ⟨rfl, h.mapFrame (h.frame.rebind _ _ _)⟩
  find {w m m'} h name := by
    obtain ⟨rfl, h⟩ := h
    cases m.state.dictionary.find m.state.storage.system name with
    | error p => exact .error
    | ok found => exact .ok rfl rfl ⟨rfl, h⟩

theorem Outcome.Related.left {R : Machine → Machine → Prop} {x y : Outcome α} (h : x.Related R F y)
    (hx : x = .done a m) : ∃ m', R m m' := by
  subst hx
  cases h with
  | done h => exact ⟨_, h⟩

/-- What was read from the storage last is the given source. -/
def Storage.Gave (s : Storage) (src : Source) : Prop :=
  ∃ before : Storage, before.read src.name = (.ok src.bytes, s)

namespace Program

inductive Asks (ctx : Context) : Program α → Machine → Request → Machine → Prop
  | now {r : Request} {next : r.Answer → Program α} : Asks ctx (.ask r next) m r m
  | later {r : Request} {next : r.Answer → Program α} {a : r.Answer}
      (hr : r.perform ctx m = .done a m') (h : Asks ctx (next a) m' r' m₁) :
      Asks ctx (.ask r next) m r' m₁

theorem Asks.bind {ctx : Context} {p : Program α} {f : α → Program β} {m m₁ : Machine}
    (h : Asks ctx (p >>= f) m r m₁) :
    Asks ctx p m r m₁ ∨ ∃ a m', p.run ctx m = .done a m' ∧ Asks ctx (f a) m' r m₁ := by
  induction p generalizing m with
  | done a => exact .inr ⟨a, m, rfl, h⟩
  | fail kind evidence cause => cases h
  | abort p => cases h
  | crash start size short => cases h
  | ask r next ih =>
    cases h with
    | now => exact .inl .now
    | later hr h =>
      rcases ih _ h with h | ⟨a, m', ha, h⟩
      · exact .inl (.later hr h)
      · refine .inr ⟨a, m', ?_, h⟩
        rw [run_ask, hr]
        exact ha

theorem Asks.sort {Q : Request → Prop} {ctx : Context} {p : Program α} (hp : p.AsksOnly Q)
    (h : p.Asks ctx m r m₁) : Q r := by
  induction h with
  | now => exact hp.1
  | later _ _ ih => exact ih (hp.2 _)

theorem Begins.asks {ctx : Context} {p : Program α} (h : p.Begins ctx m src m₁) :
    ∃ r m', p.Asks ctx m r m' ∧ r.Begins m' src m₁ := by
  induction h with
  | now h => exact ⟨_, _, .now, h⟩
  | later hr _ ih =>
    obtain ⟨r, m', ha, hb⟩ := ih
    exact ⟨r, m', .later hr ha, hb⟩

end Program

namespace Builtin

inductive Asks (ctx : Context) (b : Builtin) : Nat → Machine → Request → Machine → Prop
  | now (h : Program.Asks ctx b m r m₁) : Asks ctx b (n + 1) m r m₁
  | again (hb : Program.run ctx b m = .done .again m') (h : Asks ctx b n m' r m₁) :
      Asks ctx b (n + 1) m r m₁

theorem Begins.asks {ctx : Context} {b : Builtin} (h : Begins ctx b n m src m₁) :
    ∃ r m', b.Asks ctx n m r m' ∧ r.Begins m' src m₁ := by
  induction h with
  | now h =>
    obtain ⟨r, m', ha, hb⟩ := h.asks
    exact ⟨r, m', .now ha, hb⟩
  | again hb _ ih =>
    obtain ⟨r, m', ha, hbegins⟩ := ih
    exact ⟨r, m', .again hb ha, hbegins⟩

end Builtin

section Balanced

variable {registry : Registry} {m m₁ : Machine}

theorem keeps_texts (hr : registry.AsksOnly Request.Fair) (n : Nat) :
    Keeps (fun (_ : Unit) m m' => m = m' ∧ m.Texts Bytes.Balanced) Eq (eval registry n) :=
  Machine.Texts.simulation.keeps_eval hr n

theorem Machine.Texts.argument (hr : registry.AsksOnly Request.Fair) (hm : m.Texts Bytes.Balanced)
    (h : m.argument (eval registry k) n = .done v m₁) : m₁.Texts Bytes.Balanced := by
  have hs := simulation.argument (w := ()) (keeps_texts hr k) ⟨rfl, hm⟩ n
  obtain ⟨_, rfl, h₁⟩ := hs.left h
  exact h₁

theorem Program.Asks.texts (hr : registry.AsksOnly Request.Fair) {p : Program α}
    (hp : p.AsksOnly Request.Fair) (h : p.Asks (registry.context (eval registry k)) m r m₁)
    (hm : m.Texts Bytes.Balanced) : m₁.Texts Bytes.Balanced := by
  induction h with
  | now => exact hm
  | later hperform _ ih =>
    have hs := Machine.Texts.simulation.request (w := ()) (keeps_texts hr k) ⟨rfl, hm⟩ _ hp.1
    obtain ⟨_, rfl, h₁⟩ := hs.left hperform
    exact ih (hp.2 _) h₁

theorem Builtin.Asks.round (hr : registry.AsksOnly Request.Fair) {b : Builtin}
    (hb : Program.AsksOnly Request.Fair b)
    (h : b.Asks (registry.context (eval registry k)) n m r m₁) (hm : m.Texts Bytes.Balanced) :
    ∃ m', m'.Texts Bytes.Balanced ∧
      Program.Asks (registry.context (eval registry k)) b m' r m₁ := by
  induction h with
  | now h => exact ⟨_, hm, h⟩
  | again hagain _ ih =>
    have hs := Machine.Texts.simulation.program (w := ()) (keeps_texts hr k) b hb ⟨rfl, hm⟩
    obtain ⟨_, rfl, h₁⟩ := hs.left hagain
    exact ih h₁

theorem Segment.runAll_texts (hr : registry.AsksOnly Request.Fair) {src : Source}
    (hs : src.bytes.layout.segments = before ++ after) (hm : m.Texts Bytes.Balanced)
    (h : runAll (Invocation.carryOut registry n (eval registry n) src) before m = .done () m₁) :
    m₁.Texts Bytes.Balanced := by
  have hbefore : Segment.Alike (fun f f' => f = f' ∧ Slot.Texts Bytes.Balanced f.slots) src src
      before before := by
    refine .of_frames fun c hc => Machine.Texts.simulation.calls src c ?_
    rw [hs]
    exact List.mem_append_left after hc
  have hx := Machine.Texts.simulation.segments (w := ()) hr n (keeps_texts hr n) hbefore ⟨rfl, hm⟩
  obtain ⟨_, rfl, h₁⟩ := hx.left h
  exact h₁

end Balanced

namespace Builtin

variable {ctx : Context} {m m₁ : Machine}

theorem asks_define (h : Program.Asks ctx define m (.install name v) m₁) :
    v = (m₁.scope.frame.raw 2).getD [] := by
  rcases h.bind with h | ⟨name', m', -, h⟩
  · have hn : (Program.nameArg 1).AsksOnly (· = .argument 1) :=
      .bind (.bind (.ask rfl) fun _ => .pure _) fun _ => .ite trivial (.pure _)
    cases h.sort hn
  · rcases h.bind with h | ⟨t, m', ht, h⟩
    · cases h with
      | later _ h => cases h
    · cases ht
      cases h with
      | now => rfl
      | later _ h => cases h

theorem asks_evalText (h : Program.Asks ctx evalText m (.evalUnder label src) m₁) :
    m₁.scope.frame.raw 1 = some src.bytes := by
  rcases h.bind with h | ⟨t, m', ht, h⟩
  · cases h with
    | later _ h => cases h
  · cases ht
    cases ht : m.scope.frame.raw 1 with
    | none =>
      rw [ht] at h
      cases h
    | some t =>
      rw [ht] at h
      cases h with
      | now => exact ht
      | later _ h => cases h

theorem asks_includeFile (h : Program.Asks ctx includeFile m (.evalUnder label src) m₁) :
    m₁.state.storage.Gave src := by
  rcases h.bind with h | ⟨name, m₀, -, h⟩
  · have hn : (Program.arg 1).AsksOnly (· = .argument 1) := .bind (.ask rfl) fun _ => .pure _
    cases h.sort hn
  · rcases h.bind with h | ⟨content, m', hl, h⟩
    · cases h with
      | later _ h => cases h
    · rcases hread : m₀.state.storage.read name with ⟨answer, st⟩
      have hload : (Program.load name).run ctx m₀ = .done answer (m₀.setStorage st) := by
        rw [Program.load, Program.run_ask, Request.perform, hread]
        rfl
      rw [hload] at hl
      cases hl
      cases content with
      | error e => cases h
      | ok bytes =>
        cases h with
        | now => exact ⟨_, hread⟩
        | later _ h => cases h

end Builtin

inductive Role
  | argument
  | given (b : Builtin)
  | body

def Role.Vouches (s : Source) (m : Machine) : Role → Prop
  | .argument => s.bytes.Balanced
  | .given b =>
    (b = .evalText → s.bytes.Balanced) ∧
    (b = .includeFile → m.state.storage.Gave s) ∧
    (b = .evalText ∨ b = .includeFile ∨ ∀ entry ∈ Registry.standard, entry.2 ≠ b)
  | .body => True

theorem Builtin.asks_given {b : Builtin} {m m₁ : Machine} {s : Source}
    (h : Program.Asks ctx b m r m₁) (hr : r = .evalHere s ∨ ∃ label, r = .evalUnder label s)
    (h₁ : m₁.Texts Bytes.Balanced) : Role.Vouches s m₁ (.given b) := by
  refine ⟨?_, ?_, ?_⟩
  · rintro rfl
    rcases hr with rfl | ⟨label, rfl⟩
    · have hb : evalText.AsksOnly fun r => ∀ s, r ≠ .evalHere s :=
        evalText_within (fun _ => nofun) fun _ _ => nofun
      exact absurd rfl (h.sort hb s)
    · exact h₁.frame.raw (asks_evalText h)
  · rintro rfl
    rcases hr with rfl | ⟨label, rfl⟩
    · have hb : includeFile.AsksOnly fun r => ∀ s, r ≠ .evalHere s :=
        includeFile_within trivial (fun _ => nofun) (fun _ _ => nofun) fun _ _ => nofun
      exact absurd rfl (h.sort hb s)
    · exact asks_includeFile h
  · by_cases hb : ∃ entry ∈ Registry.standard, entry.2 = b
    · obtain ⟨entry, hentry, rfl⟩ := hb
      have hgives : r.givesText = true := by
        rcases hr with rfl | ⟨label, rfl⟩ <;> rfl
      rcases Registry.standard_onArguments (P := fun _ => True) (E := fun _ => True)
        (fun _ _ => trivial) (fun _ _ _ => trivial) entry hentry with hb | hb | hb
      · exact .inl hb
      · exact .inr (.inl hb)
      · rw [h.sort hb] at hgives
        cases hgives
    · exact .inr (.inr fun entry hentry he => hb ⟨entry, hentry, he⟩)

namespace Invocation

inductive Asks (registry : Registry) (fuel : Nat) (eval : Source → Machine → Outcome Unit)
    (src : Source) (c : Call) (m : Machine) : Builtin → Request → Machine → Prop
  | mk (hc : c.index? = none) (hn : (m.push (c.frame src)).argument eval 0 = .done name m')
      (hb : registry.lookup (name.getD []) = some b)
      (h : b.Asks (registry.context eval) fuel m' r m₁) :
      Asks registry fuel eval src c m b r m₁

inductive BeginsAs (registry : Registry) (fuel : Nat) (eval : Source → Machine → Outcome Unit)
    (src : Source) (c : Call) (m : Machine) : Role → Source → Machine → Prop
  | refer (hc : c.index? = some n) (hl : c.args.length < 2) (h : m.Needs n s m₁) :
      BeginsAs registry fuel eval src c m .argument s m₁
  | rebind (hc : c.index? = some n) (hl : ¬ c.args.length < 2)
      (h : (m.push (c.frame src)).Needs 1 s m₁) :
      BeginsAs registry fuel eval src c m .argument s m₁
  | name (hc : c.index? = none) (h : (m.push (c.frame src)).Needs 0 s m₁) :
      BeginsAs registry fuel eval src c m .argument s m₁
  | asked (h : Asks registry fuel eval src c m b (.argument n) m₁) (hn : m₁.Needs n s m₂) :
      BeginsAs registry fuel eval src c m .argument s m₂
  | here (h : Asks registry fuel eval src c m b (.evalHere s) m₁) :
      BeginsAs registry fuel eval src c m (.given b) s m₁
  | under (h : Asks registry fuel eval src c m b (.evalUnder label s) m₁) :
      BeginsAs registry fuel eval src c m (.given b) s (m₁.push (.under label))
  | body (hc : c.index? = none) (hn : (m.push (c.frame src)).argument eval 0 = .done name m')
      (hb : registry.lookup (name.getD []) = none)
      (hd : m'.state.dictionary.find m'.state.storage.system (name.getD []) = .ok (e, d)) :
      BeginsAs registry fuel eval src c m .body ⟨e.name, e.value⟩
        { m' with state := { m'.state with dictionary := d } }

variable {registry : Registry} {fuel : Nat} {src : Source} {c : Call} {m m₁ : Machine}

theorem Begins.role {eval : Source → Machine → Outcome Unit}
    (h : Begins registry fuel eval src c m s m₁) :
    ∃ role, BeginsAs registry fuel eval src c m role s m₁ := by
  cases h with
  | refer hc hl h => exact ⟨_, .refer hc hl h⟩
  | rebind hc hl h => exact ⟨_, .rebind hc hl h⟩
  | name hc h => exact ⟨_, .name hc h⟩
  | body hc hn hb hd => exact ⟨_, .body hc hn hb hd⟩
  | builtin hc hn hb h =>
    obtain ⟨r, m', ha, hr⟩ := h.asks
    cases hr with
    | argument h => exact ⟨_, .asked (.mk hc hn hb ha) h⟩
    | evalHere => exact ⟨_, .here (.mk hc hn hb ha)⟩
    | evalUnder => exact ⟨_, .under (.mk hc hn hb ha)⟩

theorem Asks.round (hr : registry.AsksOnly Request.Fair)
    (hs : .call c ∈ src.bytes.layout.segments) (hm : m.Texts Bytes.Balanced)
    (h : Asks registry fuel (eval registry k) src c m b r m₁) :
    m₁.Texts Bytes.Balanced ∧ r.Fair ∧
      ∃ m', Program.Asks (registry.context (eval registry k)) b m' r m₁ := by
  cases h with
  | mk hc hn hb h =>
    have hb := hr _ (Registry.mem_of_lookup hb)
    have hname := (hm.push (.ofTexts (Bytes.args_balanced hs) _)).argument hr hn
    obtain ⟨m', hm', h⟩ := h.round hr hb hname
    exact ⟨h.texts hr hb hm', h.sort hb, m', h⟩

theorem BeginsAs.vouches (hr : registry.AsksOnly Request.Fair)
    (hs : .call c ∈ src.bytes.layout.segments) (hm : m.Texts Bytes.Balanced)
    (h : BeginsAs registry fuel (eval registry k) src c m role s m₁) :
    m₁.Texts Bytes.Balanced ∧ role.Vouches s m₁ := by
  have hpush := hm.push (.ofTexts (Bytes.args_balanced hs) (some ⟨src, c.offset⟩))
  cases h with
  | refer _ _ hn => exact (hn.texts hm).symm
  | rebind _ _ hn => exact (hn.texts hpush).symm
  | name _ hn => exact (hn.texts hpush).symm
  | asked h hn => exact (hn.texts (h.round hr hs hm).1).symm
  | here h =>
    obtain ⟨h₁, -, m', h⟩ := h.round hr hs hm
    exact ⟨h₁, Builtin.asks_given h (.inl rfl) h₁⟩
  | under h =>
    obtain ⟨h₁, hfair, m', h⟩ := h.round hr hs hm
    have hgiven := Builtin.asks_given h (.inr ⟨_, rfl⟩) h₁
    exact ⟨h₁.push (Machine.Texts.simulation.under hfair).2, hgiven⟩
  | body _ hn =>
    have hname := hpush.argument hr hn
    exact ⟨hname, trivial⟩

end Invocation

/-- Only `eval` and `include` have texts evaluated under names. -/
def Registry.NamesKnown (registry : Registry) : Prop :=
  ∀ entry ∈ registry, entry.2 = Builtin.evalText ∨ entry.2 = Builtin.includeFile ∨
    Program.AsksOnly (fun r => ∀ label src, r ≠ .evalUnder label src) entry.2

theorem Registry.standard_namesKnown : standard.NamesKnown := by
  intro entry hentry
  rcases standard_onArguments (P := fun _ => True) (E := fun _ => True) (fun _ _ => trivial)
    (fun _ _ _ => trivial) entry hentry with h | h | h
  · exact .inl h
  · exact .inr (.inl h)
  · refine .inr (.inr (h.imp ?_ (fun _ => id) fun _ => id))
    rintro _ hr label src rfl
    cases hr

theorem Registry.NamesKnown.fair {registry : Registry} (h : registry.NamesKnown) :
    registry.AsksOnly Request.Fair := by
  intro entry hentry
  rcases h entry hentry with hb | hb | hb
  · rw [hb]
    refine Builtin.evalText_within (fun _ _ => nofun) ?_
    rintro src _ _ ⟨⟩
    decide
  · rw [hb]
    refine Builtin.includeFile_within trivial (fun _ _ => nofun) (fun _ _ _ => nofun) ?_
    rintro src _ _ ⟨⟩
    decide
  · exact hb.imp (fun r hr label src h => absurd h (hr label src)) (fun _ => id) fun _ => id

namespace Evaluation

variable {registry : Registry} {e e₁ : Evaluation}

inductive Asks (registry : Registry) : Evaluation → Builtin → Request → Machine → Prop
  | mk (hs : src.bytes.layout.segments = before ++ .call c :: after)
      (hb : Segment.runAll (Invocation.carryOut registry n (eval registry n) src) before m =
        .done () m₁)
      (hi : Invocation.Asks registry n (eval registry n) src c m₁ b r m₂) :
      Asks registry ⟨n + 1, src, m⟩ b r m₂

/-- One evaluation begins another, of a text that has a role there. -/
inductive BeginsAs (registry : Registry) : Role → Evaluation → Evaluation → Prop
  | mk (hs : src.bytes.layout.segments = before ++ .call c :: after)
      (hb : Segment.runAll (Invocation.carryOut registry n (eval registry n) src) before m =
        .done () m₁)
      (hi : Invocation.BeginsAs registry n (eval registry n) src c m₁ role s m₂) :
      BeginsAs registry role ⟨n + 1, src, m⟩ ⟨n, s, m₂⟩

/-- The builtin `define` stores a text in the course of the evaluation. -/
def Defines (registry : Registry) (e : Evaluation) (v : Bytes) : Prop :=
  ∃ name m, e.Asks registry Builtin.define (.install name v) m

/-- The evaluation meets a close that closes nothing, or the end of its text in an invocation. -/
def MeetsUnmatched (registry : Registry) (e : Evaluation) : Prop :=
  ∃ d x, e.Raises registry d x ∧ (d.kind = .missingClose ∨ d.kind = .extraClose)

theorem not_meetsUnmatched (h : e.source.bytes.Balanced) : ¬ e.MeetsUnmatched registry := by
  rintro ⟨d, x, hraise, hd⟩
  obtain ⟨o, rfl⟩ := h.defect hraise.defect
  rcases hd with hd | hd <;> cases hd

theorem Begins.role (h : e.Begins registry e₁) : ∃ role, e.BeginsAs registry role e₁ := by
  cases h with
  | mk hs hb hi =>
    obtain ⟨role, hi⟩ := hi.role
    exact ⟨role, .mk hs hb hi⟩

theorem BeginsAs.vouches (hr : registry.AsksOnly Request.Fair)
    (hm : e.machine.Texts Bytes.Balanced) (h : e.BeginsAs registry role e₁) :
    e₁.machine.Texts Bytes.Balanced ∧ role.Vouches e₁.source e₁.machine := by
  cases h with
  | mk hs hb hi => exact hi.vouches hr (by simp [hs]) (Segment.runAll_texts hr hs hm hb)

theorem Defines.balanced (hr : registry.AsksOnly Request.Fair)
    (hm : e.machine.Texts Bytes.Balanced) (h : e.Defines registry v) : v.Balanced := by
  obtain ⟨name, m₁, h⟩ := h
  cases h with
  | mk hs hb hi =>
    obtain ⟨h₁, -, m', h⟩ := hi.round hr (by simp [hs]) (Segment.runAll_texts hr hs hm hb)
    rw [Builtin.asks_define h]
    cases ht : m₁.scope.frame.raw 2 with
    | none => exact Bytes.balanced_nil
    | some t => exact h₁.frame.raw ht

theorem Reaches.texts (hr : registry.AsksOnly Request.Fair) (h : e.Reaches registry e₁)
    (hm : e.machine.Texts Bytes.Balanced) : e₁.machine.Texts Bytes.Balanced := by
  induction h with
  | refl e => exact hm
  | head h _ ih =>
    obtain ⟨role, h⟩ := h.role
    exact ih (h.vouches hr hm).1

theorem Reaches.last (h : e.Reaches registry e₁) :
    e₁ = e ∨ ∃ e₀, e.Reaches registry e₀ ∧ e₀.Begins registry e₁ := by
  induction h with
  | refl e => exact .inl rfl
  | head h _ ih =>
    rcases ih with rfl | ⟨e₀, hreach, hbegins⟩
    · exact .inr ⟨_, .refl _, h⟩
    · exact .inr ⟨e₀, .head h hreach, hbegins⟩

theorem MeetsUnmatched.origin (hr : registry.AsksOnly Request.Fair)
    (hm : e.machine.Texts Bytes.Balanced) (hreach : e.Reaches registry e₁)
    (h : e₁.MeetsUnmatched registry) :
    e₁ = e ∨ ∃ e₀, e.Reaches registry e₀ ∧
      (e₀.BeginsAs registry .body e₁ ∨
        (e₀.BeginsAs registry (.given .includeFile) e₁ ∧
          e₁.machine.state.storage.Gave e₁.source) ∨
        ∃ b, e₀.BeginsAs registry (.given b) e₁ ∧ ∀ entry ∈ Registry.standard, entry.2 ≠ b) := by
  rcases hreach.last with he | ⟨e₀, hreach, hbegins⟩
  · exact .inl he
  · have h₀ := hreach.texts hr hm
    refine .inr ⟨e₀, hreach, ?_⟩
    obtain ⟨role, hrole⟩ := hbegins.role
    have hvouches := (hrole.vouches hr h₀).2
    cases role with
    | argument => exact absurd h (not_meetsUnmatched hvouches)
    | body => exact .inl hrole
    | given b =>
      obtain ⟨heval, hinclude, hb | rfl | hb⟩ := hvouches
      · exact absurd h (not_meetsUnmatched (heval hb))
      · exact .inr (.inl ⟨hrole, hinclude rfl⟩)
      · exact .inr (.inr ⟨b, hrole, hb⟩)

end Evaluation

/-- Balance is handed down. Whatever a text is like, the arguments of the invocations in it are
balanced. So wherever evaluation gets to, it does not meet brackets that do not match in an
argument, in what the builtin `eval` is given or in what `define` stored; where it does meet them,
the text is the source itself, an included file, the body of a macro that was not stored by
`define`, or given by a builtin that is not one of the standard ones. -/
theorem balance_hereditary (registry : Registry) (hr : registry.NamesKnown) :
    (∀ (s : Bytes) (c : Call), .call c ∈ s.layout.segments → ∀ a ∈ c.args, a.Balanced) ∧
    ∀ e e₁ : Evaluation, e.machine.Texts Bytes.Balanced → e.Reaches registry e₁ →
      (∀ e₂, e₁.BeginsAs registry .argument e₂ → ¬ e₂.MeetsUnmatched registry) ∧
      (∀ e₂, e₁.BeginsAs registry (.given .evalText) e₂ → ¬ e₂.MeetsUnmatched registry) ∧
      (∀ v, e₁.Defines registry v → v.Balanced ∧
        ∀ e₂ : Evaluation, e₂.source.bytes = v → ¬ e₂.MeetsUnmatched registry) ∧
      (e₁.MeetsUnmatched registry → e₁ = e ∨ ∃ e₀, e.Reaches registry e₀ ∧
        (e₀.BeginsAs registry .body e₁ ∧
            (∀ e' e'' : Evaluation, e'.machine.Texts Bytes.Balanced → e'.Reaches registry e'' →
              ¬ e''.Defines registry e₁.source.bytes) ∨
          e₀.BeginsAs registry (.given .includeFile) e₁ ∧
            e₁.machine.state.storage.Gave e₁.source ∨
          ∃ b, e₀.BeginsAs registry (.given b) e₁ ∧
            ∀ entry ∈ Registry.standard, entry.2 ≠ b)) := by
  have hfair := hr.fair
  refine ⟨fun s c => Bytes.args_balanced, fun e e₁ hm hreach => ?_⟩
  have h₁ := hreach.texts hfair hm
  refine ⟨fun e₂ h => ?_, fun e₂ h => ?_, fun v h => ?_, fun h => ?_⟩
  · exact Evaluation.not_meetsUnmatched (h.vouches hfair h₁).2
  · exact Evaluation.not_meetsUnmatched ((h.vouches hfair h₁).2.1 rfl)
  · have hv := h.balanced hfair h₁
    refine ⟨hv, ?_⟩
    rintro e₂ rfl
    exact Evaluation.not_meetsUnmatched hv
  · rcases h.origin hfair hm hreach with he | ⟨e₀, hreach₀, hbody | hfile | hhost⟩
    · exact .inl he
    · refine .inr ⟨e₀, hreach₀, .inl ⟨hbody, fun e' e'' hm' hreach' hd => ?_⟩⟩
      have hv := hd.balanced hfair (hreach'.texts hfair hm')
      exact Evaluation.not_meetsUnmatched hv h
    · exact .inr ⟨e₀, hreach₀, .inr (.inl hfile)⟩
    · exact .inr ⟨e₀, hreach₀, .inr (.inr hhost)⟩

def Evaluation.strayClose : Evaluation where
  fuel := 3
  source := { bytes := utf8 "<~m~>" }
  machine :=
    { state := { dictionary := { table := (Table.empty 0).install (utf8 "m") (utf8 "x~>") } }
      scope := ⟨.empty, []⟩ }

theorem balance_hereditary_strayClose :
    Registry.standard.NamesKnown ∧ Evaluation.strayClose.machine.Texts Bytes.Balanced ∧
      ∃ e₁, Evaluation.strayClose.Reaches .standard e₁ ∧ e₁.MeetsUnmatched .standard ∧
        e₁ ≠ .strayClose ∧ ∃ e₀, Evaluation.strayClose.Reaches .standard e₀ ∧
          (e₀.BeginsAs .standard .body e₁ ∧
              (∀ e' e'' : Evaluation, e'.machine.Texts Bytes.Balanced → e'.Reaches .standard e'' →
                ¬ e''.Defines .standard e₁.source.bytes) ∨
            e₀.BeginsAs .standard (.given .includeFile) e₁ ∧
              e₁.machine.state.storage.Gave e₁.source ∨
            ∃ b, e₀.BeginsAs .standard (.given b) e₁ ∧
              ∀ entry ∈ Registry.standard, entry.2 ≠ b) := by
  have hm : Evaluation.strayClose.machine.Texts Bytes.Balanced := by
    simp [Machine.Texts, Machine.frames, Evaluation.strayClose, Frame.empty, Slot.Texts]
  have hrun : ∃ f m', Evaluation.strayClose.run .standard = .failed (.fault f) m' ∧
      f.kind = .extraClose := ⟨_, _, rfl, rfl⟩
  obtain ⟨f, m', hrun, hf⟩ := hrun
  obtain ⟨e₁, d, hreach, hraise⟩ := Evaluation.exists_raises
    (Registry.standard_failsOnly fun _ => id) (by rw [hf, Kind.isBracket]) _ hrun
  have hmeets : e₁.MeetsUnmatched .standard := ⟨d, _, hraise, .inr (hraise.kind.symm.trans hf)⟩
  have hne : e₁ ≠ .strayClose := by
    rintro rfl
    cases hraise.defect
  have h := (balance_hereditary .standard Registry.standard_namesKnown).2 _ e₁ hm hreach
  exact ⟨Registry.standard_namesKnown, hm, e₁, hreach, hmeets, hne,
    (h.2.2.2 hmeets).resolve_left hne⟩

end TildeText
