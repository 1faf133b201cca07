import Mathlib.Data.List.Forall2
import TildeText.Proofs.Invariant
import TildeText.Proofs.Openings
import TildeText.Proofs.Provenance

namespace TildeText

structure Frame.Becomes (f g : Frame) : Prop where
  origin : g.origin = f.origin
  texts : ∀ n t, g.raw n = some t → f.raw n = some t

namespace Frame.Becomes

variable {f g h : Frame}

theorem refl (f : Frame) : f.Becomes f := ⟨rfl, fun _ _ => id⟩

theorem trans (hfg : f.Becomes g) (hgh : g.Becomes h) : f.Becomes h :=
  ⟨hgh.origin.trans hfg.origin, fun n t ht => hfg.texts n t (hgh.texts n t ht)⟩

theorem modify (f : Frame) (n : Nat) {change : Slot → Slot} (hc : ∀ s, (change s).text = s.text) :
    f.Becomes { f with slots := f.slots.modify n change } := by
  refine ⟨rfl, fun i t ht => ?_⟩
  simp only [raw, List.getElem?_modify] at ht ⊢
  cases hs : f.slots[i]? with
  | none => simp [hs] at ht
  | some s =>
    by_cases hn : n = i
    · simpa [hs, hn, hc] using ht
    · simpa [hs, hn] using ht

theorem rebind (f : Frame) (n : Nat) (v : Option Bytes) : f.Becomes (f.rebind n v) := by
  refine ⟨rfl, fun i t ht => ?_⟩
  rw [raw, getElem?_rebind] at ht
  split at ht
  · cases ht
  · split at ht
    · exact ht
    · split at ht <;> cases ht

theorem assign (f : Frame) (n : Int) (v : Bytes) : f.Becomes (f.assign n v) := by
  rw [Frame.assign]
  split
  · exact rebind f _ _
  · exact refl f

end Frame.Becomes

theorem Request.perform_becomes {r : Request} (hr : r.evaluates = false) (ctx : Context)
    (m : Machine) :
    (r.perform ctx m).Holds fun m₁ =>
      m.scope.frame.Becomes m₁.scope.frame ∧ m₁.scope.outer = m.scope.outer := by
  have hrefl : m.scope.frame.Becomes m.scope.frame ∧ m.scope.outer = m.scope.outer :=
    ⟨.refl _, rfl⟩
  cases r with
  | argument n => cases hr
  | evalHere src => cases hr
  | evalUnder label src => cases hr
  | assign n v => exact ⟨.assign _ n v, rfl⟩
  | forget n => exact ⟨.modify _ n fun _ => rfl, rfl⟩
  | print s => exact Machine.report_holds (fun _ => hrefl) _
  | dump => exact Machine.report_holds (fun _ => hrefl) _
  | _ => exact hrefl

/-- The frames of a machine are what has become of earlier ones. Unlike in `Evolution`, the frame of
an invocation is followed through what a builtin does to it as well. -/
def Machine.Stems (w : List Frame) (m : Machine) : Prop := List.Forall₂ Frame.Becomes w m.frames

def Machine.framesAround : List Frame → List Frame
  | _ :: f :: fs => f :: fs
  | _ => [Frame.empty]

theorem Machine.frames_aside (m : Machine) : m.aside.frames = framesAround m.frames := by
  cases ho : m.scope.outer with
  | nil => simp [frames, aside, Scope.around, framesAround, ho]
  | cons f rest => simp [frames, aside, Scope.around, framesAround, ho]

namespace Machine.Stems

variable {w w' : List Frame} {m m₁ : Machine} {f : Frame}

theorem now (m : Machine) : m.Stems m.frames := List.forall₂_same.2 fun f _ => .refl f

theorem cons_inv (h : m.Stems (f :: w)) :
    f.Becomes m.scope.frame ∧ List.Forall₂ Frame.Becomes w m.scope.outer :=
  List.forall₂_cons.1 h

theorem exists_cons (h : m.Stems w) : ∃ f fs, w = f :: fs := by
  obtain ⟨f, fs, -, -, rfl⟩ := List.forall₂_cons_right_iff.1 h
  exact ⟨f, fs, rfl⟩

theorem mapFrame (h : m.Stems w) {change : Frame → Frame}
    (hc : m.scope.frame.Becomes (change m.scope.frame)) : (m.mapFrame change).Stems w := by
  obtain ⟨f, fs, rfl⟩ := h.exists_cons
  obtain ⟨hf, hfs⟩ := h.cons_inv
  exact .cons (hf.trans hc) hfs

theorem push (h : m.Stems w) (f : Frame) : (m.push f).Stems (f :: w) := .cons (.refl f) h

theorem pop (h : m.Stems (f :: w)) (hw : w ≠ []) : m.pop.Stems w := by
  obtain ⟨-, hfs⟩ := h.cons_inv
  have ho : m.scope.outer ≠ [] := by
    intro ho
    rw [ho] at hfs
    exact hw (List.forall₂_nil_right_iff.1 hfs)
  rw [Stems, frames_pop ho]
  exact hfs

theorem aside (h : m.Stems w) : m.aside.Stems (framesAround w) := by
  rw [Stems] at h
  rw [Stems, frames_aside]
  generalize m.frames = fs at h ⊢
  cases h with
  | nil => exact .cons (.refl _) .nil
  | cons _ hfs =>
    cases hfs with
    | nil => exact .cons (.refl _) .nil
    | cons hg hrest => exact .cons hg hrest

theorem resume (h : m.Stems w) (h₁ : m₁.Stems (framesAround w)) {f : Frame}
    (hf : m.scope.frame.Becomes f) : (m.resume f m₁).Stems w := by
  obtain ⟨f₀, fs, rfl⟩ := h.exists_cons
  obtain ⟨hf₀, hfs⟩ := h.cons_inv
  cases fs with
  | nil =>
    have ho : m.scope.outer = [] := List.forall₂_nil_left_iff.1 hfs
    simp only [Stems, frames, Machine.resume, Scope.within, ho]
    exact .cons (hf₀.trans hf) .nil
  | cons g fs =>
    obtain ⟨g', fs', -, -, ho⟩ := List.forall₂_cons_left_iff.1 hfs
    simp only [Stems, frames, Machine.resume, Scope.within, ho]
    exact .cons (hf₀.trans hf) h₁

theorem invariant (registry : Registry) :
    Invariant registry (fun _ => True) (fun w m => Stems w m) (fun _ => True) where
  write h _ := h
  fault _ _ _ _ := trivial
  own _ _ := Program.asksOnly _
  rebind h n v := h.mapFrame (.rebind _ n v)
  dictionary h _ := h
  perform {w m} _ h ctx r hr := by
    obtain ⟨f, fs, rfl⟩ := h.exists_cons
    obtain ⟨hf, hfs⟩ := h.cons_inv
    have hr := r.perform_becomes hr ctx m
    have kept {m₁ : Machine} (h₁ : m.scope.frame.Becomes m₁.scope.frame ∧
        m₁.scope.outer = m.scope.outer) : m₁.Stems (f :: fs) := by
      rw [Stems, frames, h₁.2]
      exact .cons (hf.trans h₁.1) hfs
    generalize r.perform ctx m = x at hr ⊢
    cases x with
    | done a m₁ => exact kept hr
    | failed e m₁ => exact ⟨trivial, kept hr⟩
    | exhausted => trivial
  push {w m} h f := by
    refine ⟨f :: w, trivial, h.push f, fun m₁ h₁ => h₁.pop ?_⟩
    obtain ⟨g, fs, rfl⟩ := h.exists_cons
    exact List.cons_ne_nil g fs
  aside h := by
    refine ⟨_, h.aside, fun m₁ h₁ => ⟨h.resume h₁ (.refl _), fun n t _ v => ?_⟩⟩
    exact h.resume h₁ (.modify _ n fun _ => rfl)

variable {registry : Registry} {k : Nat}

theorem of_follows {x : Outcome α} (h : x.Follows False (Invariant.Both Stems w) F x)
    (hx : x = .done a m₁) : m₁.Stems w := by
  obtain ⟨_, -, h₁⟩ := h.related.left hx
  exact h₁

theorem argument (h : m.Stems w) (ha : m.argument (eval registry k) n = .done v m₁) :
    m₁.Stems w :=
  of_follows ((invariant registry).argument ((invariant registry).kept k) h n) ha

theorem request (h : m.Stems w) {r : Request} {a : r.Answer}
    (hr : r.perform (registry.context (eval registry k)) m = .done a m₁) : m₁.Stems w :=
  of_follows ((invariant registry).request ((invariant registry).kept k) trivial h r) hr

theorem program (h : m.Stems w) {p : Program α}
    (hp : p.run (registry.context (eval registry k)) m = .done a m₁) : m₁.Stems w := by
  refine of_follows ((invariant registry).program ((invariant registry).kept k) trivial h ?_) hp
  exact p.asksOnly.imp (fun _ => id) (fun _ => id) fun _ _ => trivial

theorem segments (h : m.Stems w) {src : Source} {xs : List Segment}
    (hs : Segment.runAll (Invocation.carryOut registry k (eval registry k) src) xs m =
      .done () m₁) : m₁.Stems w :=
  of_follows (((invariant registry).coupling ((invariant registry).kept k)).segments
    (.of_frames fun _ _ => rfl) ⟨rfl, h⟩) hs

theorem asks (h : m.Stems w) {p : Program α}
    (ha : p.Asks (registry.context (eval registry k)) m r m₁) : m₁.Stems w := by
  induction ha with
  | now => exact h
  | later hr _ ih => exact ih (h.request hr)

theorem builtin_asks (h : m.Stems w) {b : Builtin}
    (ha : b.Asks (registry.context (eval registry k)) n m r m₁) : m₁.Stems w := by
  induction ha with
  | now ha => exact h.asks ha
  | again hb _ ih => exact ih (h.program hb)

theorem fails (h : m.Stems w) {p : Program α}
    (hf : p.Fails (registry.context (eval registry k)) m m₁ e) : m₁.Stems w := by
  induction hf with
  | now => exact h
  | later hr _ ih => exact ih (h.request hr)

theorem builtin_fails (h : m.Stems w) {b : Builtin}
    (hf : b.Fails (registry.context (eval registry k)) n m m₁ e) : m₁.Stems w := by
  induction hf with
  | now hf => exact h.fails hf
  | again hb _ ih => exact ih (h.program hb)

theorem faults (h : m.Stems w) {src : Source}
    (hf : Invocation.Faults registry k (eval registry k) src c m m₁ e) :
    m₁.Stems (c.frame src :: w) := by
  have hpush := h.push (c.frame src)
  cases hf with
  | rebind _ _ hv => exact hpush.argument hv
  | builtin _ hn _ hf => exact (hpush.argument hn).builtin_fails hf
  | body _ hn _ _ => exact hpush.argument hn

end Machine.Stems

namespace Bytes

/-- The place of the byte at an index as it is shown: its line, its column and its number, each
counted from one. -/
def place (s : Bytes) (i : Nat) : Bytes :=
  utf8 "(" ++ decimalNat (1 + (s.lineEnds i).length) ++ utf8 "," ++
    decimalNat (s.sinceLineEnd i + 1) ++ utf8 "/" ++ decimalNat (i + 1) ++ utf8 ") "

end Bytes

theorem Origin.describe_eq {o : Origin} (h : o.offset ≤ o.source.bytes.length) :
    o.describe = o.source.name ++ o.source.bytes.place o.offset := by
  simp only [describe, Cursor.after_eq_told h, Cursor.told, Bytes.place, List.append_assoc]

def Frame.title (f : Frame) : Bytes :=
  (f.raw 0).elim [] fun name => if name.isEmpty then [] else utf8 "<~" ++ name ++ utf8 "~> "

theorem Frame.describe_eq (f : Frame) :
    f.describe = (f.origin.map Origin.describe).getD [] ++ f.title := by
  rw [describe, title]
  cases f.raw 0 <;> rfl

/-- The frame of an invocation, whatever has become of it. -/
structure Frame.OpenedBy (f : Frame) (o : Opening) : Prop where
  origin : f.origin = some ⟨o.source, o.index⟩
  texts : ∀ n t, f.raw n = some t → o.call.args[n]? = some t

namespace Frame

variable {f g : Frame} {o : Opening}

theorem OpenedBy.becomes (h : f.OpenedBy o) (hg : f.Becomes g) : g.OpenedBy o :=
  ⟨hg.origin.trans h.origin, fun n t ht => h.texts n t (hg.texts n t ht)⟩

theorem OpenedBy.describe_eq (h : f.OpenedBy o) :
    f.describe = o.source.name ++ o.source.bytes.place o.index ++ f.title := by
  rw [f.describe_eq, h.origin, Option.map_some, Option.getD_some, Origin.describe_eq o.index_le]

theorem OpenedBy.name_follows (h : f.OpenedBy o) (hn : f.raw 0 = some name) :
    name ++ List.replicate o.call.width Token.tilde <+: o.after := by
  have hargs := o.args
  obtain ⟨rest, ha⟩ : ∃ rest, o.call.args = name :: rest := by
    have ha := h.texts 0 name hn
    rw [← List.head?_eq_getElem?] at ha
    exact List.head?_eq_some_iff.1 ha
  rw [ha, List.flatMap_cons] at hargs
  exact (List.prefix_append _ _).trans hargs

end Frame

theorem Bytes.Invokes.exists_openedBy {src : Source} (h : src.bytes.Invokes c) :
    ∃ o : Opening, o.source = src ∧ (c.frame src).OpenedBy o := by
  obtain ⟨o, hsrc, rfl, hindex⟩ := h.exists_opening
  refine ⟨o, hsrc, ?_, fun n t ht => ?_⟩
  · rw [hsrc, hindex]
    rfl
  · simpa [Call.frame, Frame.ofTexts, Frame.raw, Option.bind_map, Function.comp_def] using ht

/-- How a frame has come to be there in an evaluation, seen from one that led to it. It was there
already, or it stands around what was the outermost frame, or for a label; or it is the frame of an
invocation, in the source of an evaluation on the way. -/
inductive Frame.Arises (registry : Registry) (e e' : Evaluation) (g : Frame) : Prop
  | given (hf : f ∈ e.machine.frames) (h : f.Becomes g)
  | around (h : Frame.empty.Becomes g)
  | under (h : (Frame.under label).Becomes g)
  | opened (h : e.Reaches registry e₁) (h' : e₁.Reaches registry e') (o : Opening)
      (hs : o.source = e₁.source) (ho : g.OpenedBy o)

def Machine.Arises (registry : Registry) (e e' : Evaluation) (m : Machine) : Prop :=
  ∀ f ∈ m.frames, f.Arises registry e e'

theorem Evaluation.Reaches.trans {e e₁ e' : Evaluation} (h : e.Reaches registry e₁)
    (h' : e₁.Reaches registry e') : e.Reaches registry e' := by
  induction h with
  | refl e => exact h'
  | head h _ ih => exact .head h (ih h')

namespace Frame.Arises

variable {registry : Registry} {e e₁ e' : Evaluation} {f g : Frame}

theorem becomes (h : f.Arises registry e e') (hg : f.Becomes g) : g.Arises registry e e' := by
  cases h with
  | given hf h => exact .given hf (h.trans hg)
  | around h => exact .around (h.trans hg)
  | under h => exact .under (h.trans hg)
  | opened h h' o hs ho => exact .opened h h' o hs (ho.becomes hg)

theorem later (h : g.Arises registry e e₁) (h' : e₁.Reaches registry e') :
    g.Arises registry e e' := by
  cases h with
  | given hf h => exact .given hf h
  | around h => exact .around h
  | under h => exact .under h
  | opened h h₁ o hs ho => exact .opened h (h₁.trans h') o hs ho

theorem earlier (h : g.Arises registry e₁ e') (hb : e.Begins registry e₁)
    (hgiven : e₁.machine.Arises registry e e') : g.Arises registry e e' := by
  cases h with
  | given hf h => exact (hgiven _ hf).becomes h
  | around h => exact .around h
  | under h => exact .under h
  | opened h h' o hs ho => exact .opened (.head hb h) h' o hs ho

theorem of_forall₂ {fs gs : List Frame} (hs : List.Forall₂ Becomes fs gs)
    (h : ∀ f ∈ fs, f.Arises registry e e') : ∀ g ∈ gs, g.Arises registry e e' := by
  induction hs with
  | nil => exact h
  | cons hb _ ih =>
    rw [List.forall_mem_cons] at h ⊢
    exact ⟨h.1.becomes hb, ih h.2⟩

end Frame.Arises

namespace Machine.Arises

variable {registry : Registry} {e e' : Evaluation} {m m₁ : Machine}

theorem given (e e' : Evaluation) : e.machine.Arises registry e e' :=
  fun f hf => .given hf (.refl f)

theorem stems (h : m.Arises registry e e') (hs : m₁.Stems m.frames) : m₁.Arises registry e e' :=
  Frame.Arises.of_forall₂ hs h

theorem push (h : m.Arises registry e e') {f : Frame} (hf : f.Arises registry e e') :
    (m.push f).Arises registry e e' :=
  List.forall_mem_cons.2 ⟨hf, h⟩

theorem aside (h : m.Arises registry e e') : m.aside.Arises registry e e' := by
  have houter : ∀ f ∈ m.scope.outer, f.Arises registry e e' := (List.forall_mem_cons.1 h).2
  rw [Arises, frames_aside, frames]
  cases ho : m.scope.outer with
  | nil => exact List.forall_mem_singleton.2 (.around (.refl _))
  | cons f rest =>
    rw [ho] at houter
    exact houter

theorem needs (h : m.Arises registry e e') (hn : m.Needs n src m₁) : m₁.Arises registry e e' := by
  cases hn with
  | raw _ => exact h.aside

theorem request (h : m.Arises registry e e') {r : Request} (hr : r.Begins m src m₁) :
    m₁.Arises registry e e' := by
  cases hr with
  | argument hn => exact h.needs hn
  | evalHere => exact h
  | evalUnder => exact h.push (.under (.refl _))

theorem begins (h : m.Arises registry e e') {src : Source}
    (hc : (c.frame src).Arises registry e e')
    (hb : Invocation.Begins registry k (eval registry k) src c m s m₁) :
    m₁.Arises registry e e' := by
  have hpush := h.push hc
  cases hb with
  | refer _ _ hn => exact h.needs hn
  | rebind _ _ hn => exact hpush.needs hn
  | name _ hn => exact hpush.needs hn
  | builtin _ hn _ hb =>
    obtain ⟨r, m₂, ha, hr⟩ := hb.asks
    have h₂ := hpush.stems (((Stems.now _).argument hn).builtin_asks ha)
    exact h₂.request hr
  | body _ hn _ _ =>
    -- looking the macro up may add to the dictionary, but changes no frame
    have h₁ := hpush.stems ((Stems.now _).argument hn)
    exact h₁

end Machine.Arises

namespace Evaluation

variable {registry : Registry} {e e₁ e' : Evaluation} {m₁ : Machine} {f : Fault}

theorem Begins.arises (h : e.Begins registry e₁) : e₁.machine.Arises registry e e₁ := by
  have hreach : e.Reaches registry e₁ := .head h (.refl e₁)
  have hgiven : e.machine.Arises registry e e₁ := .given e e₁
  cases h with
  | @mk before after n src m m₂ c s m₁ hs hb hi =>
    have hc : .call c ∈ src.bytes.layout.segments := by simp [hs]
    obtain ⟨o, hsrc, ho⟩ := (Bytes.Invokes.made hc).exists_openedBy
    have h₂ := hgiven.stems ((Machine.Stems.now m).segments hb)
    exact h₂.begins (.opened (.refl _) hreach o hsrc ho) hi

theorem Reaches.arises (h : e.Reaches registry e') : e'.machine.Arises registry e e' := by
  induction h with
  | refl e => exact .given e e
  | head h h' ih => exact fun g hg => (ih g hg).earlier h fun f hf => (h.arises f hf).later h'

theorem Faults.outer_arises (h : e'.Faults registry m₁ f) (hm : e'.machine.Arises registry e e') :
    ∀ g ∈ m₁.scope.outer, g.Arises registry e e' := by
  cases h with
  | defect hs _ => exact hm.stems ((Machine.Stems.now _).segments hs)
  | invocation _ hb hi =>
    have h₁ := ((Machine.Stems.now _).segments hb).faults hi
    exact Frame.Arises.of_forall₂ h₁.cons_inv.2 hm

theorem Faults.frame_opened (h : e.Faults registry m₁ f) :
    (∃ o : Opening, o.source = e.source ∧ m₁.scope.frame.OpenedBy o) ∨
      f.kind = .extraClose ∧ ∃ before after, e.source.bytes = before ++ Token.gt :: after ∧
        m₁.scope.frame = { origin := some ⟨e.source, before.length + 1⟩ } := by
  cases h with
  | @defect n src m m' d _ hd =>
    cases d with
    | shortClose o => exact .inl (Bytes.Invokes.short hd).exists_openedBy
    | missingClose o => exact .inl (Bytes.Invokes.unclosed hd).exists_openedBy
    | extraClose k =>
      -- no invocation is open in the text, so the mark is all there is to show of it
      obtain ⟨rest, hrest, hleaves⟩ := src.bytes.layout_rest
      rw [hd] at hleaves
      obtain ⟨⟨after, rfl⟩, rfl⟩ := hleaves
      exact .inr ⟨rfl, _, after, hrest, rfl⟩
  | @invocation before after n src m m' c f m₁ hs hb hi =>
    have hc : .call c ∈ src.bytes.layout.segments := by simp [hs]
    obtain ⟨o, hsrc, ho⟩ := (Bytes.Invokes.made hc).exists_openedBy
    have hframe := (((Machine.Stems.now m).segments hb).faults hi).cons_inv.1
    exact .inl ⟨o, hsrc, ho.becomes hframe⟩

end Evaluation

/-- Positions are told by the text that has been taken. In whatever steps a reader goes through a
text, by single bytes or by runs of tildes, after the first `i` bytes its cursor is at `i`, in the
line after as many line ends as are among these bytes, and as many columns on as bytes have been
taken since the last of them; and so it is for a scan, token by token. What a fault shows are the
frames that are open where it is raised, outermost first. Those that have been opened on the way are
the frames of invocations, in the sources of evaluations that are still going on, and each of these
is shown with the place of the byte just after its opening fence, whatever comes before it. One kind
of fault is not raised in an invocation: a close that closes nothing is shown with a mark of its own
after the open invocations. -/
theorem positions_told :
    (∀ (s : Bytes) (moves : List Reader.Move), ∃ i ≤ s.length,
      (Reader.start s).run moves =
        ⟨⟨i, 1 + (s.lineEnds i).length, s.sinceLineEnd i⟩, s.drop i⟩) ∧
    (∀ (s : Bytes) (ts us : List Token), s.tokens = ts ++ us →
      (Reader.start s).run (ts.flatMap Token.moves) =
        ⟨.after s (Token.spellAll ts).length, Token.spellAll us⟩) ∧
    (∀ (registry : Registry) (e : Evaluation) (f : Fault) (m' : Machine),
      e.run registry = .failed (.fault f) m' →
      ∃ e' m₁, e.Reaches registry e' ∧ e'.Faults registry m₁ f ∧
        f.trace = m₁.frames.reverse.flatMap Frame.describe ∧
        (∀ g ∈ m₁.scope.outer, g.Arises registry e e') ∧
        ((∃ o : Opening, o.source = e'.source ∧ m₁.scope.frame.OpenedBy o) ∨
          f.kind = .extraClose ∧ ∃ before after, e'.source.bytes = before ++ Token.gt :: after ∧
            m₁.scope.frame = { origin := some ⟨e'.source, before.length + 1⟩ })) ∧
    ∀ (g : Frame) (o : Opening), g.OpenedBy o →
      g.describe = o.source.name ++ o.source.bytes.place o.index ++ g.title ∧
      ∀ name, g.raw 0 = some name →
        name ++ List.replicate o.call.width Token.tilde <+: o.after := by
  refine ⟨fun s moves => (Reader.in_start s).run moves, fun s ts us => Reader.run_tokens,
    fun registry e f m' hrun => ?_, fun g o h => ⟨h.describe_eq, fun name => h.name_follows⟩⟩
  obtain ⟨e', m₁, hreach, hf⟩ := e.exists_faults hrun
  refine ⟨e', m₁, hreach, hf, ?_, hf.outer_arises hreach.arises, hf.frame_opened⟩
  rw [hf.trace_eq, Scope.trace, Machine.frames, List.reverse_cons]

def Evaluation.mixedLines : Evaluation where
  fuel := 3
  source := ⟨utf8 "text", utf8 "a\r\nb\r<~m~>"⟩
  machine :=
    { state := { dictionary := { table := (Table.empty 0).install (utf8 "m") (utf8 "\n<~x") } }
      scope := ⟨.empty, []⟩ }

theorem positions_told_mixedLines :
    ∃ f m', Evaluation.mixedLines.run .standard = .failed (.fault f) m' ∧
      f.trace = utf8 "text(3,3/8) <~m~> m(2,3/4) " ∧
      ∃ e' m₁, Evaluation.mixedLines.Reaches .standard e' ∧ e'.Faults .standard m₁ f ∧
        ∃ o : Opening, o.source = e'.source ∧ m₁.scope.frame.OpenedBy o := by
  have hrun : ∃ f m', Evaluation.mixedLines.run .standard = .failed (.fault f) m' ∧
      f.kind = .missingClose ∧ f.trace = utf8 "text(3,3/8) <~m~> m(2,3/4) " :=
    ⟨_, _, rfl, rfl, by decide⟩
  obtain ⟨f, m', hrun, hkind, htrace⟩ := hrun
  obtain ⟨e', m₁, hreach, hf, -, -, ho⟩ := positions_told.2.2.1 .standard _ f m' hrun
  refine ⟨f, m', hrun, htrace, e', m₁, hreach, hf, ho.resolve_right ?_⟩
  rintro ⟨hextra, -⟩
  rw [hkind] at hextra
  cases hextra

end TildeText
